import PmemProgram.Cbs.Pmem

/-!
# The pages of the cache: invariant, crash images, rebuild

* `Sole n p r o` : the pool holds for request `r` exactly the content `o`, in at most one valid page;
* `Inv n s M` : between two operations the cache stores the map `M`; every page is free and invalid, or valid and
  referred to by the slot of its request;
* `Image n p M r v` : what a power failure leaves while `r` is changed from `M r` to `v`; the only image with two
  valid pages is the one in which the new page is published and the old one not yet freed (`Twin`);
* `rebuild_slot_*`, `rebuild_free` : what the scan of `cbsInit` makes of the metas.
-/

namespace PmemProgram.Cbs
open PmemProgram.Lib

/-! ## Words, slots and the free list -/

/-- The request ids of the disk. -/
def InRange (r : Nat) : Prop := r < diskBlockNum * blockPageNum

theorem InRange.lt {r : Nat} (h : InRange r) : r < 2 ^ 30 := h

theorem InRange.block {r : Nat} (h : InRange r) : ¬ r >>> reqBlock > diskBlockNum := by
  rw [Nat.shiftRight_eq_div_pow]
  have := h.lt
  simp only [reqBlock, diskBlockNum]
  omega

theorem ofWord_zero : Meta.ofWord 0 = ⟨false, 0, 0⟩ := by simp [Meta.ofWord]

/-- The word `req_id<<32|sn<<1|1` read back. -/
theorem ofWord_pack {r : Nat} (sn : Nat) (hr : r < 2 ^ 32) (hs : sn < 2 ^ 31) :
    Meta.ofWord (r <<< 32 % 2 ^ 64 ||| sn <<< 1 ||| 1) = ⟨true, sn, r⟩ := by
  have h₁ : r <<< 32 % 2 ^ 64 = r <<< 32 := Nat.mod_eq_of_lt (by rw [Nat.shiftLeft_eq]; omega)
  have h₂ : sn <<< 1 ||| 1 = sn <<< 1 + 1 := (Nat.shiftLeft_add_eq_or_of_lt (by omega) sn).symm
  have h₃ : sn <<< 1 + 1 < 2 ^ 32 := by rw [Nat.shiftLeft_eq]; omega
  rw [h₁, Nat.or_assoc, h₂, ← Nat.shiftLeft_add_eq_or_of_lt h₃]
  simp only [Nat.shiftLeft_eq, Meta.ofWord, Nat.testBit_zero, Meta.mk.injEq, decide_eq_true_eq]
  omega

theorem ofWord_new {r : Nat} (hr : r < 2 ^ 32) : Meta.ofWord (r <<< 32 % 2 ^ 64 ||| 1) = ⟨true, 0, r⟩ := by
  simpa using ofWord_pack 0 hr (by omega)

theorem ofWord_shadow {r : Nat} (hr : r < 2 ^ 32) : Meta.ofWord (r <<< 32 % 2 ^ 64 ||| 1 <<< 1 ||| 1) = ⟨true, 1, r⟩ :=
  ofWord_pack 1 hr (by omega)

theorem pageIdFromMeta_eq {i n : Nat} (hi : i < n) (hn : n < 2 ^ 32) : pageIdFromMeta i = i + 1 :=
  Nat.mod_eq_of_lt (by omega)

/-- Block and page determine the request. -/
theorem req_ext {r q : Nat} (h₁ : r >>> reqBlock = q >>> reqBlock) (h₂ : r &&& reqPage = q &&& reqPage) : r = q := by
  rw [Nat.shiftRight_eq_div_pow, Nat.shiftRight_eq_div_pow, reqBlock] at h₁
  rw [reqPage, show 0x3ff = 2 ^ 10 - 1 from rfl, Nat.and_two_pow_sub_one_eq_mod, Nat.and_two_pow_sub_one_eq_mod] at h₂
  omega

theorem slot_setSlot (d : Dram) (r q : Nat) (f : BlockPage → BlockPage) :
    (d.setSlot r f).slot q = if q = r then f (d.slot r) else d.slot q := by
  unfold Dram.setSlot
  by_cases hq : q = r
  · subst hq
    simp [Dram.slot]
  · rw [if_neg hq]
    by_cases h₁ : q >>> reqBlock = r >>> reqBlock
    · have h₂ : q &&& reqPage ≠ r &&& reqPage := fun h₂ => hq (req_ext h₁ h₂)
      simp [Dram.slot, h₁, h₂]
    · simp [Dram.slot, h₁]

@[simp] theorem slot_setSlot_self (d : Dram) (r : Nat) (f : BlockPage → BlockPage) :
    (d.setSlot r f).slot r = f (d.slot r) := by rw [slot_setSlot, if_pos rfl]

@[simp] theorem freeNum_setSlot (d : Dram) (r : Nat) (f : BlockPage → BlockPage) :
    (d.setSlot r f).freeNum = d.freeNum := rfl

@[simp] theorem freeList_setSlot (d : Dram) (r : Nat) (f : BlockPage → BlockPage) :
    (d.setSlot r f).freeList = d.freeList := rfl

@[simp] theorem slot_countPage (d : Dram) (r q : Nat) : (d.countPage r).slot q = d.slot q := rfl

@[simp] theorem freeNum_countPage (d : Dram) (r : Nat) : (d.countPage r).freeNum = d.freeNum := rfl

@[simp] theorem freeList_countPage (d : Dram) (r : Nat) : (d.countPage r).freeList = d.freeList := rfl

@[simp] theorem slot_setFree (d : Dram) (j i q : Nat) : (d.setFree j i).slot q = d.slot q := rfl

@[simp] theorem freeNum_setFree (d : Dram) (j i : Nat) : (d.setFree j i).freeNum = d.freeNum := rfl

@[simp] theorem freeList_setFree (d : Dram) (j i : Nat) :
    (d.setFree j i).freeList = Function.update d.freeList j i := rfl

@[simp] theorem slot_setFreeNum (d : Dram) (k q : Nat) : (d.setFreeNum k).slot q = d.slot q := rfl

@[simp] theorem freeNum_setFreeNum (d : Dram) (k : Nat) : (d.setFreeNum k).freeNum = k := rfl

@[simp] theorem freeList_setFreeNum (d : Dram) (k : Nat) : (d.setFreeNum k).freeList = d.freeList := rfl

/-! ## The pages of a request in the pool -/

/-- Page `i` of the pool is valid and belongs to request `r`. -/
def Valid (n : Nat) (p : Pool) (r i : Nat) : Prop := i < n ∧ (p.metas i).valid = true ∧ (p.metas i).reqId = r

/-- The pool holds for `r` exactly `o`, in at most one valid page. -/
def Sole (n : Nat) (p : Pool) (r : Nat) : Option Page → Prop
  | none => ∀ i, ¬ Valid n p r i
  | some c => ∃ i, Valid n p r i ∧ p.pages i = c ∧ ∀ j, Valid n p r j → j = i

/-- The pool holds for `r` two valid pages, with the contents `c` and `c'`. -/
def Twin (n : Nat) (p : Pool) (r : Nat) (c c' : Page) : Prop :=
  ∃ i j, i ≠ j ∧ Valid n p r i ∧ p.pages i = c ∧ Valid n p r j ∧ p.pages j = c' ∧ ∀ k, Valid n p r k → k = i ∨ k = j

/-- The pool between two operations stores the map `M`. -/
structure Stored (n : Nat) (p : Pool) (M : Nat → Option Page) : Prop where
  magic : p.magicNumber = magicNumber
  range : ∀ i < n, (p.metas i).valid = true → InRange (p.metas i).reqId
  sole : ∀ r, InRange r → Sole n p r (M r)

/-- What a failure leaves while request `r` is changed from `M r` to `v`. -/
structure Image (n : Nat) (p : Pool) (M : Nat → Option Page) (r : Nat) (v : Option Page) : Prop where
  magic : p.magicNumber = magicNumber
  range : ∀ i < n, (p.metas i).valid = true → InRange (p.metas i).reqId
  other : ∀ q, InRange q → q ≠ r → Sole n p q (M q)
  this : Sole n p r (M r) ∨ Sole n p r v ∨ ∃ c c', M r = some c ∧ v = some c' ∧ Twin n p r c c'

theorem Stored.image {n : Nat} {p : Pool} {M : Nat → Option Page} (h : Stored n p M) {r : Nat} (hr : InRange r)
    (v : Option Page) : Image n p M r v :=
  ⟨h.magic, h.range, fun q hq _ => h.sole q hq, Or.inl (h.sole r hr)⟩

/-- Two pools with the same valid pages and the same contents in them hold the same. -/
theorem Sole.congr {n : Nat} {p q : Pool} {r : Nat} {o : Option Page} (h : Sole n p r o)
    (hv : ∀ i, Valid n q r i ↔ Valid n p r i) (hc : ∀ i, Valid n p r i → q.pages i = p.pages i) : Sole n q r o := by
  cases o with
  | none => exact fun i hi => h i ((hv i).mp hi)
  | some c =>
    obtain ⟨i, hi, rfl, hj⟩ := h
    exact ⟨i, (hv i).mpr hi, hc i hi, fun j hj' => hj j ((hv j).mp hj')⟩

/-! ## The invariant between two operations -/

/-- The slot refers to page `i` and to no other. -/
def Refers (b : BlockPage) (i : Nat) : Prop := b = ⟨i + 1, 0⟩ ∨ b = ⟨0, i + 1⟩

theorem Refers.inj {b : BlockPage} {i j : Nat} (hi : Refers b i) (hj : Refers b j) : i = j := by
  rcases hi with rfl | rfl <;> rcases hj with h | h <;> simp at h <;> omega

/-- Between two operations the cache stores the map `M`. -/
structure Inv (n : Nat) (s : St) (M : Nat → Option Page) : Prop extends Stored n s.pool M where
  clean : s.dirty = fun _ => none
  slotNone : ∀ r, InRange r → M r = none → s.dram.slot r = ⟨0, 0⟩
  slotSome : ∀ i < n, (s.pool.metas i).valid = true → Refers (s.dram.slot (s.pool.metas i).reqId) i
  free : ∀ j < s.dram.freeNum, s.dram.freeList j < n ∧ (s.pool.metas (s.dram.freeList j)).valid = false
  freeInj : ∀ j < s.dram.freeNum, ∀ k < s.dram.freeNum, s.dram.freeList j = s.dram.freeList k → j = k
  freeAll : ∀ i < n, (s.pool.metas i).valid = false → ∃ j < s.dram.freeNum, s.dram.freeList j = i

theorem Inv.meta {n : Nat} {s : St} {M : Nat → Option Page} (h : Inv n s M) (i : Nat) : s.meta i = s.pool.metas i := by
  rw [St.meta, h.clean]
  rfl

/-- The page of a stored request. -/
theorem Inv.page {n : Nat} {s : St} {M : Nat → Option Page} (h : Inv n s M) {r : Nat} (hr : InRange r) {c : Page}
    (hc : M r = some c) :
    ∃ i, Valid n s.pool r i ∧ s.pool.pages i = c ∧ Refers (s.dram.slot r) i ∧ ∀ j, Valid n s.pool r j → j = i := by
  have hsole := h.sole r hr
  rw [hc] at hsole
  obtain ⟨i, hi, hp, hj⟩ := hsole
  refine ⟨i, hi, hp, ?_, hj⟩
  rw [← hi.2.2]
  exact h.slotSome i hi.1 hi.2.1

theorem readReq_refers {s : St} {r i : Nat} (hr : InRange r) (h : Refers (s.dram.slot r) i) : readReq s r = some i := by
  rw [readReq, if_neg hr.block]
  rcases h with h | h <;> simp [h, pageMetaFromId]

theorem readReq_none {s : St} {r : Nat} (hr : InRange r) (h : s.dram.slot r = ⟨0, 0⟩) : readReq s r = none := by
  rw [readReq, if_neg hr.block]
  simp [h]

/-- **Between operations `read_req` reads the map.** -/
theorem Inv.read {n : Nat} {s : St} {M : Nat → Option Page} (h : Inv n s M) {r : Nat} (hr : InRange r) :
    readContent s r = M r := by
  unfold readContent
  cases hM : M r with
  | none => rw [readReq_none hr (h.slotNone r hr hM)]; rfl
  | some c =>
    obtain ⟨i, _, hp, href, _⟩ := h.page hr hM
    rw [readReq_refers hr href, Option.map_some, hp]

/-! ## The scan of `cbs_init` -/

theorem rebuild_succ (metas : Nat → Meta) (n : Nat) (fl : Nat → Nat) :
    rebuild metas (n + 1) fl = rebuildStep metas (rebuild metas n fl) n := by
  simp [rebuild, List.range_succ]

/-- One round seen from one slot. -/
theorem rebuildStep_slot (metas : Nat → Meta) (d : Dram) (i r : Nat) :
    (rebuildStep metas d i).slot r =
      if (metas i).valid = true ∧ (metas i).reqId = r then { d.slot r with pageId1 := pageIdFromMeta i }
      else d.slot r := by
  unfold rebuildStep
  by_cases hv : (metas i).valid = true
  · have hv' : ¬ (metas i).valid = false := by simp [hv]
    rw [if_neg hv']
    split_ifs with h₁ h₂ h₂
    · rw [slot_countPage, slot_setSlot, if_pos h₂.2.symm, h₂.2]
    · rw [slot_countPage, slot_setSlot, if_neg (fun e => h₂ ⟨hv, e.symm⟩)]
    · rw [slot_setSlot, if_pos h₂.2.symm, h₂.2]
    · rw [slot_setSlot, if_neg (fun e => h₂ ⟨hv, e.symm⟩)]
  · rw [if_pos (by simpa using hv), if_neg (fun h => hv h.1)]
    rfl

/-- A request without a valid page gets no page. -/
theorem rebuild_slot_none {metas : Nat → Meta} {n r : Nat} (fl : Nat → Nat)
    (h : ∀ i < n, ¬ ((metas i).valid = true ∧ (metas i).reqId = r)) : (rebuild metas n fl).slot r = ⟨0, 0⟩ := by
  induction n with
  | zero => rfl
  | succ n ih =>
    rw [rebuild_succ, rebuildStep_slot, if_neg (h n (by omega)), ih (fun i hi => h i (by omega))]

/-- **The last valid page in the scan wins**, whatever its sequence number. -/
theorem rebuild_slot_last {metas : Nat → Meta} {n r i : Nat} (fl : Nat → Nat) (hi : i < n) (hn : n < 2 ^ 32)
    (hv : (metas i).valid = true ∧ (metas i).reqId = r)
    (h : ∀ j, i < j → j < n → ¬ ((metas j).valid = true ∧ (metas j).reqId = r)) :
    (rebuild metas n fl).slot r = ⟨i + 1, 0⟩ := by
  have hzero : ∀ m, ((rebuild metas m fl).slot r).pageId2 = 0 := by
    intro m
    induction m with
    | zero => rfl
    | succ m ih => rw [rebuild_succ, rebuildStep_slot]; split_ifs <;> exact ih
  induction n with
  | zero => omega
  | succ n ih =>
    rw [rebuild_succ, rebuildStep_slot]
    by_cases hin : i = n
    · subst hin
      rw [if_pos hv, pageIdFromMeta_eq (Nat.lt_succ_self i) hn]
      have := hzero i
      cases hb : (rebuild metas i fl).slot r
      simp_all
    · rw [if_neg (h n (by omega) (by omega))]
      exact ih (by omega) (by omega) fun j h₁ h₂ => h j h₁ (by omega)

/-- The free list after the scan: the positions of the invalid metas in increasing order. -/
structure FreeScan (metas : Nat → Meta) (n : Nat) (d : Dram) : Prop where
  free : ∀ j < d.freeNum, d.freeList j < n ∧ (metas (d.freeList j)).valid = false
  mono : ∀ j k, j < k → k < d.freeNum → d.freeList j < d.freeList k
  all : ∀ i < n, (metas i).valid = false → ∃ j < d.freeNum, d.freeList j = i

theorem rebuild_free (metas : Nat → Meta) (n : Nat) (fl : Nat → Nat) : FreeScan metas n (rebuild metas n fl) := by
  induction n with
  | zero => exact ⟨fun j hj => absurd hj (Nat.not_lt_zero j), fun j k _ hk => absurd hk (Nat.not_lt_zero k),
      fun i hi => absurd hi (Nat.not_lt_zero i)⟩
  | succ n ih =>
    rw [rebuild_succ]
    generalize rebuild metas n fl = d at ih
    cases hv : (metas n).valid with
    | false =>
      rw [rebuildStep, if_pos hv]
      refine ⟨fun j hj => ?_, fun j k hjk hk => ?_, fun i hi hiv => ?_⟩
      · simp only [freeNum_setFreeNum, freeList_setFreeNum, freeList_setFree] at hj ⊢
        rcases Nat.lt_succ_iff_lt_or_eq.mp hj with hj | rfl
        · rw [Function.update_of_ne (by omega)]
          exact ⟨by have := (ih.free j hj).1; omega, (ih.free j hj).2⟩
        · rw [Function.update_self]
          exact ⟨Nat.lt_succ_self n, hv⟩
      · simp only [freeNum_setFreeNum, freeList_setFreeNum, freeList_setFree] at hk ⊢
        rcases Nat.lt_succ_iff_lt_or_eq.mp hk with hk | rfl
        · rw [Function.update_of_ne (by omega), Function.update_of_ne (by omega)]
          exact ih.mono j k hjk hk
        · rw [Function.update_self, Function.update_of_ne (by omega)]
          exact (ih.free j hjk).1
      · simp only [freeNum_setFreeNum, freeList_setFreeNum, freeList_setFree]
        rcases Nat.lt_succ_iff_lt_or_eq.mp hi with hi | rfl
        · obtain ⟨j, hj, rfl⟩ := ih.all i hi hiv
          exact ⟨j, by omega, by rw [Function.update_of_ne (by omega)]⟩
        · exact ⟨d.freeNum, Nat.lt_succ_self _, Function.update_self ..⟩
    | true =>
      have hkeep : (rebuildStep metas d n).freeNum = d.freeNum ∧ (rebuildStep metas d n).freeList = d.freeList := by
        rw [rebuildStep, if_neg (by simp [hv])]
        split_ifs <;> exact ⟨rfl, rfl⟩
      refine ⟨fun j hj => ?_, fun j k hjk hk => ?_, fun i hi hiv => ?_⟩
      · rw [hkeep.1] at hj
        rw [hkeep.2]
        exact ⟨by have := (ih.free j hj).1; omega, (ih.free j hj).2⟩
      · rw [hkeep.1] at hk
        rw [hkeep.2]
        exact ih.mono j k hjk hk
      · rw [hkeep.1, hkeep.2]
        rcases Nat.lt_succ_iff_lt_or_eq.mp hi with hi | rfl
        · exact ih.all i hi hiv
        · rw [hv] at hiv
          cases hiv

/-! ## Restart -/

/-- `cbs_init` on a pool with the magic number, as a function. -/
def restarted (base n : Nat) (p : Pool) (fl : Nat → Nat) : St :=
  ⟨p, fun _ => none, rebuild p.metas n fl, p.pageOffset + base⟩

theorem exec_cbsInit {base n : Nat} {s : St} (hm : s.pool.magicNumber = magicNumber) (hd : s.dirty = fun _ => none) :
    (cbsInit base n).exec s = some (0, restarted base n s.pool s.dram.freeList) := by
  have hmeta : s.meta = s.pool.metas := by funext i; rw [St.meta, hd]; rfl
  simp [cbsInit, Cmd.exec, Cmd.bind_def, Cmd.bind, Cmd.succeeds, Cmd.get, Cmd.modify, Cmd.pure_def, hm, restarted,
    hmeta, ← hd]

theorem exec_reboot {base n : Nat} {s : St} (hm : s.pool.magicNumber = magicNumber) :
    (cbsInit base n).exec s.reboot = some (0, restarted base n s.pool fun _ => 0) :=
  exec_cbsInit hm rfl

theorem restarted_read_none {base n : Nat} {p : Pool} {fl : Nat → Nat} {r : Nat} (hr : InRange r)
    (h : ∀ i, ¬ Valid n p r i) : readContent (restarted base n p fl) r = none := by
  rw [readContent, readReq_none hr (rebuild_slot_none fl fun i hi hv => h i ⟨hi, hv.1, hv.2⟩)]
  rfl

theorem restarted_read_last {base n : Nat} {p : Pool} {fl : Nat → Nat} {r i : Nat} (hn : n < 2 ^ 32) (hr : InRange r)
    (hi : Valid n p r i) (h : ∀ j, i < j → ¬ Valid n p r j) :
    readContent (restarted base n p fl) r = some (p.pages i) := by
  have hslot : (restarted base n p fl).dram.slot r = ⟨i + 1, 0⟩ :=
    rebuild_slot_last fl hi.1 hn hi.2 fun j h₁ h₂ hv => h j h₁ ⟨h₂, hv.1, hv.2⟩
  rw [readContent, readReq_refers hr (Or.inl hslot)]
  rfl

theorem Sole.restarted {base n : Nat} {p : Pool} {fl : Nat → Nat} {r : Nat} {o : Option Page} (hn : n < 2 ^ 32)
    (hr : InRange r) (h : Sole n p r o) : readContent (restarted base n p fl) r = o := by
  cases o with
  | none => exact restarted_read_none hr h
  | some c =>
    obtain ⟨i, hi, rfl, hj⟩ := h
    exact restarted_read_last hn hr hi fun j hlt hv => by have := hj j hv; omega

/-- With two valid pages the later one in the scan is read. -/
theorem Twin.restarted {base n : Nat} {p : Pool} {fl : Nat → Nat} {r : Nat} {c c' : Page} (hn : n < 2 ^ 32)
    (hr : InRange r) (h : Twin n p r c c') : readContent (restarted base n p fl) r = some c ∨
      readContent (restarted base n p fl) r = some c' := by
  obtain ⟨i, j, hij, hi, rfl, hj, rfl, hk⟩ := h
  rcases Nat.lt_or_gt_of_ne hij with hlt | hlt
  · refine Or.inr (restarted_read_last hn hr hj fun k hjk hv => ?_)
    rcases hk k hv with rfl | rfl <;> omega
  · refine Or.inl (restarted_read_last hn hr hi fun k hik hv => ?_)
    rcases hk k hv with rfl | rfl <;> omega

/-- A restart on a pool that stores `M` gives back the invariant. -/
theorem Stored.restarted {base n : Nat} {p : Pool} {M : Nat → Option Page} (h : Stored n p M) (hn : n < 2 ^ 32)
    (fl : Nat → Nat) : Inv n (restarted base n p fl) M where
  toStored := h
  clean := rfl
  slotNone r hr hM := by
    have hs := h.sole r hr
    rw [hM] at hs
    exact rebuild_slot_none fl fun i hi hv => hs i ⟨hi, hv.1, hv.2⟩
  slotSome i hi hv := by
    have hs := h.sole _ (h.range i hi hv)
    have hval : Valid n p (p.metas i).reqId i := ⟨hi, hv, rfl⟩
    refine Or.inl (rebuild_slot_last fl hi hn ⟨hv, rfl⟩ fun j hij hjn hjv => ?_)
    cases hM : M (p.metas i).reqId with
    | none => rw [hM] at hs; exact hs i hval
    | some c =>
      rw [hM] at hs
      obtain ⟨k, _, _, hk⟩ := hs
      have h₁ := hk i hval
      have h₂ := hk j ⟨hjn, hjv.1, hjv.2⟩
      omega
  free := (rebuild_free p.metas n fl).free
  freeInj j hj k hk he := by
    rcases Nat.lt_trichotomy j k with hlt | rfl | hlt
    · have := (rebuild_free p.metas n fl).mono j k hlt hk
      simp only [Cbs.restarted] at he
      omega
    · rfl
    · have := (rebuild_free p.metas n fl).mono k j hlt hj
      simp only [Cbs.restarted] at he
      omega
  freeAll := (rebuild_free p.metas n fl).all

end PmemProgram.Cbs
