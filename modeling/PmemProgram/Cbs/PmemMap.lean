import PmemProgram.Cbs.PmemCrash

/-!
# The page cache as a map, and its pages as a partition

* `cache_is_map` : without failures `read_req` returns the page of the last `write_req` since the last `delete_page`;
* `Partition` : every page is free, or referred to by one field of one slot;
* `pages_partitioned` : so it is in every state, over any number of failures, as long as no restart finds two valid
  pages of one request; such a restart forgets one of them (`restart_leaks`).
-/

namespace PmemProgram.Cbs
open PmemProgram.Lib

/-! ## A map -/

/-- A pool of `n` pages is initialised and the operations `ops` are performed. -/
inductive Session (n : Nat) : List Op → St → Prop
  | init {base : Nat} {s t : St} {v : Int} : s.pool.magicNumber ≠ magicNumber →
      Cmd.Run Evicts (fun _ k => k = 0) (cbsInit base n) s v t → Session n [] t
  | op {ops : List Op} {s t : St} {op : Op} : Session n ops s → op.Allowed s → op.Run s t → Session n (ops ++ [op]) t

/-- What the last operation on `r` leaves. -/
def lastValue (ops : List Op) (r : Nat) : Option Page := (ops.filter fun op => op.reqId = r).getLast?.bind Op.value

theorem lastValue_concat (ops : List Op) (op : Op) :
    lastValue (ops ++ [op]) = Function.update (lastValue ops) op.reqId op.value := by
  funext r
  unfold lastValue
  rw [List.filter_append]
  by_cases hr : op.reqId = r
  · subst hr
    simp
  · simp [hr, Ne.symm hr]

theorem Session.inv {n : Nat} (hn : n < 2 ^ 32) {ops : List Op} {s : St} (h : Session n ops s) :
    Inv n s (lastValue ops) := by
  induction h with
  | init hm hr => exact (Cmd.wp_run (cbsInit_fresh hm) hr).2
  | op _ ha hr ih =>
    rw [lastValue_concat]
    exact (Op.spec hn ih ha).1 _ hr

/-- The slots of the other requests stay. -/
def SameSlots (r : Nat) (s t : St) : Prop := ∀ q, q ≠ r → t.dram.slot q = s.dram.slot q

theorem SameSlots.refl (r : Nat) (s : St) : SameSlots r s s := fun _ _ => rfl

theorem SameSlots.trans (r : Nat) (s t u : St) (h₁ : SameSlots r s t) (h₂ : SameSlots r t u) : SameSlots r s u :=
  fun q hq => (h₂ q hq).trans (h₁ q hq)

theorem sameSlots_evicts {r : Nat} (s t : St) (h : Evicts s t) : SameSlots r s t := by
  induction h with
  | refl => exact .refl r s
  | tail _ he ih =>
    obtain ⟨i, m, -, rfl⟩ := he
    exact ih

section
variable {r : Nat}

theorem moves_get {α : Type} (f : St → α) : (Cmd.get f : Cmd Unit St α).Moves (SameSlots r) :=
  Cmd.moves_get (SameSlots.refl r) f

theorem moves_storeMeta (i w : Nat) : (storeMeta i w).Moves (SameSlots r) := Cmd.moves_step fun _ _ _ => rfl

theorem moves_dirtyMeta (i : Nat) (f : Meta → Meta) : (dirtyMeta i f).Moves (SameSlots r) :=
  Cmd.moves_modify fun _ _ _ => rfl

theorem moves_setDram {f : Dram → Dram} (h : ∀ d q, q ≠ r → (f d).slot q = d.slot q) :
    (Cmd.modify fun s => s.setDram f : Cmd Unit St Unit).Moves (SameSlots r) :=
  Cmd.moves_modify fun s q hq => h s.dram q hq

theorem moves_freeTop (k : Nat) : (freeTop k).Moves (SameSlots r) :=
  Cmd.moves_bind (Cmd.moves_check _) fun _ => moves_get _

theorem moves_copyPage (i : Nat) (c : Page) : (copyPage i c).Moves (SameSlots r) := Cmd.moves_pieces fun _ _ _ => rfl

theorem moves_resetSn (i : Nat) : (resetSn i).Moves (SameSlots r) :=
  Cmd.moves_bind (moves_get _) fun _ =>
    Cmd.moves_ite (Cmd.moves_bind (moves_dirtyMeta _ _) fun _ => Cmd.moves_step fun _ _ _ => rfl) (Cmd.moves_pure _)

theorem moves_writeNew (c : Page) (k : Nat) : (writeNew r c k).Moves (SameSlots r) := by
  refine Cmd.moves_bind (moves_freeTop k) fun i => Cmd.moves_bind (moves_copyPage i c) fun _ =>
    Cmd.moves_bind (moves_storeMeta _ _) fun _ => moves_setDram fun d q hq => ?_
  simp [slot_setSlot, hq]

theorem moves_writeShadow (c : Page) (k i : Nat) : (writeShadow r c k i).Moves (SameSlots r) := by
  refine Cmd.moves_bind (moves_resetSn i) fun _ => Cmd.moves_bind (moves_freeTop k) fun j =>
    Cmd.moves_bind (moves_copyPage j c) fun _ => Cmd.moves_bind (moves_storeMeta _ _) fun _ =>
    Cmd.moves_bind (moves_setDram fun d q hq => ?_) fun _ => Cmd.moves_bind (moves_storeMeta _ _) fun _ =>
    moves_setDram fun d q hq => ?_
  · simp [slot_setSlot, hq]
  · simp [slot_setSlot, hq]

theorem moves_writeTwo (c : Page) (k i j : Nat) : (writeTwo r c k i j).Moves (SameSlots r) := by
  refine Cmd.moves_bind (moves_get _) fun sn1 => Cmd.moves_bind (moves_get _) fun sn2 => Cmd.moves_ite ?_ ?_
  · refine Cmd.moves_bind (moves_copyPage i c) fun _ => Cmd.moves_bind (moves_dirtyMeta _ _) fun _ =>
      Cmd.moves_bind (moves_storeMeta _ _) fun _ => Cmd.moves_bind (moves_storeMeta _ _) fun _ =>
      moves_setDram fun d q hq => ?_
    simp [slot_setSlot, hq]
  · refine Cmd.moves_bind (moves_copyPage j c) fun _ => Cmd.moves_bind (moves_dirtyMeta _ _) fun _ =>
      Cmd.moves_bind (moves_storeMeta _ _) fun _ => Cmd.moves_bind (moves_storeMeta _ _) fun _ =>
      moves_setDram fun d q hq => ?_
    simp [slot_setSlot, hq]

theorem moves_writeReq (r : Nat) (c : Page) : (writeReq r c).Moves (SameSlots r) := by
  refine Cmd.moves_bind (moves_get _) fun k => Cmd.moves_ite (Cmd.moves_pure _) ?_
  refine Cmd.moves_bind (moves_get _) fun slot => Cmd.moves_ite ?_ (Cmd.moves_ite ?_ (Cmd.moves_ite ?_ ?_))
  · exact Cmd.moves_bind (moves_writeNew c k) fun _ => Cmd.moves_pure _
  · exact Cmd.moves_bind (moves_writeShadow c k _) fun _ => Cmd.moves_pure _
  · exact Cmd.moves_bind (moves_writeShadow c k _) fun _ => Cmd.moves_pure _
  · exact Cmd.moves_bind (moves_writeTwo c k _ _) fun _ => Cmd.moves_pure _

theorem moves_deletePage (r : Nat) : (deletePage r).Moves (SameSlots r) := by
  have hone : ∀ k i f, (deleteOne r k i f).Moves (SameSlots r) := fun k i f => by
    refine Cmd.moves_bind (moves_setDram fun d q hq => ?_) fun _ => Cmd.moves_bind (moves_storeMeta _ _) fun _ =>
      moves_setDram fun d q hq => rfl
    simp [slot_setSlot, hq]
  have htwo : ∀ k i j, (deleteTwo r k i j).Moves (SameSlots r) := fun k i j => by
    have hlast : (Cmd.modify fun s => s.setDram fun d => (((d.setSlot r fun _ => ⟨0, 0⟩).setFree k i).setFree
        (k + 1) j).setFreeNum (k + 2) : Cmd Unit St Unit).Moves (SameSlots r) := by
      refine moves_setDram fun d q hq => ?_
      simp [slot_setSlot, hq]
    refine Cmd.moves_bind (moves_get _) fun sn1 => Cmd.moves_bind (moves_get _) fun sn2 => Cmd.moves_ite ?_ ?_
    · exact Cmd.moves_bind (moves_storeMeta _ _) fun _ => Cmd.moves_bind (moves_storeMeta _ _) fun _ => hlast
    · exact Cmd.moves_bind (moves_storeMeta _ _) fun _ => Cmd.moves_bind (moves_storeMeta _ _) fun _ => hlast
  refine Cmd.moves_ite (Cmd.moves_pure _) (Cmd.moves_bind (moves_get _) fun slot => Cmd.moves_bind (moves_get _) fun k =>
    Cmd.moves_ite (hone _ _ _) (Cmd.moves_ite (hone _ _ _) (Cmd.moves_ite (htwo _ _ _) (Cmd.moves_pure _))))

end

theorem Op.sameSlots {op : Op} {s t : St} (h : op.Run s t) : SameSlots op.reqId s t := by
  cases op with
  | write r c =>
    obtain ⟨v, h⟩ := h
    exact h.moves (SameSlots.refl r) (SameSlots.trans r) sameSlots_evicts (moves_writeReq r c)
  | delete r => exact Cmd.Run.moves (SameSlots.refl r) (SameSlots.trans r) sameSlots_evicts h (moves_deletePage r)

theorem total_writeReq (r : Nat) (c : Page) : (writeReq r c).Total := by
  have hcopy : ∀ i, (copyPage i c).Total := fun i => Cmd.total_pieces _
  have hstore : ∀ i w, (storeMeta i w).Total := fun i w => Cmd.total_step _
  have htop : ∀ k, (freeTop k).Total := fun k => Cmd.total_bind (Cmd.total_check _) fun _ => Cmd.total_get _
  have hreset : ∀ i, (resetSn i).Total := fun i => Cmd.total_bind (Cmd.total_get _) fun _ =>
    Cmd.total_ite (Cmd.total_bind (Cmd.total_modify _) fun _ => Cmd.total_step _) (Cmd.total_pure _)
  have hshadow : ∀ k i, (writeShadow r c k i).Total := fun k i => Cmd.total_bind (hreset i) fun _ =>
    Cmd.total_bind (htop k) fun j => Cmd.total_bind (hcopy j) fun _ => Cmd.total_bind (hstore _ _) fun _ =>
    Cmd.total_bind (Cmd.total_modify _) fun _ => Cmd.total_bind (hstore _ _) fun _ => Cmd.total_modify _
  have htwo : ∀ k i j, (writeTwo r c k i j).Total := fun k i j => Cmd.total_bind (Cmd.total_get _) fun _ =>
    Cmd.total_bind (Cmd.total_get _) fun _ => Cmd.total_ite
      (Cmd.total_bind (hcopy i) fun _ => Cmd.total_bind (Cmd.total_modify _) fun _ => Cmd.total_bind (hstore _ _) fun _ =>
        Cmd.total_bind (hstore _ _) fun _ => Cmd.total_modify _)
      (Cmd.total_bind (hcopy j) fun _ => Cmd.total_bind (Cmd.total_modify _) fun _ => Cmd.total_bind (hstore _ _) fun _ =>
        Cmd.total_bind (hstore _ _) fun _ => Cmd.total_modify _)
  refine Cmd.total_bind (Cmd.total_get _) fun k => Cmd.total_ite (Cmd.total_pure _) ?_
  refine Cmd.total_bind (Cmd.total_get _) fun slot => Cmd.total_ite ?_ (Cmd.total_ite ?_ (Cmd.total_ite ?_ ?_))
  · exact Cmd.total_bind (Cmd.total_bind (htop k) fun i => Cmd.total_bind (hcopy i) fun _ =>
      Cmd.total_bind (hstore _ _) fun _ => Cmd.total_modify _) fun _ => Cmd.total_pure _
  · exact Cmd.total_bind (hshadow _ _) fun _ => Cmd.total_pure _
  · exact Cmd.total_bind (hshadow _ _) fun _ => Cmd.total_pure _
  · exact Cmd.total_bind (htwo _ _ _) fun _ => Cmd.total_pure _

theorem total_deletePage (r : Nat) : (deletePage r).Total := by
  have hstore : ∀ i w, (storeMeta i w).Total := fun i w => Cmd.total_step _
  have hone : ∀ k i f, (deleteOne r k i f).Total := fun k i f => Cmd.total_bind (Cmd.total_modify _) fun _ =>
    Cmd.total_bind (hstore _ _) fun _ => Cmd.total_modify _
  have htwo : ∀ k i j, (deleteTwo r k i j).Total := fun k i j => Cmd.total_bind (Cmd.total_get _) fun _ =>
    Cmd.total_bind (Cmd.total_get _) fun _ => Cmd.total_ite
      (Cmd.total_bind (hstore _ _) fun _ => Cmd.total_bind (hstore _ _) fun _ => Cmd.total_modify _)
      (Cmd.total_bind (hstore _ _) fun _ => Cmd.total_bind (hstore _ _) fun _ => Cmd.total_modify _)
  refine Cmd.total_ite (Cmd.total_pure _) (Cmd.total_bind (Cmd.total_get _) fun slot =>
    Cmd.total_bind (Cmd.total_get _) fun k => Cmd.total_ite (hone _ _ _) (Cmd.total_ite (hone _ _ _)
    (Cmd.total_ite (htwo _ _ _) (Cmd.total_pure _))))

theorem cwp_returns {α : Type} {I : St → Prop} {c : Cmd Unit St α} {Q : α → St → Prop} {s : St} (h : cwp I c Q s)
    (hc : c.Total) : ∃ a t, Cmd.Run Evicts (fun _ k => k = 0) c s a t := by
  obtain ⟨a, t, ht, -⟩ := Cmd.wp_exec (R := Evicts) (A := fun _ k => k = 0) (fun _ => .refl) (fun _ => rfl) h hc
  exact ⟨a, t, exec_runs ht⟩

/-- An allowed operation returns. -/
theorem Op.returns {n : Nat} (hn : n < 2 ^ 32) {s : St} {M : Nat → Option Page} (h : Inv n s M) {op : Op}
    (ha : op.Allowed s) : ∃ t, op.Run s t := by
  cases op with
  | write r c =>
    obtain ⟨v, t, ht⟩ := cwp_returns (writeReq_spec (c := c) hn h ha.1 ha.2) (total_writeReq r c)
    exact ⟨t, v, ht⟩
  | delete r =>
    obtain ⟨_, t, ht⟩ := cwp_returns (deletePage_spec h ha.1) (total_deletePage r)
    exact ⟨t, ht⟩

/-- Between operations what `read_req` returns depends on the slot only. -/
theorem Inv.readReq_slot {n : Nat} {s t : St} {M : Nat → Option Page} (hs : Inv n s M) {q : Nat} (hq : InRange q)
    (hslot : t.dram.slot q = s.dram.slot q) : readReq t q = readReq s q := by
  cases hM : M q with
  | none =>
    have hzero := hs.slotNone q hq hM
    rw [readReq_none hq hzero, readReq_none hq (hslot.trans hzero)]
  | some c =>
    obtain ⟨i, -, -, href, -⟩ := hs.page hq hM
    rw [readReq_refers hq href, readReq_refers hq (by rw [hslot]; exact href)]

/-- **The cache is a map.** After any sequence of operations on a new pool, `read_req` returns a page with the content
of the last write since the last delete, or nothing; every further operation returns, and changes neither the page nor
the content that another request reads. -/
theorem cache_is_map {n : Nat} (hn : n < 2 ^ 32) {ops : List Op} {s : St} (h : Session n ops s) :
    (∀ r, InRange r → readContent s r = lastValue ops r) ∧
      ∀ op : Op, op.Allowed s → (∃ t, op.Run s t) ∧ ∀ t, op.Run s t → ∀ q, InRange q → q ≠ op.reqId →
        readReq t q = readReq s q ∧ readContent t q = readContent s q := by
  have hi := h.inv hn
  refine ⟨fun r hr => hi.read hr, fun op ha => ⟨Op.returns hn hi ha, fun t ht q hq hne => ?_⟩⟩
  have hi' := (Op.spec hn hi ha).1 t ht
  refine ⟨hi.readReq_slot hq (op.sameSlots ht q hne), ?_⟩
  rw [hi'.read hq, hi.read hq, Function.update_of_ne hne]

theorem cache_is_map_firstWrite : readContent (firstWrite pmemPageNumbers) 0 = some (fill 1) := by
  have hinit : Session pmemPageNumbers [] (opened pmemPageNumbers) :=
    .init (show newFile.pool.magicNumber ≠ magicNumber by decide) (exec_runs (exec_newFile _))
  have hfirst := hinit.op (run_firstWrite (by decide)).1 (run_firstWrite (by decide)).2
  rw [(cache_is_map (by decide) hfirst).1 0 inRange_zero]
  rfl

/-! ## The memory structures alone -/

section
variable {s : St} {c : Page}

@[simp] theorem dram_setDram (s : St) (f : Dram → Dram) : (s.setDram f).dram = f s.dram := rfl

@[simp] theorem setSlot_setSlot (d : Dram) (r : Nat) (f g : BlockPage → BlockPage) :
    (d.setSlot r f).setSlot r g = d.setSlot r fun b => g (f b) := by
  simp [Dram.setSlot, Dram.slot]

theorem setFree_setSlot (d : Dram) (r j i : Nat) (f : BlockPage → BlockPage) :
    (d.setSlot r f).setFree j i = (d.setFree j i).setSlot r f := rfl

/-- What the cache writes back is neither in the memory structures nor in the pages. -/
theorem evicts_dram {s t : St} (h : Evicts s t) : t.dram = s.dram ∧ t.pool.pages = s.pool.pages := by
  induction h with
  | refl => exact ⟨rfl, rfl⟩
  | tail _ he ih =>
    obtain ⟨i, m, -, rfl⟩ := he
    exact ih

theorem cwp_copy {Q : Unit → St → Prop} {i : Nat}
    (hQ : ∀ t, t.dram = s.dram → t.pool.pages = Function.update s.pool.pages i c → Q () t) :
    cwp (fun _ => True) (copyPage i c) Q s := by
  refine Cmd.wp_pieces fun s₁ hs₁ => ⟨trivial, fun _ => trivial, ?_⟩
  obtain ⟨hdram, hpages⟩ := evicts_dram hs₁
  refine hQ _ hdram ?_
  show Function.update s₁.pool.pages i (tornPage _ c _) = _
  rw [tornPage_full, hpages]

theorem cwp_meta {Q : Unit → St → Prop} {i w : Nat}
    (hQ : ∀ t, t.dram = s.dram → t.pool.pages = s.pool.pages → Q () t) :
    cwp (fun _ => True) (storeMeta i w) Q s := by
  refine Cmd.wp_step fun s₁ hs₁ => ⟨trivial, ?_⟩
  obtain ⟨hdram, hpages⟩ := evicts_dram hs₁
  exact hQ _ hdram hpages

theorem cwp_resetSn {Q : Unit → St → Prop} {i : Nat}
    (hQ : ∀ t, t.dram = s.dram → t.pool.pages = s.pool.pages → Q () t) :
    cwp (fun _ => True) (resetSn i) Q s := by
  simp only [resetSn, dirtyMeta, Cmd.wp_bind, Cmd.wp_get, Cmd.wp_ite, Cmd.wp_pure, Cmd.wp_modify]
  refine ⟨fun _ => Cmd.wp_step fun s₁ hs₁ => ⟨trivial, ?_⟩, fun _ => hQ s rfl rfl⟩
  obtain ⟨hdram, hpages⟩ := evicts_dram hs₁
  exact hQ _ hdram hpages

theorem cbsInit_dram (base n : Nat) (s : St) :
    cwp (fun _ => True) (cbsInit base n) (fun _ t => if s.pool.magicNumber = magicNumber
      then t.dram = rebuild s.meta n s.dram.freeList else ∃ d, t.dram = allFree n d) s := by
  simp only [cbsInit, Cmd.wp_bind, Cmd.wp_succeeds, Cmd.wp_ite, Cmd.wp_pure, Cmd.wp_get]
  intro _ h₁
  refine ⟨fun e => absurd (by rw [h₁]; rfl) e, fun _ _ h₂ => ?_⟩
  refine ⟨fun e => absurd (by rw [h₂]; rfl) e, fun _ _ h₃ => ?_⟩
  refine ⟨fun e => absurd (by rw [h₃]; rfl) e, fun _ => ⟨fun hm => ?_, fun hm => ?_⟩⟩
  · refine Cmd.wp_pieces fun s₁ _ => ⟨trivial, fun _ => trivial, ?_⟩
    refine Cmd.wp_step fun s₂ _ => ⟨trivial, ?_⟩
    refine Cmd.wp_step fun s₃ _ => ⟨trivial, ?_⟩
    rw [Cmd.wp_modify, if_neg hm]
    exact ⟨s₃.dram, rfl⟩
  · rw [Cmd.wp_modify, if_pos (not_not.mp hm)]

end

/-! ## A partition -/

/-- A field of a slot: `page_id1` or `page_id2` of a request. -/
def Dram.field (d : Dram) (p : Nat × Bool) : Nat := if p.2 then (d.slot p.1).pageId1 else (d.slot p.1).pageId2

/-- The field refers to page `i`. -/
def Dram.Field (d : Dram) (i : Nat) (p : Nat × Bool) : Prop := InRange p.1 ∧ d.field p = pageIdFromMeta i

/-- Page `i` is once in the free list, is invalid, and no slot refers to it. -/
structure FreePage (s : St) (i : Nat) : Prop where
  once : ∃! j, j < s.dram.freeNum ∧ s.dram.freeList j = i
  invalid : (s.pool.metas i).valid = false
  unused : ∀ p, ¬ s.dram.Field i p

/-- Page `i` is not in the free list, is valid, and one field refers to it, that of its request. -/
structure UsedPage (s : St) (i : Nat) : Prop where
  notFree : ∀ j < s.dram.freeNum, s.dram.freeList j ≠ i
  valid : (s.pool.metas i).valid = true
  once : ∃! p, s.dram.Field i p
  reqId : ∀ p, s.dram.Field i p → p.1 = (s.pool.metas i).reqId

open Classical in
/-- Every page is free or used, and the two kinds are all pages. -/
def Partition (n : Nat) (s : St) : Prop :=
  (∀ i < n, FreePage s i ∨ UsedPage s i) ∧
    s.dram.freeNum + ((Finset.range n).filter fun i => ∃ p, s.dram.Field i p).card = n

section
variable {n : Nat} {s : St} {M : Nat → Option Page}

/-- A field that refers to a page is the one field of the page's request that does. -/
theorem Inv.field_valid (hn : n < 2 ^ 32) (h : Inv n s M) {i : Nat} (hi : i < n) {p : Nat × Bool}
    (hp : s.dram.Field i p) :
    Valid n s.pool p.1 i ∧ (p.2 = true ↔ s.dram.slot p.1 = ⟨i + 1, 0⟩) := by
  obtain ⟨hr, hp⟩ := hp
  rw [pageIdFromMeta_eq hi hn] at hp
  cases hM : M p.1 with
  | none =>
    have hslot := h.slotNone p.1 hr hM
    rw [Dram.field, hslot] at hp
    split_ifs at hp
  | some c =>
    obtain ⟨k, hk, -, href, -⟩ := h.page hr hM
    unfold Dram.field at hp
    rcases href with hslot | hslot
    · rw [hslot] at hp ⊢
      by_cases hb : p.2 = true
      · obtain rfl : k = i := by simpa [hb] using hp
        exact ⟨hk, by simp [hb]⟩
      · simp [hb] at hp
    · rw [hslot] at hp ⊢
      by_cases hb : p.2 = true
      · simp [hb] at hp
      · obtain rfl : k = i := by simpa [hb] using hp
        exact ⟨hk, by simp [hb]⟩

theorem Inv.freePage_of_invalid (hn : n < 2 ^ 32) (h : Inv n s M) {i : Nat} (hi : i < n)
    (hv : (s.pool.metas i).valid = false) : FreePage s i := by
  obtain ⟨j, hj, he⟩ := h.freeAll i hi hv
  refine ⟨⟨j, ⟨hj, he⟩, fun k hk => h.freeInj k hk.1 j hj (hk.2.trans he.symm)⟩, hv, fun p hp => ?_⟩
  have hvalid := (h.field_valid hn hi hp).1.2.1
  rw [hv] at hvalid
  cases hvalid

theorem Inv.usedPage_of_valid (hn : n < 2 ^ 32) (h : Inv n s M) {i : Nat} (hi : i < n)
    (hv : (s.pool.metas i).valid = true) : UsedPage s i := by
  have href := h.slotSome i hi hv
  have hrange := h.range i hi hv
  have hreq : ∀ p, s.dram.Field i p → p.1 = (s.pool.metas i).reqId := fun p hp => (h.field_valid hn hi hp).1.2.2.symm
  have hfield : ∃ b, s.dram.Field i ((s.pool.metas i).reqId, b) := by
    rcases href with hslot | hslot
    · exact ⟨true, hrange, by simp [Dram.field, hslot, pageIdFromMeta_eq hi hn]⟩
    · exact ⟨false, hrange, by simp [Dram.field, hslot, pageIdFromMeta_eq hi hn]⟩
  obtain ⟨b, hb⟩ := hfield
  refine ⟨fun j hj he => ?_, hv, ⟨_, hb, fun p hp => ?_⟩, hreq⟩
  · have hfree := (h.free j hj).2
    rw [he, hv] at hfree
    cases hfree
  · have hfirst := hreq p hp
    refine Prod.ext hfirst ?_
    have h₁ := (h.field_valid hn hi hp).2
    have h₂ := (h.field_valid hn hi hb).2
    rw [hfirst] at h₁
    exact Bool.eq_iff_iff.mpr (h₁.trans h₂.symm)

theorem Inv.partition (hn : n < 2 ^ 32) (h : Inv n s M) : Partition n s := by
  classical
  have hkind : ∀ i < n, FreePage s i ∨ UsedPage s i := by
    intro i hi
    cases hv : (s.pool.metas i).valid with
    | false => exact Or.inl (h.freePage_of_invalid hn hi hv)
    | true => exact Or.inr (h.usedPage_of_valid hn hi hv)
  refine ⟨hkind, ?_⟩
  -- the free list enumerates the pages that no field refers to
  have hfree : s.dram.freeNum = ((Finset.range n).filter fun i => ¬ ∃ p, s.dram.Field i p).card := by
    rw [← Finset.card_range s.dram.freeNum]
    refine Finset.card_bij (fun j _ => s.dram.freeList j) ?_ ?_ ?_
    · intro j hj
      have hj' := Finset.mem_range.mp hj
      obtain ⟨hlt, hv⟩ := h.free j hj'
      refine Finset.mem_filter.mpr ⟨Finset.mem_range.mpr hlt, fun ⟨p, hp⟩ => ?_⟩
      exact (h.freePage_of_invalid hn hlt hv).unused p hp
    · intro j hj k hk he
      exact h.freeInj j (Finset.mem_range.mp hj) k (Finset.mem_range.mp hk) he
    · intro i hi
      obtain ⟨hlt, hno⟩ := Finset.mem_filter.mp hi
      have hlt' := Finset.mem_range.mp hlt
      rcases hkind i hlt' with hf | hu
      · obtain ⟨j, hj, -⟩ := hf.once
        exact ⟨j, Finset.mem_range.mpr hj.1, hj.2⟩
      · exact absurd hu.once.exists hno
  have hsum := Finset.card_filter_add_card_filter_not (s := Finset.range n) fun i => ∃ p, s.dram.Field i p
  rw [Finset.card_range] at hsum
  omega

end

/-- A request with a valid page has a last one. -/
theorem exists_last {metas : Nat → Meta} {n q j : Nat} (hj : j < n)
    (hv : (metas j).valid = true ∧ (metas j).reqId = q) :
    ∃ m, j ≤ m ∧ m < n ∧ ((metas m).valid = true ∧ (metas m).reqId = q) ∧
      ∀ k, m < k → k < n → ¬ ((metas k).valid = true ∧ (metas k).reqId = q) := by
  classical
  obtain ⟨m, hm, hmax⟩ := ((Finset.range n).filter fun k => (metas k).valid = true ∧ (metas k).reqId = q).exists_max_image
    id ⟨j, Finset.mem_filter.mpr ⟨Finset.mem_range.mpr hj, hv⟩⟩
  obtain ⟨hmn, hmv⟩ := Finset.mem_filter.mp hm
  refine ⟨m, hmax j (Finset.mem_filter.mpr ⟨Finset.mem_range.mpr hj, hv⟩), Finset.mem_range.mp hmn, hmv,
    fun k hmk hkn hkv => ?_⟩
  have := hmax k (Finset.mem_filter.mpr ⟨Finset.mem_range.mpr hkn, hkv⟩)
  simp only [id] at this
  omega

/-- **A restart forgets a page** when it finds two valid pages of one request: no field refers to the earlier one. -/
theorem restarted_not_partition {base n : Nat} {p : Pool} {fl : Nat → Nat} (hn : n < 2 ^ 32) (h : ¬ OneValid n p) :
    ¬ Partition n (restarted base n p fl) := by
  intro hpart
  unfold OneValid at h
  push Not at h
  obtain ⟨r, i, j, hi, hj, hij⟩ := h
  wlog hlt : i < j generalizing i j
  · exact this j i hj hi (Ne.symm hij) (by omega)
  obtain ⟨m, hjm, hmn, hmv, hlast⟩ := exists_last hj.1 hj.2
  have hslot : (rebuild p.metas n fl).slot r = ⟨m + 1, 0⟩ := rebuild_slot_last fl hmn hn hmv hlast
  rcases hpart.1 i hi.1 with hf | hu
  · have hinvalid : (p.metas i).valid = false := hf.invalid
    rw [hi.2.1] at hinvalid
    cases hinvalid
  · obtain ⟨q, hq, -⟩ := hu.once
    have hfield := hq.2
    have hreq : q.1 = r := (hu.reqId q hq).trans hi.2.2
    rw [pageIdFromMeta_eq hi.1 hn, Dram.field, hreq] at hfield
    change (if q.2 = true then ((rebuild p.metas n fl).slot r).pageId1
      else ((rebuild p.metas n fl).slot r).pageId2) = i + 1 at hfield
    rw [hslot] at hfield
    split_ifs at hfield
    simp only [Nat.add_right_cancel_iff] at hfield
    omega

/-- **No page is lost or shared**, in every state of every life in which no restart finds two valid pages of one
request; and a restart that does find them loses one. -/
theorem pages_partitioned {n : Nat} (hn : n < 2 ^ 32) :
    (∀ s L, Life n (OneValid n) s L → Partition n s) ∧
      ∀ (base : Nat) (s t : St) (v : Int), s.pool.magicNumber = magicNumber → ¬ OneValid n s.pool →
        (cbsInit base n).exec s.reboot = some (v, t) → ¬ Partition n t := by
  refine ⟨fun s L h => ?_, fun base s t v hm ho ht => ?_⟩
  · obtain ⟨M, hi, -⟩ := life_inv hn h
    exact hi.partition hn
  · rw [exec_reboot hm] at ht
    cases ht
    exact restarted_not_partition hn ho

/-- A write is cut, the pool restarted, and the next write returns. -/
theorem pages_partitioned_rewritten : ∃ u t, (Op.write 0 (fill 2)).Crash (firstWrite pmemPageNumbers) u ∧
    (Op.write 0 (fill 3)).Run (restarted 0 pmemPageNumbers u.pool fun _ => 0) t ∧ Partition pmemPageNumbers t := by
  obtain ⟨t, L, hrun, hlife, -⟩ := life_rewritten (n := pmemPageNumbers) (by decide) (by decide)
  exact ⟨_, t, (crash_tornWrite (by decide) (by decide)).2, hrun, (pages_partitioned (by decide)).1 t L hlife⟩

/-- A write is cut between publishing the new page and freeing the old one: the restart loses the new page. -/
theorem restart_leaks :
    ¬ ∀ s L, Life pmemPageNumbers (fun _ => True) s L → Partition pmemPageNumbers s := by
  intro h
  obtain ⟨L, hlife⟩ := life_twinPool (n := pmemPageNumbers) (by decide) (by decide)
  refine restarted_not_partition (by decide) (fun hone => ?_) (h _ L hlife)
  have hfirst : Valid pmemPageNumbers (twinPool pmemPageNumbers) 0 (pmemPageNumbers - 1) :=
    ⟨by decide, by rw [metas_twinPool, if_neg (by decide), if_pos rfl], by rw [metas_twinPool, if_neg (by decide), if_pos rfl]⟩
  have hsecond : Valid pmemPageNumbers (twinPool pmemPageNumbers) 0 (pmemPageNumbers - 2) :=
    ⟨by decide, by rw [metas_twinPool, if_pos rfl], by rw [metas_twinPool, if_pos rfl]⟩
  exact absurd (hone 0 _ _ hfirst hsecond) (by decide)

end PmemProgram.Cbs
