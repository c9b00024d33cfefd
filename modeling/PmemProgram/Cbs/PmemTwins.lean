import PmemProgram.Cbs.PmemMap

/-!
# Two valid pages of one request

* `recovers_newest_iff` : what `cbs_init` makes of two valid pages. It keeps the last one of the scan, whatever its
  sequence number, and no slot refers to the other;
* `TwoPages` : a slot refers to two valid pages. `write_two_resolves_iff` : `write_req` resolves it when the page in
  `page_id2` is the newer one, with a sequence number below `2 ^ 30`; in the other order it clears the page it has just
  written and frees the valid one.
-/

namespace PmemProgram.Cbs
open PmemProgram.Lib

/-! ## The newest page -/

/-- Page `i` is valid for `r`, and no valid page of `r` has a larger sequence number. -/
def Newest (n : Nat) (p : Pool) (r i : Nat) : Prop :=
  Valid n p r i ∧ ∀ j, Valid n p r j → (p.metas j).sn ≤ (p.metas i).sn

/-- A request with a valid page has a newest one. -/
theorem exists_newest {n : Nat} {p : Pool} {r i : Nat} (hi : Valid n p r i) : ∃ k, Newest n p r k := by
  classical
  obtain ⟨k, hk, hmax⟩ := ((Finset.range n).filter fun k => Valid n p r k).exists_max_image (fun k => (p.metas k).sn)
    ⟨i, Finset.mem_filter.mpr ⟨Finset.mem_range.mpr hi.1, hi⟩⟩
  refine ⟨k, (Finset.mem_filter.mp hk).2, fun j hj => ?_⟩
  exact hmax j (Finset.mem_filter.mpr ⟨Finset.mem_range.mpr hj.1, hj⟩)

/-- Each request has at most two valid pages, and two of them have different sequence numbers. -/
structure TwoVersions (n : Nat) (p : Pool) : Prop where
  two : ∀ r, InRange r → ∀ i j k, Valid n p r i → Valid n p r j → Valid n p r k → i = j ∨ i = k ∨ j = k
  sn : ∀ r, InRange r → ∀ i j, Valid n p r i → Valid n p r j → i ≠ j → (p.metas i).sn ≠ (p.metas j).sn

/-- Every request reads its newest page, and a slot of the disk refers to every valid page. -/
structure Recovered (n : Nat) (s : St) : Prop where
  newest : ∀ r, InRange r → ∀ i, Newest n s.pool r i → readReq s r = some i
  referred : ∀ i < n, (s.pool.metas i).valid = true → ∃ f, s.dram.Field i f

section Restart
variable {base n : Nat} {p : Pool} {fl : Nat → Nat}

/-- After a restart a request reads its last valid page in the scan, and its slot refers to no other. -/
theorem restarted_last (base : Nat) (fl : Nat → Nat) (hn : n < 2 ^ 32) {r i : Nat} (hi : Valid n p r i) :
    ∃ m, i ≤ m ∧ Valid n p r m ∧ (restarted base n p fl).dram.slot r = ⟨m + 1, 0⟩ := by
  obtain ⟨m, him, hmn, hmv, hlast⟩ := exists_last hi.1 hi.2
  exact ⟨m, him, ⟨hmn, hmv⟩, rebuild_slot_last fl hmn hn hmv hlast⟩

/-- The field that refers to a valid page after a restart belongs to the request of that page. -/
theorem restarted_field (hn : n < 2 ^ 32) {i : Nat} (hi : i < n) {f : Nat × Bool}
    (hf : (restarted base n p fl).dram.Field i f) : Valid n p f.1 i ∧ readReq (restarted base n p fl) f.1 = some i := by
  obtain ⟨hr, hf⟩ := hf
  rw [pageIdFromMeta_eq hi hn] at hf
  have hsome : ∃ j, Valid n p f.1 j := by
    by_contra hno
    have hslot : (restarted base n p fl).dram.slot f.1 = ⟨0, 0⟩ :=
      rebuild_slot_none fl fun j hj hv => hno ⟨j, hj, hv⟩
    rw [Dram.field, hslot] at hf
    split_ifs at hf
  obtain ⟨j, hj⟩ := hsome
  obtain ⟨m, -, hm, hslot⟩ := restarted_last base fl hn hj
  rw [Dram.field, hslot] at hf
  split_ifs at hf
  obtain rfl : m = i := Nat.succ.inj hf
  exact ⟨hm, readReq_refers hr (Or.inl hslot)⟩

/-- **A restart recovers everything only if no request has two valid pages.** -/
theorem recovered_iff (hn : n < 2 ^ 32) : Recovered n (restarted base n p fl) ↔
    (∀ r, InRange r → ∀ i j, Valid n p r i → Valid n p r j → i = j) ∧
      ∀ i < n, (p.metas i).valid = true → InRange (p.metas i).reqId := by
  constructor
  · intro h
    have hread : ∀ i < n, (p.metas i).valid = true →
        InRange (p.metas i).reqId ∧ readReq (restarted base n p fl) (p.metas i).reqId = some i := by
      intro i hi hv
      obtain ⟨f, hf⟩ := h.referred i hi hv
      obtain ⟨hval, hread⟩ := restarted_field hn hi hf
      rw [hval.2.2]
      exact ⟨hf.1, hread⟩
    refine ⟨fun r _ i j hi hj => ?_, fun i hi hv => (hread i hi hv).1⟩
    have h₁ := (hread i hi.1 hi.2.1).2
    have h₂ := (hread j hj.1 hj.2.1).2
    rw [hi.2.2] at h₁
    rw [hj.2.2, h₁] at h₂
    exact Option.some.inj h₂
  · intro ⟨hone, hrange⟩
    have hslot : ∀ r i, InRange r → Valid n p r i → (restarted base n p fl).dram.slot r = ⟨i + 1, 0⟩ := by
      intro r i hr hi
      obtain ⟨m, -, hm, hslot⟩ := restarted_last base fl hn hi
      obtain rfl := hone r hr m i hm hi
      exact hslot
    refine ⟨fun r hr i hi => readReq_refers hr (Or.inl (hslot r i hr hi.1)), fun i hi hv => ?_⟩
    have hr := hrange i hi hv
    refine ⟨((p.metas i).reqId, true), hr, ?_⟩
    rw [Dram.field, hslot _ i hr ⟨hi, hv, rfl⟩, pageIdFromMeta_eq hi hn]
    rfl

/-- **A request reads its newest page if and only if that page comes later in the scan.** -/
theorem reads_newest_iff (hn : n < 2 ^ 32) (h : TwoVersions n p) {r : Nat} (hr : InRange r) :
    (∀ i, Newest n p r i → readReq (restarted base n p fl) r = some i) ↔
      ∀ i j, Valid n p r i → Valid n p r j → (p.metas i).sn < (p.metas j).sn → i < j := by
  constructor
  · intro hread i j hi hj hlt
    have hne : i ≠ j := by rintro rfl; omega
    have hnew : Newest n p r j := by
      refine ⟨hj, fun k hk => ?_⟩
      rcases h.two r hr i j k hi hj hk with he | rfl | rfl
      · exact absurd he hne
      · omega
      · omega
    obtain ⟨m, him, -, hslot⟩ := restarted_last base fl hn hi
    have hm := readReq_refers hr (Or.inl hslot)
    rw [hread j hnew] at hm
    obtain rfl := Option.some.inj hm
    omega
  · intro horder i hi
    obtain ⟨m, him, hm, hslot⟩ := restarted_last base fl hn hi.1
    have hmi : m = i := by
      by_contra hne
      have h₁ := h.sn r hr m i hm hi.1 hne
      have h₂ := hi.2 m hm
      have h₃ := horder m i hm hi.1 (by omega)
      omega
    rw [readReq_refers hr (Or.inl hslot), hmi]

end Restart

/-- **What a restart recovers.** From any image with the magic number in which a request has at most two valid pages,
with different sequence numbers, `cbs_init` gives every request its newest page and loses none if and only if no request
has two; a request with two reads the newer one if and only if the scan meets it last. -/
theorem recovers_newest_iff {n : Nat} (hn : n < 2 ^ 32) (base : Nat) {s : St} (hm : s.pool.magicNumber = magicNumber)
    (h : TwoVersions n s.pool) :
    ∃ t, (cbsInit base n).exec s.reboot = some (0, t) ∧ t.pool = s.pool ∧
      (Recovered n t ↔ (∀ r, InRange r → ∀ i j, Valid n s.pool r i → Valid n s.pool r j → i = j) ∧
        ∀ i < n, (s.pool.metas i).valid = true → InRange (s.pool.metas i).reqId) ∧
      ∀ r, InRange r → ((∀ i, Newest n s.pool r i → readReq t r = some i) ↔
        ∀ i j, Valid n s.pool r i → Valid n s.pool r j → (s.pool.metas i).sn < (s.pool.metas j).sn → i < j) :=
  ⟨_, exec_reboot hm, rfl, recovered_iff hn, fun _ hr => reads_newest_iff hn h hr⟩

/-- Request 0 has been written once. -/
theorem recovers_newest_firstWrite : ∃ t,
    (cbsInit 0 pmemPageNumbers).exec (firstWrite pmemPageNumbers).reboot = some (0, t) ∧ Recovered pmemPageNumbers t := by
  have hvalid : ∀ r i, Valid pmemPageNumbers (firstWrite pmemPageNumbers).pool r i ↔ i = pmemPageNumbers - 1 ∧ 0 = r :=
    fun r i => by
      rw [firstWrite, valid_published (by decide) rfl]
      simp [Valid, emptyPool]
  have htwo : TwoVersions pmemPageNumbers (firstWrite pmemPageNumbers).pool :=
    ⟨fun r _ i j k hi hj _ => Or.inl (((hvalid r i).mp hi).1.trans ((hvalid r j).mp hj).1.symm),
      fun r _ i j hi hj hne => absurd (((hvalid r i).mp hi).1.trans ((hvalid r j).mp hj).1.symm) hne⟩
  obtain ⟨t, ht, -, hrec, -⟩ := recovers_newest_iff (n := pmemPageNumbers) (by decide) 0 rfl htwo
  refine ⟨t, ht, hrec.mpr ⟨fun r _ i j hi hj => ((hvalid r i).mp hi).1.trans ((hvalid r j).mp hj).1.symm, ?_⟩⟩
  intro i hi hv
  have hzero := ((hvalid _ i).mp ⟨hi, hv, rfl⟩).2
  rw [← hzero]
  exact inRange_zero

theorem valid_twinPool {n r j : Nat} (h3 : 3 ≤ n) :
    Valid n (twinPool n) r j ↔ r = 0 ∧ (j = n - 2 ∨ j = n - 1) := by
  unfold Valid
  rw [metas_twinPool]
  constructor
  · intro ⟨_, hv, hr⟩
    split_ifs at hv hr with h₁ h₂
    · exact ⟨hr.symm, Or.inl h₁⟩
    · exact ⟨hr.symm, Or.inr h₂⟩
  · rintro ⟨rfl, rfl | rfl⟩
    · exact ⟨by omega, by simp, by simp⟩
    · have hne : ¬ n - 1 = n - 2 := by omega
      exact ⟨by omega, by simp [hne], by simp [hne]⟩

/-- A write is cut after publishing its page: the restart reads the other page, and forgets the published one. -/
theorem restart_ignores_sn : ¬ ∀ s : St, s.pool.magicNumber = magicNumber → TwoVersions pmemPageNumbers s.pool →
    ∀ v t, (cbsInit 0 pmemPageNumbers).exec s.reboot = some (v, t) → Recovered pmemPageNumbers t := by
  intro h
  have hvalid : ∀ r j, Valid pmemPageNumbers (twinPool pmemPageNumbers) r j ↔
      r = 0 ∧ (j = pmemPageNumbers - 2 ∨ j = pmemPageNumbers - 1) := fun r j => valid_twinPool (by decide)
  have hne : pmemPageNumbers - 2 ≠ pmemPageNumbers - 1 := by decide
  have htwo : TwoVersions pmemPageNumbers (twinPool pmemPageNumbers) := by
    refine ⟨fun r _ i j k hi hj hk => ?_, fun r _ i j hi hj hij => ?_⟩
    · have h₁ := ((hvalid r i).mp hi).2
      have h₂ := ((hvalid r j).mp hj).2
      have h₃ := ((hvalid r k).mp hk).2
      omega
    · rw [metas_twinPool, metas_twinPool]
      rcases ((hvalid r i).mp hi).2 with rfl | rfl <;> rcases ((hvalid r j).mp hj).2 with rfl | rfl
      · exact absurd rfl hij
      · simp [hne.symm]
      · simp [hne.symm]
      · exact absurd rfl hij
  have hrec := h (restarted 0 pmemPageNumbers (twinPool pmemPageNumbers) fun _ => 0) rfl htwo _ _ (exec_reboot rfl)
  have hone := ((recovered_iff (by decide)).mp hrec).1 0 inRange_zero
  exact hne (hone _ _ ((hvalid 0 _).mpr ⟨rfl, Or.inl rfl⟩) ((hvalid 0 _).mpr ⟨rfl, Or.inr rfl⟩))

/-! ## Writing to a slot with two pages -/

section
variable {r sn : Nat}

theorem toNat_shift (h : sn < 2 ^ 31) : (BitVec.ofNat 32 sn <<< 1).toNat = sn <<< 1 := by
  rw [BitVec.toNat_shiftLeft, BitVec.toNat_ofNat, Nat.mod_eq_of_lt (show sn < 2 ^ 32 by omega)]
  exact Nat.mod_eq_of_lt (by rw [Nat.shiftLeft_eq]; omega)

theorem msb_shift (h : sn < 2 ^ 31) : (BitVec.ofNat 32 sn <<< 1).msb = decide (2 ^ 30 ≤ sn) := by
  rw [BitVec.msb_eq_decide, toNat_shift h, Nat.shiftLeft_eq]
  exact decide_eq_decide.mpr (by omega)

theorem shiftSn_small (h : sn < 2 ^ 30) : shiftSn sn = sn <<< 1 := by
  have hmsb : (BitVec.ofNat 32 sn <<< 1).msb = false := by
    rw [msb_shift (by omega)]
    exact decide_eq_false (Nat.not_le.mpr h)
  rw [shiftSn, BitVec.signExtend_eq_setWidth_of_msb_false hmsb, BitVec.toNat_setWidth, toNat_shift (by omega)]
  exact Nat.mod_eq_of_lt (by rw [Nat.shiftLeft_eq]; omega)

/-- The sign of the `int` fills the upper half of the word. -/
theorem shiftSn_large (h : sn < 2 ^ 31) (hlarge : 2 ^ 30 ≤ sn) : shiftSn sn = (2 ^ 32 - 1) <<< 32 ||| sn <<< 1 := by
  have hmsb : (BitVec.ofNat 32 sn <<< 1).msb = true := by
    rw [msb_shift h]
    exact decide_eq_true hlarge
  have hlt : sn <<< 1 < 2 ^ 32 := by
    rw [Nat.shiftLeft_eq]
    omega
  rw [shiftSn, BitVec.toNat_signExtend, hmsb, BitVec.toNat_setWidth, toNat_shift h, Nat.mod_eq_of_lt (by omega), if_pos rfl,
    ← Nat.shiftLeft_add_eq_or_of_lt hlt]
  omega

theorem or_ones (hr : r < 2 ^ 32) : r ||| (2 ^ 32 - 1) = 2 ^ 32 - 1 := by
  apply Nat.eq_of_testBit_eq
  intro i
  rw [Nat.testBit_or, Nat.testBit_two_pow_sub_one]
  by_cases hi : i < 32
  · simp [hi]
  · have hbit : r.testBit i = false := Nat.testBit_lt_two_pow (hr.trans_le (Nat.pow_le_pow_right (by decide) (by omega)))
    simp [hi, hbit]

/-- The meta that a write to two pages publishes. -/
def snMeta (r sn : Nat) : Meta := Meta.ofWord (r <<< 32 % 2 ^ 64 ||| shiftSn sn ||| 1)

theorem snMeta_small (hr : r < 2 ^ 32) (h : sn < 2 ^ 30) : snMeta r sn = ⟨true, sn, r⟩ := by
  rw [snMeta, shiftSn_small h]
  exact ofWord_pack sn hr (by omega)

/-- From `2 ^ 30` on the sign replaces the request id. -/
theorem snMeta_large (hr : r < 2 ^ 32) (h : sn < 2 ^ 31) (hlarge : 2 ^ 30 ≤ sn) :
    snMeta r sn = ⟨true, sn, 2 ^ 32 - 1⟩ := by
  rw [← ofWord_pack sn (show 2 ^ 32 - 1 < 2 ^ 32 by decide) h, snMeta, shiftSn_large h hlarge, ← Nat.or_assoc,
    Nat.mod_eq_of_lt (by rw [Nat.shiftLeft_eq]; omega), ← Nat.shiftLeft_or_distrib, or_ones hr]
  rfl

end

/-- The slot of `r` refers to the valid pages `i` and `j`; every other page is free or used. -/
structure TwoPages (n : Nat) (s : St) (r i j : Nat) : Prop where
  range : InRange r
  ne : i ≠ j
  slot : s.dram.slot r = ⟨i + 1, j + 1⟩
  first : Valid n s.pool r i
  second : Valid n s.pool r j
  sn : (s.pool.metas i).sn ≠ (s.pool.metas j).sn
  word : ∀ k < n, (s.pool.metas k).sn < 2 ^ 31
  clean : s.dirty = fun _ => none
  used : ∀ f, s.dram.Field i f ∨ s.dram.Field j f → f.1 = r
  notFree : ∀ l < s.dram.freeNum, s.dram.freeList l ≠ i ∧ s.dram.freeList l ≠ j
  others : ∀ k < n, k ≠ i → k ≠ j → FreePage s k ∨ UsedPage s k

/-- Page `k` is the one page of `r`, with the content `c`, and page `l` has been added to the free list. -/
structure Resolved (n : Nat) (s t : St) (r : Nat) (c : Page) (k l : Nat) : Prop where
  valid : Valid n t.pool r k
  content : t.pool.pages k = c
  slot : Refers (t.dram.slot r) k
  freed : FreePage t l
  freeNum : t.dram.freeNum = s.dram.freeNum + 1
  freeList : ∀ m < s.dram.freeNum, t.dram.freeList m = s.dram.freeList m
  others : SameSlots r s t

/-- The newest page of `r` holds `o` or `c`. -/
def NewestHolds (n : Nat) (p : Pool) (r : Nat) (o c : Page) : Prop :=
  (∃ k, Newest n p r k) ∧ ∀ k, Newest n p r k → p.pages k = o ∨ p.pages k = c

/-- A failure inside the write leaves the newest content or the new one in the newest page. -/
def KeepsNewest (n : Nat) (s : St) (r : Nat) (c : Page) : Prop :=
  ∀ k, Newest n s.pool r k → ∀ u, Cmd.Crash Evicts (fun _ a => a = 0) (writeReq r c) s u →
    NewestHolds n u.pool r (s.pool.pages k) c

/-- The write ends with one of the two pages. -/
def EndsResolved (n : Nat) (s : St) (r : Nat) (c : Page) (i j : Nat) : Prop :=
  ¬ Cmd.Aborts Evicts (fun _ a => a = 0) (writeReq r c) s ∧
    (∃ v t, Cmd.Run Evicts (fun _ a => a = 0) (writeReq r c) s v t) ∧
    ∀ v t, Cmd.Run Evicts (fun _ a => a = 0) (writeReq r c) s v t →
      v = 0 ∧ (Resolved n s t r c i j ∨ Resolved n s t r c j i)

/-- Of the two valid pages of `r`, `b` is the newer one. -/
structure Newer (n : Nat) (s : St) (r a b : Nat) : Prop where
  range : InRange r
  ne : a ≠ b
  old : Valid n s.pool r a
  new : Valid n s.pool r b
  sn : (s.pool.metas a).sn < (s.pool.metas b).sn
  word : (s.pool.metas b).sn < 2 ^ 31
  clean : s.dirty = fun _ => none
  two : ∀ k, Valid n s.pool r k → k = a ∨ k = b

section Two
variable {n : Nat} {s : St} {r i j a b : Nat} {c : Page}

/-- No third page of `r` is valid. -/
theorem TwoPages.two (hn : n < 2 ^ 32) (h : TwoPages n s r i j) {k : Nat} (hk : Valid n s.pool r k) : k = i ∨ k = j := by
  by_contra hne
  push Not at hne
  rcases h.others k hk.1 hne.1 hne.2 with hf | hu
  · have hinvalid := hf.invalid
    rw [hk.2.1] at hinvalid
    cases hinvalid
  · obtain ⟨f, hf, -⟩ := hu.once
    have hreq : f.1 = r := (hu.reqId f hf).trans hk.2.2
    have hfield := hf.2
    rw [pageIdFromMeta_eq hk.1 hn, Dram.field, hreq, h.slot] at hfield
    split_ifs at hfield
    · exact hne.1 (Nat.succ.inj hfield).symm
    · exact hne.2 (Nat.succ.inj hfield).symm

theorem TwoPages.newer (hn : n < 2 ^ 32) (h : TwoPages n s r i j) (hlt : (s.pool.metas i).sn < (s.pool.metas j).sn) :
    Newer n s r i j :=
  ⟨h.range, h.ne, h.first, h.second, hlt, h.word j h.second.1, h.clean, fun _ hk => h.two hn hk⟩

theorem TwoPages.newer' (hn : n < 2 ^ 32) (h : TwoPages n s r i j) (hlt : (s.pool.metas j).sn < (s.pool.metas i).sn) :
    Newer n s r j i :=
  ⟨h.range, h.ne.symm, h.second, h.first, hlt, h.word i h.first.1, h.clean, fun _ hk => (h.two hn hk).symm⟩

theorem Newer.newest (h : Newer n s r a b) {k : Nat} : Newest n s.pool r k ↔ k = b := by
  have hsn := h.sn
  constructor
  · intro hk
    rcases h.two k hk.1 with rfl | rfl
    · have := hk.2 b h.new
      omega
    · rfl
  · rintro rfl
    refine ⟨h.new, fun l hl => ?_⟩
    rcases h.two l hl with rfl | rfl
    · omega
    · exact le_rfl

/-- While the older page is overwritten the newest content stays. -/
theorem Newer.holds_older (h : Newer n s r a b) (c' : Page) :
    NewestHolds n (s.pool.setPage a c') r (s.pool.pages b) c := by
  have hiff : ∀ k, Newest n (s.pool.setPage a c') r k ↔ k = b := fun k => h.newest
  refine ⟨⟨b, (hiff b).mpr rfl⟩, fun k hk => Or.inl ?_⟩
  rw [(hiff k).mp hk, pages_setPage_ne h.ne.symm]

/-- Once the older page holds the new content, every valid page holds one of the two contents. -/
theorem newestHolds_of_copied {p : Pool} {o : Page} (ha : p.pages a = c) (hb : p.pages b = o)
    (htwo : ∀ k, Valid n p r k → k = a ∨ k = b) (hv : ∃ k, Valid n p r k) : NewestHolds n p r o c := by
  obtain ⟨k, hk⟩ := hv
  refine ⟨exists_newest hk, fun l hl => ?_⟩
  rcases htwo l hl.1 with rfl | rfl
  · exact Or.inr ha
  · exact Or.inl hb

/-- The pool while the metas are changed: page `a` holds `c`, the meta of `b` is `m`. -/
def copied (p : Pool) (a b : Nat) (c : Page) (m : Meta) : Pool := (p.setPage a c).setMeta b m

/-- The meta is valid and belongs to `r`. -/
def Owned (r : Nat) (m : Meta) : Prop := m.valid = true ∧ m.reqId = r

theorem Newer.valid_copied (h : Newer n s r a b) {m : Meta} (hm : Owned r m) {k : Nat} :
    Valid n (copied s.pool a b c m) r k ↔ k = a ∨ k = b := by
  rw [copied, valid_setMeta, valid_setPage]
  constructor
  · rintro (⟨hk, -⟩ | ⟨-, hk⟩)
    · exact Or.inr hk
    · exact h.two k hk
  · rintro (rfl | rfl)
    · exact Or.inr ⟨h.ne, h.old⟩
    · exact Or.inl ⟨rfl, h.new.1, hm⟩

theorem Newer.pages_copied (h : Newer n s r a b) (m : Meta) :
    (copied s.pool a b c m).pages a = c ∧ (copied s.pool a b c m).pages b = s.pool.pages b :=
  ⟨pages_setPage_self .., pages_setPage_ne h.ne.symm⟩

theorem Newer.holds_copied (h : Newer n s r a b) {m : Meta} (hm : Owned r m) :
    NewestHolds n (copied s.pool a b c m) r (s.pool.pages b) c :=
  newestHolds_of_copied (h.pages_copied m).1 (h.pages_copied m).2 (fun _ hk => (h.valid_copied hm).mp hk)
    ⟨a, (h.valid_copied hm).mpr (Or.inl rfl)⟩

/-- The pool after the meta of the overwritten page has been published again. -/
theorem Newer.two_republished (h : Newer n s r a b) {m : Meta} (hm : Owned r m) (l : Meta) {k : Nat}
    (hk : Valid n ((copied s.pool a b c m).setMeta a l) r k) : k = a ∨ k = b := by
  rw [valid_setMeta, h.valid_copied hm] at hk
  rcases hk with ⟨hk, -⟩ | ⟨-, hk⟩
  · exact Or.inl hk
  · exact hk

theorem Newer.new_republished (h : Newer n s r a b) {m : Meta} (hm : Owned r m) (l : Meta) :
    Valid n ((copied s.pool a b c m).setMeta a l) r b := by
  rw [valid_setMeta, h.valid_copied hm]
  exact Or.inr ⟨h.ne.symm, Or.inr rfl⟩

theorem Newer.old_republished (h : Newer n s r a b) (m l : Meta) :
    Valid n ((copied s.pool a b c m).setMeta a l) r a ↔ Owned r l := by
  rw [valid_setMeta]
  constructor
  · rintro (⟨-, -, hl⟩ | ⟨hne, -⟩)
    · exact hl
    · exact absurd rfl hne
  · exact fun hl => Or.inl ⟨rfl, h.old.1, hl⟩

theorem Newer.holds_republished (h : Newer n s r a b) {m : Meta} (hm : Owned r m) (l : Meta) :
    NewestHolds n ((copied s.pool a b c m).setMeta a l) r (s.pool.pages b) c :=
  newestHolds_of_copied (h.pages_copied m).1 (h.pages_copied m).2 (fun _ hk => h.two_republished hm l hk)
    ⟨b, h.new_republished hm l⟩

theorem Newer.owned (h : Newer n s r a b) (sn : Nat) : Owned r { s.pool.metas b with sn := sn } := h.new.2

theorem copied_metas (p : Pool) (a b : Nat) (c : Page) : copied p a b c (p.metas b) = p.setPage a c := by
  simp [copied, Pool.setMeta, Pool.setPage]

theorem copied_setMeta (p : Pool) (a b : Nat) (c : Page) (m m' : Meta) :
    (copied p a b c m).setMeta b m' = copied p a b c m' := by simp [copied, Pool.setMeta]

theorem setMeta_comm (p : Pool) {i j : Nat} (hij : i ≠ j) (m m' : Meta) :
    (p.setMeta i m).setMeta j m' = (p.setMeta j m').setMeta i m := by
  simp [Pool.setMeta, Function.update_comm hij]

/-- The metas after the overwritten page has been published: the cache may have written the new sequence number of `b`
back, or may still hold it. -/
structure Republished (s t : St) (r a b : Nat) (l : Meta) (c : Page) (m : Meta) : Prop where
  pool : t.pool = (copied s.pool a b c m).setMeta a l
  owned : Owned r m
  dirty : ∃ m', Owned r m' ∧ t.dirty = Function.update (fun _ => none) b (some m')
  dram : t.dram = s.dram

/-- Up to the publication of the overwritten page, the two branches do the same. -/
theorem overwrite_spec (h : Newer n s r a b) {Q : Unit → St → Prop}
    (hQ : ∀ m t, Republished s t r a b (snMeta r (s.pool.metas b).sn) c m → Q () t) :
    cwp (fun u => NewestHolds n u.pool r (s.pool.pages b) c) (do
      copyPage a c
      dirtyMeta b fun m => { m with sn := (m.sn + 1) % 2 ^ 31 }
      storeMeta a (r <<< 32 % 2 ^ 64 ||| shiftSn (s.pool.metas b).sn ||| 1)) Q s := by
  have hrest := fun c' => h.holds_older (c := c) c'
  have hstart : NewestHolds n s.pool r (s.pool.pages b) c := by
    have hsame : s.pool.setPage a (s.pool.pages a) = s.pool := by simp [Pool.setPage]
    have hkeep := hrest (s.pool.pages a)
    rwa [hsame] at hkeep
  simp only [Cmd.wp_bind]
  refine cwp_copyPage h.clean hstart hrest ?_
  have hmeta : s.meta b = s.pool.metas b := by rw [St.meta, h.clean]; rfl
  simp only [dirtyMeta, Cmd.wp_modify, St.meta, h.clean, metas_setPage, Option.getD_none]
  generalize hbump : ({ s.pool.metas b with sn := ((s.pool.metas b).sn + 1) % 2 ^ 31 } : Meta) = m'
  have hm' : Owned r m' := by rw [← hbump]; exact h.owned _
  refine Cmd.wp_step fun s₁ hs₁ => ?_
  -- the new sequence number of `b` has been written back, or not yet
  have hsome : ∃ m, Owned r m ∧ s₁ = { s with
      pool := copied s.pool a b c m, dirty := Function.update (fun _ => none) b (some m') } := by
    rcases evicts_one (fun _ _ => dirty_one rfl) hs₁ with rfl | rfl
    · exact ⟨s.pool.metas b, h.new.2, by rw [copied_metas]⟩
    · exact ⟨m', hm', rfl⟩
  obtain ⟨m, hm, rfl⟩ := hsome
  refine ⟨h.holds_copied hm, hQ m _ ⟨rfl, hm, ⟨m', hm', ?_⟩, rfl⟩⟩
  funext k
  by_cases hka : k = a
  · subst hka
    simp [h.ne]
  · simp [hka]

/-- The next store finds the same, whatever has been written back since. -/
theorem Republished.store {t : St} {m l : Meta} {z w : Nat} {Q : Unit → St → Prop} (hab : Newer n s r a b)
    (h : Republished s t r a b l c m)
    (hQ : ∀ m t, Republished s t r a b l c m →
      Q () { t with pool := t.pool.setMeta z (Meta.ofWord w), dirty := Function.update t.dirty z none }) :
    cwp (fun u => NewestHolds n u.pool r (s.pool.pages b) c) (storeMeta z w) Q t := by
  obtain ⟨m', hm', hdirty⟩ := h.dirty
  refine Cmd.wp_step fun t₁ ht₁ => ?_
  have hsome : ∃ m, Republished s t₁ r a b l c m := by
    rcases evicts_one (fun _ _ => dirty_one hdirty) ht₁ with rfl | rfl
    · exact ⟨m, h⟩
    · refine ⟨m', ?_, hm', ⟨m', hm', hdirty⟩, h.dram⟩
      change t.pool.setMeta b m' = _
      rw [h.pool, setMeta_comm _ hab.ne, copied_setMeta]
  obtain ⟨m₁, hm₁⟩ := hsome
  refine ⟨?_, hQ m₁ t₁ hm₁⟩
  rw [hm₁.pool]
  exact hab.holds_republished hm₁.owned l

/-- A slot with two pages is left to `writeTwo`. -/
theorem wp_writeReq_two (h : TwoPages n s r i j) {I : St → Prop} {Q : Int → St → Prop}
    (htwo : cwp I (writeTwo r c s.dram.freeNum i j) (fun _ t => Q 0 t) s) : cwp I (writeReq r c) Q s := by
  simp only [writeReq, Cmd.wp_bind, Cmd.wp_get, Cmd.wp_ite, Cmd.wp_pure, h.slot]
  refine ⟨fun hb => absurd hb h.range.block, fun _ => ?_⟩
  exact ⟨fun e => absurd e.1 (Nat.succ_ne_zero i), fun _ => ⟨fun e => absurd e.2 (Nat.succ_ne_zero j),
    fun _ => ⟨fun e => absurd e.1 (Nat.succ_ne_zero i), fun _ => htwo⟩⟩⟩

/-- The branch for the newer page in `page_id2`, up to the last store. -/
theorem wp_writeTwo_second (hn : n < 2 ^ 32) (h : TwoPages n s r i j) (hlt : (s.pool.metas i).sn < (s.pool.metas j).sn)
    {Q : Unit → St → Prop} (hQ : ∀ m t, Republished s t r i j (snMeta r (s.pool.metas j).sn) c m →
      Q () (St.setDram { t with pool := t.pool.setMeta j ⟨false, 0, 0⟩, dirty := Function.update t.dirty j none } fun d =>
        ((d.setSlot r fun b => { b with pageId2 := 0 }).setFreeNum (s.dram.freeNum + 1)).setFree s.dram.freeNum j)) :
    cwp (fun u => NewestHolds n u.pool r (s.pool.pages j) c) (writeTwo r c s.dram.freeNum i j) Q s := by
  have hnew := h.newer hn hlt
  have hmeta : ∀ k, s.meta k = s.pool.metas k := fun k => by rw [St.meta, h.clean]; rfl
  simp only [writeTwo, Cmd.wp_bind, Cmd.wp_get, Cmd.wp_ite, hmeta]
  refine ⟨fun _ => ?_, fun hge => absurd hlt hge⟩
  have hover := overwrite_spec hnew (c := c) (Q := fun _ t => cwp (fun u => NewestHolds n u.pool r (s.pool.pages j) c)
    (storeMeta j 0) (fun _ t => Q () (t.setDram fun d =>
      ((d.setSlot r fun b => { b with pageId2 := 0 }).setFreeNum (s.dram.freeNum + 1)).setFree s.dram.freeNum j)) t)
  simp only [Cmd.wp_bind] at hover
  refine hover fun m t ht => ht.store hnew fun m t ht => ?_
  rw [ofWord_zero]
  exact hQ m t ht

/-- The request id of the newer page is kept. -/
theorem writeTwo_spec (hn : n < 2 ^ 32) (h : TwoPages n s r i j) (hlt : (s.pool.metas i).sn < (s.pool.metas j).sn)
    (hsmall : (s.pool.metas j).sn < 2 ^ 30) :
    cwp (fun u => NewestHolds n u.pool r (s.pool.pages j) c) (writeTwo r c s.dram.freeNum i j)
      (fun _ t => Resolved n s t r c i j) s := by
  have hnew := h.newer hn hlt
  have hr : r < 2 ^ 32 := by
    have := h.range.lt
    omega
  refine wp_writeTwo_second hn h hlt fun m t ht => ?_
  rw [snMeta_small hr hsmall] at ht
  refine ⟨?_, ?_, Or.inl ?_, ⟨?_, ?_, fun f hf => ?_⟩, rfl, fun l hl => ?_, fun q hq => ?_⟩
  · refine valid_setMeta.mpr (Or.inr ⟨h.ne, ?_⟩)
    rw [ht.pool]
    exact (hnew.old_republished _ _).mpr ⟨rfl, rfl⟩
  · simp only [St.setDram, pages_setMeta, ht.pool]
    exact (hnew.pages_copied m).1
  · simp [St.setDram, ht.dram, h.slot]
  · simp only [St.setDram, freeNum_setFree, freeNum_setFreeNum, freeList_setFree, freeList_setFreeNum, freeList_setSlot,
      ht.dram]
    refine ⟨s.dram.freeNum, ⟨Nat.lt_succ_self _, Function.update_self ..⟩, fun l hl => ?_⟩
    obtain ⟨hl, he⟩ := hl
    by_contra hne
    rw [Function.update_of_ne hne] at he
    exact (h.notFree l (by omega)).2 he
  · simp [St.setDram]
  · obtain ⟨hr, hf⟩ := hf
    rw [pageIdFromMeta_eq h.second.1 hn] at hf
    by_cases hfr : f.1 = r
    · simp only [Dram.field, St.setDram, hfr, slot_setFree, slot_setFreeNum, slot_setSlot_self, ht.dram, h.slot] at hf
      have hne := h.ne
      split_ifs at hf
      omega
    · simp only [Dram.field, St.setDram, slot_setFree, slot_setFreeNum, slot_setSlot, if_neg hfr, ht.dram] at hf
      exact hfr (h.used f (Or.inr ⟨hr, by rw [pageIdFromMeta_eq h.second.1 hn]; exact hf⟩))
  · simp only [St.setDram, freeList_setFree, freeList_setFreeNum, freeList_setSlot, ht.dram]
    exact Function.update_of_ne (by omega) ..
  · simp [St.setDram, slot_setSlot, hq, ht.dram]

/-- With a large sequence number neither page belongs to the request in the end. -/
theorem writeTwo_loses (hn : n < 2 ^ 32) (h : TwoPages n s r i j) (hlt : (s.pool.metas i).sn < (s.pool.metas j).sn)
    (hlarge : 2 ^ 30 ≤ (s.pool.metas j).sn) :
    cwp (fun u => NewestHolds n u.pool r (s.pool.pages j) c) (writeTwo r c s.dram.freeNum i j)
      (fun _ t => ∀ k, ¬ Valid n t.pool r k) s := by
  have hnew := h.newer hn hlt
  have hr := h.range.lt
  refine wp_writeTwo_second hn h hlt fun m t ht k hk => ?_
  rw [snMeta_large (by omega) hnew.word hlarge] at ht
  rw [St.setDram, valid_setMeta, ht.pool] at hk
  rcases hk with ⟨-, -, hinvalid, -⟩ | ⟨hne, hk⟩
  · cases hinvalid
  · obtain rfl := (hnew.two_republished ht.owned _ hk).resolve_right hne
    have hreq : 2 ^ 32 - 1 = r := ((hnew.old_republished _ _).mp hk).2
    omega

/-- The branch for the newer page in `page_id1` clears the page it has just written, and the slot refers to it. -/
theorem writeTwo_clears (hn : n < 2 ^ 32) (h : TwoPages n s r i j) (hlt : (s.pool.metas j).sn < (s.pool.metas i).sn) :
    cwp (fun u => NewestHolds n u.pool r (s.pool.pages i) c) (writeTwo r c s.dram.freeNum i j)
      (fun _ t => t.dram.slot r = ⟨0, j + 1⟩ ∧ (t.pool.metas j).valid = false) s := by
  have hnew := h.newer' hn hlt
  have hmeta : ∀ k, s.meta k = s.pool.metas k := fun k => by rw [St.meta, h.clean]; rfl
  simp only [writeTwo, Cmd.wp_bind, Cmd.wp_get, Cmd.wp_ite, hmeta]
  refine ⟨fun hge => absurd hge (by omega), fun _ => ?_⟩
  have hover := overwrite_spec hnew (c := c) (Q := fun _ t => cwp (fun u => NewestHolds n u.pool r (s.pool.pages i) c)
    (storeMeta j 0) (fun _ t => (t.setDram fun d => ((d.setSlot r fun b => { b with pageId1 := 0 }).setFreeNum
      (s.dram.freeNum + 1)).setFree s.dram.freeNum i).dram.slot r = ⟨0, j + 1⟩ ∧ (t.pool.metas j).valid = false) t)
  simp only [Cmd.wp_bind] at hover
  refine hover fun m t ht => ht.store hnew fun m t ht => ⟨?_, ?_⟩
  · simp [St.setDram, ht.dram, h.slot]
  · rw [metas_setMeta_self, ofWord_zero]

/-- **In either order a failure keeps the newest content.** -/
theorem TwoPages.keepsNewest (hn : n < 2 ^ 32) (h : TwoPages n s r i j) (c : Page) : KeepsNewest n s r c := by
  intro k hk u hu
  rcases Nat.lt_or_gt_of_ne h.sn with hlt | hlt
  · obtain rfl := (h.newer hn hlt).newest.mp hk
    have hspec := wp_writeReq_two h (Q := fun _ _ => True) (wp_writeTwo_second (c := c) hn h hlt fun _ _ _ => trivial)
    exact Cmd.wp_crash hspec hu
  · obtain rfl := (h.newer' hn hlt).newest.mp hk
    have hspec := wp_writeReq_two h (Q := fun _ t => t.dram.slot r = ⟨0, j + 1⟩ ∧ (t.pool.metas j).valid = false)
      (writeTwo_clears (c := c) hn h hlt)
    exact Cmd.wp_crash hspec hu

/-- The slot refers to the cleared page only. -/
theorem TwoPages.unresolved_first (hn : n < 2 ^ 32) (h : TwoPages n s r i j)
    (hlt : (s.pool.metas j).sn < (s.pool.metas i).sn) : ¬ EndsResolved n s r c i j := by
  intro ⟨_, _, hends⟩
  have hclears := wp_writeReq_two h (Q := fun _ t => t.dram.slot r = ⟨0, j + 1⟩ ∧ (t.pool.metas j).valid = false)
    (writeTwo_clears (c := c) hn h hlt)
  obtain ⟨v, t, ht⟩ := cwp_returns hclears (total_writeReq r c)
  obtain ⟨hslot, hinvalid⟩ := Cmd.wp_run hclears ht
  have hno : ∀ k l, ¬ Resolved n s t r c k l := by
    intro k l hres
    obtain rfl : k = j := hres.slot.inj (Or.inr hslot)
    have hvalid := hres.valid.2.1
    rw [hinvalid] at hvalid
    cases hvalid
  rcases (hends v t ht).2 with hres | hres
  · exact hno i j hres
  · exact hno j i hres

theorem TwoPages.unresolved_large (hn : n < 2 ^ 32) (h : TwoPages n s r i j)
    (hlt : (s.pool.metas i).sn < (s.pool.metas j).sn) (hlarge : 2 ^ 30 ≤ (s.pool.metas j).sn) :
    ¬ EndsResolved n s r c i j := by
  intro ⟨_, _, hends⟩
  have hloses := wp_writeReq_two h (Q := fun _ t => ∀ k, ¬ Valid n t.pool r k) (writeTwo_loses (c := c) hn h hlt hlarge)
  obtain ⟨v, t, ht⟩ := cwp_returns hloses (total_writeReq r c)
  have hnone := Cmd.wp_run hloses ht
  rcases (hends v t ht).2 with hres | hres
  · exact hnone i hres.valid
  · exact hnone j hres.valid

theorem TwoPages.resolved_iff (hn : n < 2 ^ 32) (h : TwoPages n s r i j) (c : Page) :
    EndsResolved n s r c i j ↔ (s.pool.metas i).sn < (s.pool.metas j).sn ∧ (s.pool.metas j).sn < 2 ^ 30 := by
  constructor
  · intro hends
    have hne := h.sn
    have hlt : (s.pool.metas i).sn < (s.pool.metas j).sn := by
      by_contra hge
      exact h.unresolved_first hn (by omega) hends
    refine ⟨hlt, ?_⟩
    by_contra hlarge
    exact h.unresolved_large hn hlt (by omega) hends
  · rintro ⟨hlt, hsmall⟩
    have hspec := wp_writeReq_two h (Q := fun v t => v = 0 ∧ Resolved n s t r c i j)
      (Cmd.wp_conseq (writeTwo_spec (c := c) hn h hlt hsmall) fun _ t ht => ⟨rfl, ht⟩)
    refine ⟨Cmd.wp_not_aborts hspec, cwp_returns hspec (total_writeReq r c), fun v t ht => ?_⟩
    obtain ⟨hv, hres⟩ := Cmd.wp_run hspec ht
    exact ⟨hv, Or.inl hres⟩

end Two

/-- **Writing to a slot with two pages** leaves one of them, with the new content, if and only if the newer page is the
one in `page_id2` and its sequence number is below `2 ^ 30`. In either order a failure during the write leaves the newest
content or the new one. -/
theorem write_two_resolves_iff {n : Nat} (hn : n < 2 ^ 32) {s : St} {r i j : Nat} (h : TwoPages n s r i j) (c : Page) :
    ((EndsResolved n s r c i j ∧ KeepsNewest n s r c) ↔
      (s.pool.metas i).sn < (s.pool.metas j).sn ∧ (s.pool.metas j).sn < 2 ^ 30) ∧ KeepsNewest n s r c :=
  ⟨⟨fun hboth => (h.resolved_iff hn c).mp hboth.1, fun hsn => ⟨(h.resolved_iff hn c).mpr hsn, h.keepsNewest hn c⟩⟩,
    h.keepsNewest hn c⟩

/-- Request 0 with the pages 0 and 1 and their sequence numbers; the other pages are free. -/
def bothPages (n sn1 sn2 : Nat) : St where
  pool := published (published (emptyPool n) 0 0 sn1 (fill 1)) 1 0 sn2 (fill 2)
  dirty := fun _ => none
  dram := ((⟨fun _ _ => ⟨0, 0⟩, fun _ => 0, n - 2, fun l => l + 2⟩ : Dram).setSlot 0 fun _ => ⟨1, 2⟩).countPage 0
  pageAddress := firstPageAddress 0 n

theorem metas_bothPages (n sn1 sn2 k : Nat) : (bothPages n sn1 sn2).pool.metas k =
    if k = 1 then ⟨true, sn2, 0⟩ else if k = 0 then ⟨true, sn1, 0⟩ else ⟨false, 0, 0⟩ := by
  by_cases h₁ : k = 1
  · subst h₁; simp [bothPages]
  · rw [if_neg h₁, bothPages, metas_published_ne h₁]
    by_cases h₀ : k = 0
    · subst h₀; simp
    · rw [if_neg h₀, metas_published_ne h₀]; rfl

theorem slot_bothPages (n sn1 sn2 q : Nat) :
    (bothPages n sn1 sn2).dram.slot q = if q = 0 then ⟨1, 2⟩ else ⟨0, 0⟩ := by
  rw [bothPages, slot_countPage, slot_setSlot]
  rfl

theorem twoPages_bothPages {n sn1 sn2 : Nat} (h2 : 2 ≤ n) (hn : n < 2 ^ 32) (h₁ : sn1 < 2 ^ 31) (h₂ : sn2 < 2 ^ 31)
    (hne : sn1 ≠ sn2) : TwoPages n (bothPages n sn1 sn2) 0 0 1 := by
  have hfield : ∀ k < n, ∀ f, (bothPages n sn1 sn2).dram.Field k f → f.1 = 0 ∧ k ≤ 1 := by
    intro k hk f hf
    replace hf := hf.2
    rw [pageIdFromMeta_eq hk hn, Dram.field, slot_bothPages] at hf
    by_cases hf0 : f.1 = 0
    · simp only [if_pos hf0] at hf
      split_ifs at hf <;> omega
    · simp [if_neg hf0] at hf
  refine ⟨inRange_zero, Nat.zero_ne_one, by simp [slot_bothPages], ⟨by omega, ?_⟩, ⟨by omega, ?_⟩, ?_, fun k _ => ?_,
    rfl, fun f hf => ?_, fun l _ => ⟨Nat.succ_ne_zero _, by simp [bothPages, Dram.countPage, Dram.setSlot]⟩,
    fun k hk h₀ h₁ => Or.inl ⟨⟨k - 2, ?_, ?_⟩, ?_, fun f hf => ?_⟩⟩
  · simp [metas_bothPages]
  · simp [metas_bothPages]
  · simpa [metas_bothPages] using hne
  · rw [metas_bothPages]
    split_ifs
    · exact h₂
    · exact h₁
    · exact Nat.two_pow_pos 31
  · rcases hf with hf | hf
    · exact (hfield 0 (by omega) f hf).1
    · exact (hfield 1 (by omega) f hf).1
  · exact ⟨show k - 2 < n - 2 by omega, show k - 2 + 2 = k by omega⟩
  · intro l hl
    have hl' : l + 2 = k := hl.2
    omega
  · simp [metas_bothPages, h₀, h₁]
  · have := (hfield k hk f hf).2
    omega

theorem write_two_resolves_newer_second :
    EndsResolved pmemPageNumbers (bothPages pmemPageNumbers 0 1) 0 (fill 3) 0 1 ∧
      KeepsNewest pmemPageNumbers (bothPages pmemPageNumbers 0 1) 0 (fill 3) :=
  (write_two_resolves_iff (by decide) (twoPages_bothPages (by decide) (by decide) (by decide) (by decide) (by decide))
    (fill 3)).1.mpr (by simp [metas_bothPages])

/-- The newer page is the one in `page_id1`: the written page is cleared and the valid one freed. -/
theorem write_two_clears_written : ¬ ∀ (s : St) (r i j : Nat) (c : Page), TwoPages pmemPageNumbers s r i j →
    EndsResolved pmemPageNumbers s r c i j ∧ KeepsNewest pmemPageNumbers s r c := by
  intro h
  have htwo : TwoPages pmemPageNumbers (bothPages pmemPageNumbers 1 0) 0 0 1 :=
    twoPages_bothPages (by decide) (by decide) (by decide) (by decide) (by decide)
  have hlt := ((htwo.resolved_iff (by decide) (fill 3)).mp (h _ _ _ _ _ htwo).1).1
  simp [metas_bothPages] at hlt

end PmemProgram.Cbs
