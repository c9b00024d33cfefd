import PmemProgram.Cbs.Exhaustion

/-!
# The counters of cached pages

* `pagesIn`, `pagesAll` : the pages of a block, and of all, that requests hold; `Exact` : the counters of the blocks and
  `get_cached_count` say the same;
* `deletions` : how often a page was deleted in a block. No counter is ever decremented;
* `exact_iff` : when the counters of the three stores are exact.
-/

namespace PmemProgram.Cbs
open PmemProgram.Lib PmemProgram.Lib.Objects

/-! ## Counting pages -/

/-- The pages of block `b` that are held. -/
def pagesIn (held : Nat → Bool) (b : Nat) : Nat := Nat.count (fun p => held (b * blockPageNum + p)) blockPageNum

/-- All pages that are held. -/
def pagesAll (held : Nat → Bool) : Nat := Nat.count (fun r => held r) (diskBlockNum * blockPageNum)

/-- The counter of every block, and the sum of them, are the numbers of pages that are held. -/
structure Exact (cnt : Nat → Nat) (count : Int) (held : Nat → Bool) : Prop where
  blocks : ∀ b < diskBlockNum, cnt b = pagesIn held b
  total : count = pagesAll held

theorem count_congr {f g : Nat → Bool} {n : Nat} (h : ∀ k < n, f k = g k) :
    Nat.count (fun k => f k) n = Nat.count (fun k => g k) n := by
  induction n with
  | zero => rfl
  | succ n ih => rw [Nat.count_succ, Nat.count_succ, ih fun k hk => h k (by omega), h n (Nat.lt_succ_self n)]

theorem pagesIn_le (held : Nat → Bool) (b : Nat) : pagesIn held b ≤ blockPageNum := Nat.count_le _

theorem pagesAll_le (held : Nat → Bool) : pagesAll held ≤ 2 ^ 30 := Nat.count_le _

theorem pagesIn_congr {held held' : Nat → Bool} {b : Nat} (hb : b < diskBlockNum)
    (h : ∀ r, InRange r → held r = held' r) : pagesIn held b = pagesIn held' b := by
  refine count_congr fun p hp => h _ ?_
  unfold InRange
  simp only [blockPageNum, diskBlockNum] at hp hb ⊢
  omega

theorem count_false (n : Nat) : Nat.count (fun _ => false = true) n = 0 := by
  induction n with
  | zero => rfl
  | succ n ih => rw [Nat.count_succ, ih, if_neg Bool.false_ne_true]

theorem pagesIn_false (b : Nat) : pagesIn (fun _ => false) b = 0 := count_false _

theorem pagesAll_eq_zero {held : Nat → Bool} (h : pagesAll held = 0) {r : Nat} (hr : InRange r) : held r = false := by
  rw [pagesAll, Nat.count_eq_card_filter_range, Finset.card_eq_zero, Finset.filter_eq_empty_iff] at h
  simpa using h (Finset.mem_range.mpr hr)

/-- The pages are those of the blocks. -/
theorem pagesAll_eq_sum (held : Nat → Bool) : pagesAll held = ∑ b ∈ Finset.range diskBlockNum, pagesIn held b := by
  unfold pagesAll
  generalize diskBlockNum = d
  induction d with
  | zero => simp
  | succ d ih => rw [Nat.succ_mul, Nat.count_add, ih, Finset.sum_range_succ, pagesIn]

theorem count_update (f : Nat → Bool) (i : Nat) (v : Bool) (n : Nat) :
    Nat.count (fun k => Function.update f i v k) n + (if i < n ∧ f i = true then 1 else 0) =
      Nat.count (fun k => f k) n + (if i < n ∧ v = true then 1 else 0) := by
  induction n with
  | zero => simp
  | succ n ih =>
    rw [Nat.count_succ, Nat.count_succ, Function.update_apply]
    by_cases hin : n = i
    · subst hin
      simp only [lt_irrefl, false_and, if_false, Nat.lt_succ_self, true_and, if_true] at ih ⊢
      omega
    · have hlt : i < n + 1 ↔ i < n := by omega
      simp only [if_neg hin, hlt]
      omega

/-- One request changes. -/
theorem pagesIn_update (held : Nat → Bool) (r : Nat) (v : Bool) (b : Nat) :
    pagesIn (Function.update held r v) b + (if r >>> reqBlock = b ∧ held r = true then 1 else 0) =
      pagesIn held b + (if r >>> reqBlock = b ∧ v = true then 1 else 0) := by
  have hdiv : r >>> reqBlock = r / 1024 := Nat.shiftRight_eq_div_pow r 10
  unfold pagesIn
  rw [hdiv]
  by_cases hb : r / 1024 = b
  · have hr : b * blockPageNum + r % 1024 = r := by
      simp only [blockPageNum]
      omega
    have hpages : (fun p => Function.update held r v (b * blockPageNum + p)) =
        Function.update (fun p => held (b * blockPageNum + p)) (r % 1024) v := by
      funext p
      rw [Function.update_apply, Function.update_apply]
      have hp : b * blockPageNum + p = r ↔ p = r % 1024 := by omega
      simp only [hp]
    have hcount := count_update (fun p => held (b * blockPageNum + p)) (r % 1024) v blockPageNum
    have hlt : r % 1024 < blockPageNum := Nat.mod_lt _ (by decide)
    rw [← hpages] at hcount
    simpa only [hr, hb, hlt, true_and] using hcount
  · have hpages : ∀ p < blockPageNum, Function.update held r v (b * blockPageNum + p) = held (b * blockPageNum + p) := by
      intro p hp
      apply Function.update_of_ne
      simp only [blockPageNum] at hp ⊢
      omega
    rw [if_neg fun h => hb h.1, if_neg fun h => hb h.1, count_congr hpages]

/-- A sum in an `int`. -/
theorem foldl_count (cnt : Nat → Nat) (start : BitVec 32) (d : Nat) :
    (List.range d).foldl (fun n b => n + BitVec.ofNat 32 (cnt b)) start =
      start + BitVec.ofNat 32 (∑ b ∈ Finset.range d, cnt b) := by
  induction d with
  | zero => simp
  | succ d ih =>
    rw [List.range_succ, List.foldl_append, ih, Finset.sum_range_succ, BitVec.ofNat_add]
    exact BitVec.add_assoc _ _ _

theorem toInt_ofNat {k : Nat} (hk : k ≤ 2 ^ 30) : (BitVec.ofNat 32 k).toInt = k := by
  rw [BitVec.toInt_eq_toNat_of_lt]
  · rw [BitVec.toNat_ofNat, Nat.mod_eq_of_lt (by omega)]
  · rw [BitVec.toNat_ofNat]
    omega

/-- With the right counters the sum is right if it starts from 0. -/
theorem total_iff {cnt : Nat → Nat} {held : Nat → Bool} (h : ∀ b < diskBlockNum, cnt b = pagesIn held b)
    (start : BitVec 32) :
    ((List.range diskBlockNum).foldl (fun n b => n + BitVec.ofNat 32 (cnt b)) start).toInt = pagesAll held ↔
      start = 0#32 := by
  have hsum : ∑ b ∈ Finset.range diskBlockNum, cnt b = pagesAll held := by
    rw [pagesAll_eq_sum]
    exact Finset.sum_congr rfl fun b hb => h b (Finset.mem_range.mp hb)
  rw [foldl_count, hsum, ← toInt_ofNat (pagesAll_le held), BitVec.toInt_inj]
  exact ⟨fun he => by simpa using he, fun he => by rw [he, BitVec.zero_add]⟩

/-! ## Sequences of operations -/

/-- The operation deletes a page. -/
def Op.deletes (M : Nat → Option Page) : Op → Bool
  | write _ _ => false
  | delete r => (M r).isSome

/-- What the requests hold after the operations. -/
def contents : (Nat → Option Page) → List Op → Nat → Option Page
  | M, [] => M
  | M, op :: ops => contents (Function.update M op.reqId op.value) ops

/-- How many of the operations delete a page of block `b`. -/
def deletions (b : Nat) : (Nat → Option Page) → List Op → Nat
  | _, [] => 0
  | M, op :: ops => (if op.reqId >>> reqBlock = b ∧ op.deletes M = true then 1 else 0) +
      deletions b (Function.update M op.reqId op.value) ops

/-- The operations lead from `s` to `t`. -/
inductive Served {σ : Type} (run : Op → σ → σ → Prop) : σ → List Op → σ → Prop
  | nil {s} : Served run s [] s
  | cons {op ops s t u} : run op s t → Served run t ops u → Served run s (op :: ops) u

def isHeld (M : Nat → Option Page) (r : Nat) : Bool := (M r).isSome

theorem isHeld_update (M : Nat → Option Page) (r : Nat) (v : Option Page) :
    isHeld (Function.update M r v) = Function.update (isHeld M) r v.isSome := by
  funext q
  rw [isHeld, Function.update_apply, Function.update_apply]
  split_ifs <;> rfl

/-! ## Persistent memory -/

section Pmem
variable {n : Nat} {s t : St} {M : Nat → Option Page} {r : Nat} {c : Page}

/-- A first write counts its page. -/
theorem writeReq_cnt (h : Inv n s M) (hr : InRange r) (hf : 0 < s.dram.freeNum) :
    cwp (fun _ => True) (writeReq r c) (fun _ t => t.dram.cachedPagesCnt =
      if isHeld M r then s.dram.cachedPagesCnt else (s.dram.countPage r).cachedPagesCnt) s := by
  have hshadow : ∀ k, M r ≠ none → cwp (fun _ => True) (writeShadow r c s.dram.freeNum k) (fun _ t =>
      t.dram.cachedPagesCnt = if isHeld M r then s.dram.cachedPagesCnt else (s.dram.countPage r).cachedPagesCnt) s := by
    intro k hM
    rw [isHeld, if_pos (Option.isSome_iff_ne_none.mpr hM)]
    simp only [writeShadow, freeTop, Cmd.wp_bind, Cmd.wp_check, Cmd.wp_get]
    refine cwp_resetSn fun t₀ hd₀ _ => ⟨hf.ne', cwp_copy fun t₁ hd₁ _ => cwp_meta fun t₂ hd₂ _ => ?_⟩
    refine cwp_meta fun t₃ hd₃ _ => ?_
    show t₃.dram.cachedPagesCnt = _
    rw [hd₃, dram_setDram, hd₂, hd₁, hd₀]
    rfl
  simp only [writeReq, Cmd.wp_bind, Cmd.wp_get, Cmd.wp_ite, Cmd.wp_pure]
  refine ⟨fun hb => absurd hb hr.block, fun _ => ?_⟩
  cases hM : M r with
  | none =>
    rw [h.slotNone r hr hM, isHeld, hM]
    refine ⟨fun _ => ?_, fun hne => absurd ⟨rfl, rfl⟩ hne⟩
    simp only [writeNew, freeTop, Cmd.wp_bind, Cmd.wp_check, Cmd.wp_get]
    refine ⟨hf.ne', cwp_copy fun t₁ hd₁ _ => cwp_meta fun t₂ hd₂ _ => ?_⟩
    rw [Cmd.wp_modify, dram_setDram, hd₂, hd₁]
    rfl
  | some c₀ =>
    have hne : M r ≠ none := by rw [hM]; exact Option.some_ne_none c₀
    obtain ⟨k, -, -, href, -⟩ := h.page hr hM
    rcases href with hslot | hslot
    · rw [hslot]
      exact ⟨fun e => absurd e.1 k.succ_ne_zero, fun _ => ⟨fun _ => hshadow _ hne,
        fun e => absurd ⟨k.succ_ne_zero, rfl⟩ e⟩⟩
    · rw [hslot]
      exact ⟨fun e => absurd e.2 k.succ_ne_zero, fun _ => ⟨fun e => absurd rfl e.1, fun _ => ⟨fun _ => hshadow _ hne,
        fun e => absurd ⟨rfl, k.succ_ne_zero⟩ e⟩⟩⟩

/-- **A deletion counts nothing.** -/
theorem deletePage_cnt (r : Nat) (s : St) : cwp (fun _ => True) (deletePage r)
    (fun _ t => t.dram.cachedPagesCnt = s.dram.cachedPagesCnt) s := by
  have hone : ∀ k f, cwp (fun _ => True) (deleteOne r s.dram.freeNum k f)
      (fun _ t => t.dram.cachedPagesCnt = s.dram.cachedPagesCnt) s := by
    intro k f
    simp only [deleteOne, Cmd.wp_bind, Cmd.wp_modify]
    refine cwp_meta fun t hd _ => ?_
    rw [dram_setDram, hd]
    rfl
  have htwo : ∀ i j, cwp (fun _ => True) (deleteTwo r s.dram.freeNum i j)
      (fun _ t => t.dram.cachedPagesCnt = s.dram.cachedPagesCnt) s := by
    intro i j
    simp only [deleteTwo, Cmd.wp_bind, Cmd.wp_get, Cmd.wp_ite, Cmd.wp_modify]
    refine ⟨fun _ => ?_, fun _ => ?_⟩
    all_goals
      refine cwp_meta fun t₁ hd₁ _ => cwp_meta fun t₂ hd₂ _ => ?_
      rw [dram_setDram, hd₂, hd₁]
      rfl
  simp only [deletePage, Cmd.wp_bind, Cmd.wp_get, Cmd.wp_ite, Cmd.wp_pure]
  exact ⟨fun _ => trivial, fun _ => ⟨fun _ => hone _ _, fun _ => ⟨fun _ => hone _ _, fun _ =>
    ⟨fun _ => htwo _ _, fun _ => trivial⟩⟩⟩⟩

/-- The counters of the blocks, with `k` pages in each that have been counted and deleted. -/
def Tally (s : St) (M : Nat → Option Page) (k : Nat → Nat) : Prop :=
  ∀ b < diskBlockNum, s.dram.cachedPagesCnt b = (pagesIn (isHeld M) b + k b) % 2 ^ 32

/-- One operation of the cache, when a page can be had. -/
def Op.Serves (op : Op) (s t : St) : Prop := op.Allowed s ∧ op.Run s t

theorem Op.tally {op : Op} {k : Nat → Nat} (h : Inv n s M) (hk : Tally s M k) (hop : op.Serves s t) :
    Tally t (Function.update M op.reqId op.value)
      fun b => k b + if op.reqId >>> reqBlock = b ∧ op.deletes M = true then 1 else 0 := by
  obtain ⟨ha, hrun⟩ := hop
  intro b hb
  have hpages := pagesIn_update (isHeld M) op.reqId op.value.isSome b
  have hb := hk b hb
  rw [isHeld_update]
  cases op with
  | write r c =>
    obtain ⟨v, hrun⟩ := hrun
    have hr : InRange r := ha.1
    have hcnt := Cmd.wp_run (writeReq_cnt h hr ha.2) hrun
    simp only [Op.reqId, Op.value, Op.deletes, Option.isSome_some, and_true, and_false, if_false, add_zero,
      Bool.false_eq_true] at hpages ⊢
    cases hM : isHeld M r with
    | true =>
      simp only [hM, and_true] at hpages
      rw [hM, if_pos rfl] at hcnt
      rw [hcnt, hb]
      split_ifs at hpages <;> omega
    | false =>
      simp only [hM, and_false, if_false, Bool.false_eq_true, add_zero] at hpages
      rw [hM, if_neg Bool.false_ne_true] at hcnt
      have hcnt : t.dram.cachedPagesCnt b = if b = r >>> reqBlock
          then (s.dram.cachedPagesCnt (r >>> reqBlock) + 1) % 2 ^ 32 else s.dram.cachedPagesCnt b := by
        rw [hcnt]
        exact Function.update_apply _ _ _ _
      rw [hcnt]
      split_ifs at hpages with hbr
      · rw [if_pos hbr.symm, hbr, hb]
        omega
      · rw [if_neg fun e => hbr e.symm, hb]
        omega
  | delete r =>
    rw [Cmd.wp_run (deletePage_cnt r s) hrun, hb]
    simp only [Op.reqId, Op.value, Option.isSome_none, and_false, if_false, add_zero, Bool.false_eq_true] at hpages ⊢
    have hM : (Op.delete r).deletes M = isHeld M r := rfl
    rw [← hpages, add_assoc, Nat.add_comm (k b)]
    congr 3

theorem Served.tally (hn : n < 2 ^ 32) {ops : List Op} {k : Nat → Nat} (h : Inv n s M) (hk : Tally s M k)
    (hs : Served Op.Serves s ops t) :
    Inv n t (contents M ops) ∧ Tally t (contents M ops) fun b => k b + deletions b M ops := by
  induction hs generalizing M k with
  | nil => exact ⟨h, hk⟩
  | cons hop _ ih =>
    have hstep := Op.tally h hk hop
    obtain ⟨hinv, htally⟩ := ih ((Op.spec hn h hop.1).1 _ hop.2) hstep
    refine ⟨hinv, fun b hb => ?_⟩
    rw [htally b hb]
    simp only [deletions, Nat.add_assoc]
    rfl

/-- The scan counts the requests with a page. -/
theorem rebuild_cnt {metas : Nat → Meta} {n : Nat} (hn : n < 2 ^ 32) (fl : Nat → Nat) (b : Nat) :
    (rebuild metas n fl).cachedPagesCnt b = pagesIn (fun r => ((rebuild metas n fl).slot r).pageId1 != 0) b := by
  induction n with
  | zero =>
    exact (pagesIn_false b).symm
  | succ n ih =>
    have ih := ih (by omega)
    have hid : pageIdFromMeta n ≠ 0 := by rw [pageIdFromMeta_eq (Nat.lt_succ_self n) hn]; exact n.succ_ne_zero
    have hheld : (fun r => ((rebuild metas (n + 1) fl).slot r).pageId1 != 0) = if (metas n).valid = true
        then Function.update (fun r => ((rebuild metas n fl).slot r).pageId1 != 0) (metas n).reqId true
        else fun r => ((rebuild metas n fl).slot r).pageId1 != 0 := by
      funext r
      rw [rebuild_succ, rebuildStep_slot]
      by_cases hv : (metas n).valid = true
      · rw [if_pos hv, Function.update_apply]
        by_cases hr : r = (metas n).reqId
        · rw [if_pos ⟨hv, hr.symm⟩, if_pos hr]
          simpa using hid
        · rw [if_neg (fun h => hr h.2.symm), if_neg hr]
      · rw [if_neg hv, if_neg (fun h => hv h.1)]
    rw [hheld, rebuild_succ, rebuildStep]
    generalize rebuild metas n fl = d at ih
    cases hv : (metas n).valid with
    | false =>
      simp only [Bool.false_eq_true, if_true, if_false]
      exact ih
    | true =>
      have hpages := pagesIn_update (fun r => (d.slot r).pageId1 != 0) (metas n).reqId true b
      simp only [and_true] at hpages
      simp only [if_true, if_false, reduceCtorEq]
      split_ifs with hslot
      · have hle := pagesIn_le (Function.update (fun r => (d.slot r).pageId1 != 0) (metas n).reqId true) b
        have hnot : ((d.slot (metas n).reqId).pageId1 != 0) = false := by simpa using hslot
        simp only [hnot, and_false, if_false, add_zero, Bool.false_eq_true] at hpages
        show Function.update d.cachedPagesCnt ((metas n).reqId >>> reqBlock)
          ((d.cachedPagesCnt ((metas n).reqId >>> reqBlock) + 1) % 2 ^ 32) b = _
        rw [Function.update_apply]
        simp only [blockPageNum] at hle
        split_ifs at hpages with hbr
        · rw [if_pos hbr.symm, hbr, ih]
          omega
        · rw [if_neg fun e => hbr e.symm, ih]
          omega
      · have hheld : ((d.slot (metas n).reqId).pageId1 != 0) = true := by simpa using hslot
        simp only [hheld, and_true] at hpages
        show d.cachedPagesCnt b = _
        rw [ih]
        omega

/-- The cache after `cbs_init`: with no page on a new file, and with the pages that the pool stores on a used one. -/
inductive Opened (n : Nat) : St → (Nat → Option Page) → Prop
  | fresh {base : Nat} {s t : St} {v : Int} : s.pool.magicNumber ≠ magicNumber →
      Cmd.Run Evicts (fun _ k => k = 0) (cbsInit base n) s v t → Opened n t fun _ => none
  | used {base : Nat} {s t : St} {v : Int} {M : Nat → Option Page} : Stored n s.pool M →
      (cbsInit base n).exec s.reboot = some (v, t) → Opened n t M

theorem Opened.inv (hn : n < 2 ^ 32) (h : Opened n s M) : Inv n s M := by
  cases h with
  | fresh hm hr => exact (Cmd.wp_run (cbsInit_fresh hm) hr).2
  | used hM hr =>
    rw [exec_reboot hM.magic] at hr
    cases hr
    exact hM.restarted hn _

theorem Opened.exact (hn : n < 2 ^ 32) (h : Opened n s M) {b : Nat} (hb : b < diskBlockNum) :
    s.dram.cachedPagesCnt b = pagesIn (isHeld M) b := by
  have hinv := h.inv hn
  cases h with
  | fresh hm hr =>
    have hdram := Cmd.wp_run (cbsInit_dram _ _ _) hr
    rw [if_neg hm] at hdram
    obtain ⟨d, hd⟩ := hdram
    rw [hd]
    exact (pagesIn_false b).symm
  | @used base s _ _ M hM hr =>
    rw [exec_reboot hM.magic] at hr
    cases hr
    refine (rebuild_cnt hn _ b).trans (pagesIn_congr hb fun r hr => ?_)
    obtain ⟨k, -, hslot⟩ := rebuild_slot_one s.pool.metas n (fun _ => 0) r
    have hslot' : (restarted base n s.pool fun _ => 0).dram.slot r = ⟨k, 0⟩ := hslot
    rw [hslot, isHeld]
    cases hMr : M r with
    | none =>
      rw [hinv.slotNone r hr hMr] at hslot'
      cases hslot'
      rfl
    | some c =>
      obtain ⟨i, -, -, href, -⟩ := hinv.page hr hMr
      rw [hslot'] at href
      rcases href with href | href
      · cases href
        rfl
      · cases href

theorem Inv.isSome (h : Inv n s M) (hr : InRange r) : (readReq s r).isSome = isHeld M r := by
  rw [isHeld, ← h.read hr, readContent, Option.isSome_map]

/-- **On persistent memory** the counters are exact if and only if the deletions in every block are a multiple of
`2 ^ 32`. -/
theorem pmem_exact_iff (hn : n < 2 ^ 32) {ops : List Op} (h : Opened n s M) (hs : Served Op.Serves s ops t) :
    Exact t.dram.cachedPagesCnt (getCachedCount t) (fun r => (readReq t r).isSome) ↔
      ∀ b < diskBlockNum, 2 ^ 32 ∣ deletions b M ops := by
  have hstart : Tally s M fun _ => 0 := by
    intro b hb
    have hle := pagesIn_le (isHeld M) b
    simp only [blockPageNum] at hle
    show _ = (pagesIn (isHeld M) b + 0) % 2 ^ 32
    rw [h.exact hn hb]
    omega
  obtain ⟨hinv, htally⟩ := Served.tally hn (h.inv hn) hstart hs
  have hheld : ∀ r, InRange r → (readReq t r).isSome = isHeld (contents M ops) r := fun r hr => hinv.isSome hr
  have hblock : ∀ b < diskBlockNum, (t.dram.cachedPagesCnt b = pagesIn (fun r => (readReq t r).isSome) b ↔
      2 ^ 32 ∣ deletions b M ops) := by
    intro b hb
    have hle := pagesIn_le (isHeld (contents M ops)) b
    simp only [blockPageNum] at hle
    rw [htally b hb, pagesIn_congr hb hheld]
    simp only [Nat.zero_add]
    omega
  constructor
  · intro hex b hb
    exact (hblock b hb).mp (hex.blocks b hb)
  · intro hdvd
    have hcnt : ∀ b < diskBlockNum, t.dram.cachedPagesCnt b = pagesIn (fun r => (readReq t r).isSome) b :=
      fun b hb => (hblock b hb).mpr (hdvd b hb)
    exact ⟨hcnt, (total_iff hcnt _).mpr rfl⟩

end Pmem

/-! ## A memory kind -/

namespace Memkind

/-- One operation of the store, when a page can be had. -/
def Serves (op : Op) (s t : St) : Prop :=
  InRange op.reqId ∧ match op with
    | .write r c => ∃ v, Cmd.Run (fun s t => s = t) Ask.Granted (writeReq r c) s v t
    | .delete r => Cmd.Run (fun s t => s = t) Ask.Granted (deletePage r) s () t

variable {s t : St} {M : Nat → Option Page}

/-- The store holds the pages of the map. -/
structure Holds (s : St) (M : Nat → Option Page) : Prop where
  sound : Sound s
  content : ∀ r, InRange r → readContent s r = M r

theorem Holds.serves (h : Holds s M) {op : Op} (hop : Serves op s t) :
    Holds t (Function.update M op.reqId op.value) ∧ t.cachedPagesCnt = s.cachedPagesCnt := by
  obtain ⟨hr, hrun⟩ := hop
  cases op with
  | write r c =>
    obtain ⟨v, hrun⟩ := hrun
    obtain ⟨-, ⟨p, hw⟩ | ⟨-, -, k, hk, hk0⟩⟩ := Cmd.wp_run (writeReq_spec h.sound hr) hrun
    · refine ⟨⟨hw.sound h.sound hr, fun q hq => ?_⟩, hw.cachedPagesCnt⟩
      show _ = Function.update M r (some c) q
      rw [hw.content h.sound hr hq, Function.update_apply, h.content q hq]
      rfl
    · exact absurd hk hk0
  | delete r =>
    have hdel := Cmd.wp_run (deletePage_spec h.sound hr) hrun
    refine ⟨⟨hdel.sound h.sound hr, fun q hq => ?_⟩, hdel.cachedPagesCnt⟩
    show _ = Function.update M r none q
    rw [hdel.content hq, Function.update_apply, h.content q hq]
    rfl

/-- When a page can be had, an operation returns. -/
theorem serves_returns (h : Sound s) {op : Op} (hr : InRange op.reqId) : ∃ t, Serves op s t := by
  cases op with
  | write r c =>
    obtain ⟨v, t, hexec, -⟩ := Cmd.wp_exec (fun _ => rfl) granted_zero (writeReq_spec (G := Ask.Granted) (c := c) h hr)
      (total_writeReq r c)
    exact ⟨t, hr, v, Cmd.exec_run (fun _ => rfl) granted_zero hexec⟩
  | delete r =>
    obtain ⟨_, t, hexec, -⟩ := Cmd.wp_exec (fun _ => rfl) granted_zero (deletePage_spec (G := Ask.Granted) h hr)
      (total_deletePage r)
    exact ⟨t, hr, Cmd.exec_run (fun _ => rfl) granted_zero hexec⟩

/-- **No counter ever moves.** -/
theorem Holds.served {ops : List Op} (h : Holds s M) (hs : Served Serves s ops t) :
    Holds t (contents M ops) ∧ t.cachedPagesCnt = s.cachedPagesCnt := by
  induction hs generalizing M with
  | nil => exact ⟨h, rfl⟩
  | cons hop _ ih =>
    obtain ⟨hstep, hcnt⟩ := h.serves hop
    obtain ⟨hend, hrest⟩ := ih hstep
    exact ⟨hend, hrest.trans hcnt⟩

theorem Cleared.holds (h : Cleared s) : Holds s fun _ => none := by
  refine ⟨h.sound, fun r hr => ?_⟩
  rw [readContent_eq hr, if_pos (h.page r)]

/-- **On a memory kind** the counters are exact if and only if no request holds a page. -/
theorem memkind_exact_iff {ops : List Op} (h : Cleared s) (hs : Served Serves s ops t) :
    Exact t.cachedPagesCnt (getCachedCount t) (fun r => (readReq t r).isSome) ↔
      ∀ r, InRange r → contents (fun _ => none) ops r = none := by
  obtain ⟨hend, hcnt⟩ := h.holds.served hs
  rw [h.cachedPagesCnt] at hcnt
  have hheld : ∀ r, InRange r → (readReq t r).isSome = isHeld (contents (fun _ => none) ops) r := by
    intro r hr
    rw [isHeld, ← hend.content r hr, readContent, Option.isSome_map]
  constructor
  · intro hex r hr
    have hzero : pagesAll (fun r => (readReq t r).isSome) = 0 := by
      rw [pagesAll_eq_sum]
      refine Finset.sum_eq_zero fun b hb => ?_
      rw [← hex.blocks b (Finset.mem_range.mp hb), hcnt]
    have hno := pagesAll_eq_zero hzero hr
    rw [hheld r hr] at hno
    simpa [isHeld] using hno
  · intro hno
    have hblocks : ∀ b < diskBlockNum, t.cachedPagesCnt b = pagesIn (fun r => (readReq t r).isSome) b := by
      intro b hb
      rw [hcnt, ← pagesIn_false b]
      refine (pagesIn_congr hb fun r hr => ?_).symm
      rw [hheld r hr, isHeld, hno r hr]
      rfl
    exact ⟨hblocks, (total_iff hblocks _).mpr rfl⟩

end Memkind

/-! ## Persistent objects -/

namespace Pmemobj
open PmemProgram.Lib.Tx

variable {G : Ask → Nat → Prop} {s t : Store Cell.Val} {r : Nat} {c : Page}

/-- The counter of a block; a block that is not there has no pages. -/
def blockCnt (s : Store Cell.Val) (b : Nat) : Nat :=
  if s.mem (.blocks b) = (0 : Nat) then 0 else s.mem (.cachedPageCnt (s.mem (.blocks b)))

/-- `read_req` returns a pointer. -/
def held (s : Store Cell.Val) (r : Nat) : Bool := oid s (pageRef r) != 0

/-- The reference to the page `i` of a block object is not null. -/
def refers (s : Store Cell.Val) (o i : Nat) : Bool := (s.mem (.pages o i) : Nat) != 0

/-- The references in a block object. -/
def pagesOf (s : Store Cell.Val) (o : Nat) : Nat := Nat.count (fun i => refers s o i) blockPageNum

/-- No transaction is open, and every block has counted its references. -/
structure Counted (s : Store Cell.Val) : Prop where
  idle : s.Idle
  cnt : ∀ b, oid s (.block b) ≠ 0 → s.mem (.cachedPageCnt (oid s (.block b))) = pagesOf s (oid s (.block b))

theorem Created.counted (h : Created s) : Counted s := ⟨h.idle, fun _ hb => absurd (h.oid _) hb⟩

/-- A write that returns has used live objects. -/
theorem usable_of_run (h : Cmd.Run (fun s t => s = t) G (writeReq r c) s () t) : Usable s r := by
  obtain ⟨_, s₁, hcheck, h₁⟩ := Cmd.run_bind h
  obtain ⟨_, s₂, hbegin, h₂⟩ := Cmd.run_bind h₁
  rw [(Cmd.run_check_iff.mp hcheck).2] at hbegin
  rw [Cmd.run_step_iff.mp hbegin] at h₂
  obtain ⟨_, _, hpage, -⟩ := Cmd.run_bind h₂
  obtain ⟨_, s₃, hload, h₃⟩ := Cmd.run_bind hpage
  obtain ⟨rfl, rfl⟩ := Cmd.run_get_iff.mp hload
  by_cases ho : oid s (.block (r >>> reqBlock)) = 0
  · exact ⟨fun hne => absurd ho hne, fun hne => absurd (oid_page_none ho) hne⟩
  · have ho' : ¬ s.begin.mem (.blocks (r >>> reqBlock)) = (0 : Nat) := ho
    rw [if_neg ho'] at h₃
    obtain ⟨_, s₄, hdirect, h₄⟩ := Cmd.run_bind h₃
    obtain ⟨hblock, rfl⟩ := run_direct_iff.mp hdirect
    obtain ⟨_, s₅, hload, h₅⟩ := Cmd.run_bind h₄
    obtain ⟨rfl, rfl⟩ := Cmd.run_get_iff.mp hload
    refine ⟨fun _ => hblock, fun hq => ?_⟩
    have hoid : oid s (pageRef r) = s.mem (.pages (s.mem (.blocks (r >>> reqBlock))) (r &&& reqPage)) := oid_page ho
    have hq' : ¬ s.begin.mem (.pages (s.begin.mem (.blocks (r >>> reqBlock))) (r &&& reqPage)) = (0 : Nat) :=
      fun hz => hq (hoid.trans hz)
    rw [if_neg hq'] at h₅
    obtain ⟨_, _, hdirect, -⟩ := Cmd.run_bind h₅
    rw [hoid]
    exact (run_direct_iff.mp hdirect).1

/-- The references of a block after a write: its page is one of them, and a new block had none. -/
theorem Placed.pagesOf {u : Store Cell.Val} {b i o q : Nat} (h : Placed s b i c u o q) (hi : i < blockPageNum) :
    Pmemobj.pagesOf u o + (if oid s (.page b i) = 0 then 0 else 1) =
      (if oid s (.block b) = 0 then 0 else Pmemobj.pagesOf s o) + 1 := by
  obtain ⟨old, hold⟩ : ∃ old : Nat → Bool, old = if oid s (.block b) = 0 then fun _ => false else refers s o := ⟨_, rfl⟩
  have hrefs : ∀ i' < blockPageNum, refers u o i' = Function.update old i true i' := by
    intro i' hi'
    rw [refers, h.pages o i' hi', Function.update_apply, hold]
    by_cases hii : i' = i
    · rw [if_pos ⟨rfl, hii⟩, if_pos hii]
      exact bne_iff_ne.mpr h.page.1
    · rw [if_neg fun hc => hii hc.2, if_neg hii]
      split_ifs with hc hb hb
      · rfl
      · exact absurd hc.2 hb
      · exact absurd ⟨rfl, hb⟩ hc
      · rfl
  have hcount := count_update old i true blockPageNum
  rw [← count_congr hrefs, if_pos (⟨hi, rfl⟩ : i < blockPageNum ∧ true = true)] at hcount
  by_cases hb : oid s (.block b) = 0
  · rw [if_pos hb] at hold
    rw [if_pos hb, if_pos (oid_page_none hb)]
    subst hold
    rw [if_neg fun hc => Bool.false_ne_true hc.2, count_false] at hcount
    exact hcount
  · rw [if_neg hb] at hold
    have hp : oid s (.page b i) = s.mem (.pages o i) := by rw [oid_page hb, h.block.2.2 hb]
    subst hold
    rw [if_neg hb]
    by_cases hz : oid s (.page b i) = 0
    · rw [if_neg fun hc => (bne_iff_ne.mp hc.2) (hp.symm.trans hz)] at hcount
      rw [if_pos hz]
      exact hcount
    · rw [if_pos ⟨hi, bne_iff_ne.mpr fun heq => hz (hp.trans heq)⟩] at hcount
      rw [if_neg hz]
      exact hcount

theorem Counted.write (h : Counted s) (hrun : Cmd.Run (fun s t => s = t) Ask.Granted (writeReq r c) s () t) :
    Counted t := by
  have hwp := writeReq_placed (G := Ask.Granted) (c := c) h.idle (usable_of_run hrun) (Or.inr fun _ hk => hk)
  obtain ⟨u, o, q, hplaced, rfl⟩ := Cmd.wp_run hwp hrun
  rw [Store.finish_outermost hplaced.depth]
  refine ⟨Store.idle_closed _ _, fun b hb => ?_⟩
  change u.mem (.blocks b) ≠ (0 : Nat) at hb
  change u.mem (.cachedPageCnt (u.mem (.blocks b))) = pagesOf u (u.mem (.blocks b))
  have hle : pagesOf s o ≤ blockPageNum := Nat.count_le _
  have hpages := hplaced.pagesOf (reqPage_lt r)
  by_cases ho : u.mem (.blocks b) = o
  · rw [ho, hplaced.cnt]
    simp only [blockPageNum] at hle
    have hcnt : oid s (.block (r >>> reqBlock)) ≠ 0 → s.mem (.cachedPageCnt o) = pagesOf s o := by
      intro hne
      rw [← hplaced.block.2.2 hne]
      exact h.cnt _ hne
    by_cases hblock : oid s (.block (r >>> reqBlock)) = 0
    · rw [if_pos ⟨rfl, oid_page_none hblock⟩, if_pos hblock]
      rw [if_pos hblock, if_pos (oid_page_none hblock)] at hpages
      show (0 + 1) % 2 ^ 64 = pagesOf u o
      omega
    · rw [if_neg hblock, hcnt hblock]
      rw [if_neg hblock] at hpages
      by_cases hp : oid s (.page (r >>> reqBlock) (r &&& reqPage)) = 0
      · rw [if_pos hp] at hpages
        rw [if_pos ⟨rfl, hp⟩]
        show (pagesOf s o + 1) % 2 ^ 64 = pagesOf u o
        omega
      · rw [if_neg hp] at hpages
        rw [if_neg fun hc => hp hc.2]
        show pagesOf s o = pagesOf u o
        omega
  · have hbr : b ≠ r >>> reqBlock := fun heq => ho ((hplaced.blocks b).trans (if_pos heq))
    have hsame : u.mem (.blocks b) = s.mem (.blocks b) := (hplaced.blocks b).trans (if_neg hbr)
    rw [hplaced.cnt, if_neg fun hc => ho hc.1, hsame]
    rw [hsame] at ho hb
    refine (h.cnt b hb).trans (count_congr fun i' hi' => ?_)
    rw [refers, refers, hplaced.pages _ _ hi', if_neg fun hc => ho hc.1, if_neg fun hc => ho hc.1]
    rfl

theorem run_findPage {q : Nat} (h : Cmd.Run (fun s t => s = t) G (findPage r) s q t) : t = s := by
  obtain ⟨_, s₁, hload, h₁⟩ := Cmd.run_bind h
  rw [(Cmd.run_get_iff.mp hload).2] at h₁
  split_ifs at h₁ with ho
  · exact (Cmd.run_pure_iff.mp h₁).2
  · obtain ⟨_, s₂, hdirect, h₂⟩ := Cmd.run_bind h₁
    rw [(run_direct_iff.mp hdirect).2] at h₂
    exact (Cmd.run_get_iff.mp h₂).2

theorem run_readReq {x : Option Page} (h : Cmd.Run (fun s t => s = t) G (readReq r) s x t) : t = s := by
  obtain ⟨q, s₁, hfind, h₁⟩ := Cmd.run_bind h
  rw [run_findPage hfind] at h₁
  split_ifs at h₁ with hq
  · exact (Cmd.run_pure_iff.mp h₁).2
  · obtain ⟨_, s₂, hdirect, h₂⟩ := Cmd.run_bind h₁
    rw [(run_direct_iff.mp hdirect).2] at h₂
    obtain ⟨_, s₃, hload, h₃⟩ := Cmd.run_bind h₂
    rw [(Cmd.run_get_iff.mp hload).2] at h₃
    exact (Cmd.run_pure_iff.mp h₃).2

/-- A deletion frees at most an object; it changes no cell. -/
theorem run_deletePage (h : Cmd.Run (fun s t => s = t) G (deletePage r) s () t) :
    t = s ∨ ∃ q, t = (s.begin.free q).finish := by
  obtain ⟨q, s₁, hfind, h₁⟩ := Cmd.run_bind h
  rw [run_findPage hfind] at h₁
  split_ifs at h₁ with hq
  · exact Or.inl (Cmd.run_pure_iff.mp h₁).2
  · obtain ⟨_, s₂, hbegin, h₂⟩ := Cmd.run_bind h₁
    rw [Cmd.run_step_iff.mp hbegin] at h₂
    obtain ⟨_, s₃, hfree, hend⟩ := Cmd.run_bind h₂
    obtain ⟨_, s₄, hdirect, hfree⟩ := Cmd.run_bind hfree
    rw [(run_direct_iff.mp hdirect).2] at hfree
    rw [Cmd.run_step_iff.mp hfree] at hend
    exact Or.inr ⟨q, Cmd.run_step_iff.mp hend⟩

theorem Counted.perform (h : Counted s) {op : Op} {x : Option Page}
    (hrun : Cmd.Run (fun s t => s = t) Ask.Granted op.perform s x t) : Counted t := by
  cases op with
  | write r c =>
    obtain ⟨_, s₁, hwrite, hret⟩ := Cmd.run_bind hrun
    rw [(Cmd.run_pure_iff.mp hret).2]
    exact h.write hwrite
  | read r =>
    rw [run_readReq hrun]
    exact h
  | delete r =>
    obtain ⟨_, s₁, hdel, hret⟩ := Cmd.run_bind hrun
    rw [(Cmd.run_pure_iff.mp hret).2]
    rcases run_deletePage hdel with rfl | ⟨q, rfl⟩
    · exact h
    · have hdepth : (s.begin.free q).depth ≤ 1 := (congrArg (· + 1) h.idle.depth).le
      rw [Store.finish_outermost hdepth]
      exact ⟨Store.idle_closed _ _, h.cnt⟩

theorem Counted.serveAll (h : Counted s) {ops : List Op} {xs : List (Option Page)}
    (hrun : Cmd.Run (fun s t => s = t) Ask.Granted (serveAll ops) s xs t) : Counted t := by
  induction ops generalizing s xs with
  | nil =>
    rw [(Cmd.run_pure_iff.mp hrun).2]
    exact h
  | cons op ops ih =>
    obtain ⟨x, s₁, hop, h₁⟩ := Cmd.run_bind hrun
    obtain ⟨ys, s₂, hops, h₂⟩ := Cmd.run_bind h₁
    obtain rfl := (Cmd.run_pure_iff.mp h₂).2
    exact ih (h.perform hop) hops

theorem Counted.blocks (h : Counted s) (b : Nat) : blockCnt s b = pagesIn (held s) b := by
  have hheld : ∀ i < blockPageNum, held s (b * blockPageNum + i) =
      if oid s (.block b) = 0 then false else refers s (oid s (.block b)) i := by
    intro i hi
    have hplace : pageRef (b * blockPageNum + i) = .page b i := by
      have hblock : (b * blockPageNum + i) >>> reqBlock = b := by
        rw [Nat.shiftRight_eq_div_pow]
        simp only [reqBlock, blockPageNum] at hi ⊢
        omega
      have hpage : (b * blockPageNum + i) &&& reqPage = i := by
        rw [reqPage, show 0x3ff = 2 ^ 10 - 1 from rfl, Nat.and_two_pow_sub_one_eq_mod]
        simp only [blockPageNum] at hi ⊢
        omega
      rw [pageRef, hblock, hpage]
    rw [held, hplace]
    split_ifs with hb
    · rw [oid_page_none hb]
      rfl
    · rw [oid_page hb]
      rfl
  by_cases hb : oid s (.block b) = 0
  · have hzero : blockCnt s b = 0 := if_pos hb
    rw [hzero, pagesIn, count_congr (g := fun _ => false) fun i hi => (hheld i hi).trans (if_pos hb), count_false]
  · have hcnt : blockCnt s b = s.mem (.cachedPageCnt (oid s (.block b))) := if_neg hb
    rw [hcnt, h.cnt b hb, pagesIn, count_congr fun i hi => (hheld i hi).trans (if_neg hb)]
    rfl

theorem getCachedCount_eq (s : Store Cell.Val) (cnt : BitVec 32) : getCachedCount s cnt =
    ((List.range diskBlockNum).foldl (fun n b => n + BitVec.ofNat 32 (blockCnt s b)) cnt).toInt := by
  unfold getCachedCount
  congr 2
  funext n b
  unfold blockCnt
  split_ifs
  · exact (BitVec.add_zero n).symm
  · rfl

/-- The pages that are counted are live. -/
def AllLive (s : Store Cell.Val) : Prop := ∀ r, InRange r → held s r = true → oid s (pageRef r) ∈ s.live

/-- **With persistent objects** the counters of the blocks count the references in them. They are exact, and
`get_cached_count` is if and only if its variable happens to be 0; a page that has been deleted is still counted. -/
theorem pmemobj_exact_iff {ops : List Op} (h : Created s) (hr : ∀ op ∈ ops, InRange op.reqId) :
    (∀ cnt xs t, Cmd.Run (fun s t => s = t) Ask.Granted (serveAll ops) s xs t →
      (Exact (blockCnt t) (getCachedCount t cnt) (held t) ↔ cnt = 0#32)) ∧
    ((∀ pre, pre <+: ops → ∀ xs t, Cmd.Run (fun s t => s = t) Ask.Granted (serveAll pre) s xs t → AllLive t) ↔
      Undeleted ops) := by
  refine ⟨fun cnt xs t hrun => ?_, fun hlive => ?_, fun hops pre hpre xs t hrun r hrange hheld => ?_⟩
  · have hcounted := h.counted.serveAll hrun
    have htotal := total_iff (fun b _ => hcounted.blocks b) cnt
    rw [← getCachedCount_eq] at htotal
    exact ⟨fun hex => htotal.mp hex.total, fun hz => ⟨fun b _ => hcounted.blocks b, htotal.mpr hz⟩⟩
  · by_contra hops
    obtain ⟨pre, r, c, hpre, hundeleted, hmem⟩ := first_deleted hops
    have hmems : ∀ op ∈ pre, InRange op.reqId := fun op hop => hr op (hpre.subset (List.mem_append_left _ hop))
    have hrange : InRange r := hmems _ hmem
    have hwp := wp_serveAll h.holds (hundeleted.allowed hmems fun _ _ => rfl)
    obtain ⟨xs, t, hxs, -, ht⟩ := Cmd.wp_exec (fun _ => rfl) granted_zero hwp (total_serveAll pre)
    have hq : oid t (pageRef r) ≠ 0 := by
      intro hq
      apply answers_written (M := fun _ => none) hundeleted hmem
      rw [← ht.cached r hrange, cached, if_pos hq]
    have hdel := exec_deletePage ht.sound hrange hq
    have hserve : (serveAll [.delete r]).exec t = some ([none], (t.begin.free (oid t (pageRef r))).commit) := by
      simp only [serveAll, Machine.serveAll, Op.perform, Cmd.exec_bind, hdel, Option.bind_some, Cmd.exec_pure]
    have hrun := Machine.run_append (Cmd.exec_run (fun _ => rfl) granted_zero hxs)
      (Cmd.exec_run (fun _ => rfl) granted_zero hserve)
    have hdead := hlive _ hpre _ _ hrun r hrange (bne_iff_ne.mpr hq)
    have hlast : oid t (pageRef r) ∈ t.live.filter (· ∉ oid t (pageRef r) :: t.begin.freed) := hdead
    simp at hlast
  · have hundeleted := List.Pairwise.sublist hpre.sublist hops
    have hmems : ∀ op ∈ pre, InRange op.reqId := fun op hop => hr op (hpre.subset hop)
    have hwp := wp_serveAll h.holds (Undeleted.allowed hmems hundeleted fun _ _ => rfl)
    exact (Cmd.wp_run hwp hrun).2.sound.live _ (inRange_pageRef hrange) (bne_iff_ne.mp hheld)

end Pmemobj

/-! ## The three stores -/

/-- **The counters of cached pages.** On persistent memory they are exact if and only if the deletions in every block are
a multiple of `2 ^ 32`, on a memory kind if and only if no request holds a page; with persistent objects the blocks count
their references, the sum is right if its variable happens to be 0, and the references are to pages that are there if and
only if no page is deleted after it has been written. -/
theorem exact_iff {n : Nat} (hn : n < 2 ^ 32) :
    (∀ s M ops t, Opened n s M → Served Op.Serves s ops t →
      (Exact t.dram.cachedPagesCnt (getCachedCount t) (fun r => (readReq t r).isSome) ↔
        ∀ b < diskBlockNum, 2 ^ 32 ∣ deletions b M ops)) ∧
    (∀ s ops t, Memkind.Cleared s → Served Memkind.Serves s ops t →
      (Exact t.cachedPagesCnt (Memkind.getCachedCount t) (fun r => (Memkind.readReq t r).isSome) ↔
        ∀ r, InRange r → contents (fun _ => none) ops r = none)) ∧
    ∀ s ops, Pmemobj.Created s → (∀ op ∈ ops, InRange op.reqId) →
      (∀ cnt xs t, Cmd.Run (fun s t => s = t) Ask.Granted (Pmemobj.serveAll ops) s xs t →
        (Exact (Pmemobj.blockCnt t) (Pmemobj.getCachedCount t cnt) (Pmemobj.held t) ↔ cnt = 0#32)) ∧
      ((∀ pre, pre <+: ops → ∀ xs t, Cmd.Run (fun s t => s = t) Ask.Granted (Pmemobj.serveAll pre) s xs t →
        Pmemobj.AllLive t) ↔ Pmemobj.Undeleted ops) :=
  ⟨fun _ _ _ _ h hs => pmem_exact_iff hn h hs, fun _ _ _ h hs => Memkind.memkind_exact_iff h hs,
    fun _ _ h hr => Pmemobj.pmemobj_exact_iff h hr⟩

theorem opened_newFile (n : Nat) : Opened n (opened n) fun _ => none :=
  .fresh (show newFile.pool.magicNumber ≠ magicNumber by decide) (exec_runs (exec_newFile n))

/-- The first write is counted on persistent memory and with persistent objects; on a memory kind nothing ever is, and
request 0 is deleted again. -/
theorem exact_iff_first :
    Exact (firstWrite pmemPageNumbers).dram.cachedPagesCnt (getCachedCount (firstWrite pmemPageNumbers))
      (fun r => (readReq (firstWrite pmemPageNumbers) r).isSome) ∧
    (∃ s t, Memkind.Cleared s ∧ Served Memkind.Serves s [.write 0 (fill 1), .delete 0] t ∧
      Exact t.cachedPagesCnt (Memkind.getCachedCount t) fun r => (Memkind.readReq t r).isSome) ∧
    ∃ xs t, Cmd.Run (fun s t => s = t) Ask.Granted (Pmemobj.serveAll [.write 0 (fill 1)]) Pmemobj.emptyPool xs t ∧
      Exact (Pmemobj.blockCnt t) (Pmemobj.getCachedCount t 0#32) (Pmemobj.held t) ∧ Pmemobj.AllLive t := by
  obtain ⟨hpmem, hmemkind, hpmemobj⟩ := exact_iff (n := pmemPageNumbers) (by decide)
  refine ⟨?_, ?_, ?_⟩
  · have hserved : Served Op.Serves (opened pmemPageNumbers) [.write 0 (fill 1)] (firstWrite pmemPageNumbers) :=
      .cons (run_firstWrite (by decide)) .nil
    refine (hpmem _ _ _ _ (opened_newFile _) hserved).mpr fun b _ => ?_
    simp [deletions, Op.deletes]
  · have hcleared : Memkind.Cleared ⟨fun _ _ => 0, fun _ => 0, [], fun _ => fill 0⟩ := ⟨rfl, rfl⟩
    obtain ⟨t, ht⟩ : ∃ t, Memkind.Serves (.write 0 (fill 1)) _ t := Memkind.serves_returns hcleared.sound inRange_zero
    obtain ⟨u, hu⟩ : ∃ u, Memkind.Serves (.delete 0) t u :=
      Memkind.serves_returns (hcleared.holds.serves ht).1.sound inRange_zero
    have hserved := Served.cons ht (.cons hu .nil)
    refine ⟨_, u, hcleared, hserved, (hmemkind _ _ _ hcleared hserved).mpr fun r _ => ?_⟩
    by_cases hr : r = 0
    · simp [contents, Op.reqId, Op.value, hr]
    · simp [contents, Op.reqId, Op.value, hr]
  · have hcreated := Pmemobj.created_emptyPool
    have hrange : ∀ op ∈ [Pmemobj.Op.write 0 (fill 1)], InRange op.reqId := by
      simp [Pmemobj.Op.reqId, inRange_zero]
    have hundeleted : Pmemobj.Undeleted [.write 0 (fill 1)] := List.pairwise_singleton ..
    obtain ⟨hexact, hlive⟩ := hpmemobj _ _ hcreated hrange
    have hwp := Pmemobj.wp_serveAll hcreated.holds (hundeleted.allowed hrange fun _ _ => rfl)
    obtain ⟨xs, t, hxs, -⟩ := Cmd.wp_exec (fun _ => rfl) granted_zero hwp (Pmemobj.total_serveAll _)
    have hrun := Cmd.exec_run (R := fun s t => s = t) (fun _ => rfl) granted_zero hxs
    exact ⟨xs, t, hrun, (hexact _ _ _ hrun).mpr rfl, hlive.mpr hundeleted _ (List.prefix_refl _) _ _ hrun⟩

/-- Request 0 is written and deleted, and still counted on persistent memory; written, it is not counted on a memory
kind. -/
theorem counters_drift :
    (¬ ∀ s M ops t, Opened pmemPageNumbers s M → Served Op.Serves s ops t →
      Exact t.dram.cachedPagesCnt (getCachedCount t) (fun r => (readReq t r).isSome)) ∧
    ¬ ∀ s ops t, Memkind.Cleared s → Served Memkind.Serves s ops t →
      Exact t.cachedPagesCnt (Memkind.getCachedCount t) (fun r => (Memkind.readReq t r).isSome) := by
  refine ⟨fun h => ?_, fun h => ?_⟩
  · have hopened := opened_newFile pmemPageNumbers
    have hfirst := run_firstWrite (n := pmemPageNumbers) (by decide)
    have hinv := (Op.spec (by decide) (hopened.inv (by decide)) hfirst.1).1 _ hfirst.2
    have hallowed : (Op.delete 0).Allowed (firstWrite pmemPageNumbers) := ⟨inRange_zero, trivial⟩
    obtain ⟨t, ht⟩ := Op.returns (by decide) hinv hallowed
    have hserved : Served Op.Serves (opened pmemPageNumbers) [.write 0 (fill 1), .delete 0] t :=
      .cons hfirst (.cons ⟨hallowed, ht⟩ .nil)
    have hdvd := (pmem_exact_iff (by decide) hopened hserved).mp (h _ _ _ _ hopened hserved) 0 (by decide)
    have hone : deletions 0 (fun _ => none) [.write 0 (fill 1), .delete 0] = 1 := rfl
    rw [hone] at hdvd
    exact absurd (Nat.le_of_dvd Nat.one_pos hdvd) (by decide)
  · have hcleared : Memkind.Cleared ⟨fun _ _ => 0, fun _ => 0, [], fun _ => fill 0⟩ := ⟨rfl, rfl⟩
    obtain ⟨t, ht⟩ : ∃ t, Memkind.Serves (.write 0 (fill 1)) _ t := Memkind.serves_returns hcleared.sound inRange_zero
    have hserved : Served Memkind.Serves _ [.write 0 (fill 1)] t := .cons ht .nil
    have hnone := (Memkind.memkind_exact_iff hcleared hserved).mp (h _ _ _ hcleared hserved) 0 inRange_zero
    cases hnone

end PmemProgram.Cbs
