import PmemProgram.Cbs.PmemOps

/-!
# The page cache and power failures

`single_crash_atomic` : after any history and one failure, `cbs_init` brings back every completed write, and the
operation in flight happened as a whole or not at all.

`never_undone` : over any number of failures and restarts the same holds, as long as no restart finds two valid
pages of one request. `cbs_init` keeps only the last page of the scan and leaves the other one valid, so that a
later restart can bring it back (`write_undone`).
-/

namespace PmemProgram.Cbs
open PmemProgram.Lib

/-! ## Histories -/

inductive Op
  | write (reqId : Nat) (content : Page)
  | delete (reqId : Nat)

def Op.reqId : Op → Nat
  | write r _ => r
  | delete r => r

/-- What the request holds after the operation. -/
def Op.value : Op → Option Page
  | write _ c => some c
  | delete _ => none

/-- The request id is in range and a write finds a free page. -/
def Op.Allowed (op : Op) (s : St) : Prop :=
  InRange op.reqId ∧ match op with
    | write _ _ => 0 < s.dram.freeNum
    | delete _ => True

/-- The operation returns in `t`. -/
def Op.Run (op : Op) (s t : St) : Prop :=
  match op with
  | write r c => ∃ v, Cmd.Run Evicts (fun _ k => k = 0) (writeReq r c) s v t
  | delete r => Cmd.Run Evicts (fun _ k => k = 0) (deletePage r) s () t

/-- A power failure during the operation leaves `t`. -/
def Op.Crash (op : Op) (s t : St) : Prop :=
  match op with
  | write r c => Cmd.Crash Evicts (fun _ k => k = 0) (writeReq r c) s t
  | delete r => Cmd.Crash Evicts (fun _ k => k = 0) (deletePage r) s t

theorem Op.spec {n : Nat} (hn : n < 2 ^ 32) {s : St} {M : Nat → Option Page} (h : Inv n s M) {op : Op}
    (ha : op.Allowed s) :
    (∀ t, op.Run s t → Inv n t (Function.update M op.reqId op.value)) ∧
      ∀ t, op.Crash s t → Image n t.pool M op.reqId op.value := by
  cases op with
  | write r c =>
    have hw := writeReq_spec (c := c) hn h ha.1 ha.2
    exact ⟨fun t ⟨_, ht⟩ => (Cmd.wp_run hw ht).2, fun t ht => Cmd.wp_crash hw ht⟩
  | delete r =>
    have hd := deletePage_spec h ha.1
    exact ⟨fun t ht => Cmd.wp_run hd ht, fun t ht => Cmd.wp_crash hd ht⟩

/-- A pool of `n` pages is initialised and then changed by operations; `M` is the map of the completed ones. -/
inductive History (n : Nat) : St → (Nat → Option Page) → Prop
  | init {base : Nat} {s t : St} {v : Int} : s.pool.magicNumber ≠ magicNumber →
      Cmd.Run Evicts (fun _ k => k = 0) (cbsInit base n) s v t → History n t fun _ => none
  | op {s t : St} {M : Nat → Option Page} {op : Op} : History n s M → op.Allowed s → op.Run s t →
      History n t (Function.update M op.reqId op.value)

theorem History.inv {n : Nat} (hn : n < 2 ^ 32) {s : St} {M : Nat → Option Page} (h : History n s M) : Inv n s M := by
  induction h with
  | init hm hr => exact (Cmd.wp_run (cbsInit_fresh hm) hr).2
  | op _ ha hr ih => exact (Op.spec hn ih ha).1 _ hr

/-- **One failure.** After any history, a failure between two operations or inside one, and `cbs_init`: every request
not being operated on reads its last completed content, the one in flight its content before or after. -/
theorem single_crash_atomic {n : Nat} (hn : n < 2 ^ 32) {s : St} {M : Nat → Option Page} (h : History n s M)
    (base : Nat) :
    (∃ t, (cbsInit base n).exec s.reboot = some (0, t) ∧ ∀ q, InRange q → readContent t q = M q) ∧
      ∀ (op : Op) (u : St), op.Allowed s → op.Crash s u → ∃ t, (cbsInit base n).exec u.reboot = some (0, t) ∧
        (∀ q, InRange q → q ≠ op.reqId → readContent t q = M q) ∧
        (readContent t op.reqId = M op.reqId ∨ readContent t op.reqId = op.value) := by
  have hi := h.inv hn
  refine ⟨⟨_, exec_reboot hi.magic, fun q hq => (hi.sole q hq).restarted hn hq⟩, fun op u ha hc => ?_⟩
  have him := (Op.spec hn hi ha).2 u hc
  refine ⟨_, exec_reboot him.magic, fun q hq hne => (him.other q hq hne).restarted hn hq, ?_⟩
  rcases him.this with hs | hs | ⟨c, c', hM, hv, ht⟩
  · exact Or.inl (hs.restarted hn ha.1)
  · exact Or.inr (hs.restarted hn ha.1)
  · rw [hM, hv]
    exact ht.restarted hn ha.1

/-! ## Repeated failures -/

/-- The life of a pool: operations, restarts, and failures inside operations followed by a restart. `L r` are the
contents `r` may have: the last completed one, and those of later operations that a failure cut short. Every restart
finds a pool that satisfies `ok`. -/
inductive Life (n : Nat) (ok : Pool → Prop) : St → (Nat → Set (Option Page)) → Prop
  | init {base : Nat} {s t : St} {v : Int} : s.pool.magicNumber ≠ magicNumber →
      Cmd.Run Evicts (fun _ k => k = 0) (cbsInit base n) s v t → Life n ok t fun _ => {none}
  | op {s t : St} {L : Nat → Set (Option Page)} {op : Op} : Life n ok s L → op.Allowed s → op.Run s t →
      Life n ok t (Function.update L op.reqId {op.value})
  | restart {base : Nat} {s t : St} {v : Int} {L : Nat → Set (Option Page)} : Life n ok s L → ok s.pool →
      (cbsInit base n).exec s.reboot = some (v, t) → Life n ok t L
  | crash {base : Nat} {s u t : St} {v : Int} {L : Nat → Set (Option Page)} {op : Op} : Life n ok s L →
      op.Allowed s → op.Crash s u → ok u.pool → (cbsInit base n).exec u.reboot = some (v, t) →
      Life n ok t (Function.update L op.reqId (insert op.value (L op.reqId)))

/-- No completed write is ever undone. -/
def NeverUndone (n : Nat) (ok : Pool → Prop) : Prop :=
  ∀ s L, Life n ok s L → ∀ r, InRange r → readContent s r ∈ L r

/-- No request has two valid pages. -/
def OneValid (n : Nat) (p : Pool) : Prop := ∀ r i j, Valid n p r i → Valid n p r j → i = j

/-- An image without two valid pages stores the old or the new map. -/
theorem Image.stored {n : Nat} {p : Pool} {M : Nat → Option Page} {r : Nat} {v : Option Page} (h : Image n p M r v)
    (ho : OneValid n p) : Stored n p M ∨ Stored n p (Function.update M r v) := by
  have hother : ∀ o, Sole n p r o → Stored n p (Function.update M r o) := fun o hs => by
    refine ⟨h.magic, h.range, fun q hq => ?_⟩
    by_cases hqr : q = r
    · subst hqr; rwa [Function.update_self]
    · rw [Function.update_of_ne hqr]; exact h.other q hq hqr
  rcases h.this with hs | hs | ⟨c, c', _, _, i, j, hij, hi, _, hj, _⟩
  · left
    simpa using hother _ hs
  · exact Or.inr (hother _ hs)
  · exact absurd (ho r i j hi hj) hij

theorem life_inv {n : Nat} (hn : n < 2 ^ 32) {s : St} {L : Nat → Set (Option Page)} (h : Life n (OneValid n) s L) :
    ∃ M, Inv n s M ∧ ∀ r, M r ∈ L r := by
  induction h with
  | init hm hr => exact ⟨_, (Cmd.wp_run (cbsInit_fresh hm) hr).2, fun _ => rfl⟩
  | @op s t L op _ ha hr ih =>
    obtain ⟨M, hi, hM⟩ := ih
    refine ⟨_, (Op.spec hn hi ha).1 _ hr, fun q => ?_⟩
    by_cases hq : q = op.reqId
    · subst hq; simp
    · simpa [hq] using hM q
  | restart _ _ hr ih =>
    obtain ⟨M, hi, hM⟩ := ih
    rw [exec_reboot hi.magic] at hr
    cases hr
    exact ⟨M, hi.toStored.restarted hn _, hM⟩
  | @crash base s u t v L op _ ha hc ho hr ih =>
    obtain ⟨M, hi, hM⟩ := ih
    have him := (Op.spec hn hi ha).2 _ hc
    rw [exec_reboot him.magic] at hr
    cases hr
    rcases him.stored ho with hs | hs
    · refine ⟨M, hs.restarted hn _, fun q => ?_⟩
      by_cases hq : q = op.reqId
      · subst hq
        rw [Function.update_self]
        exact Set.mem_insert_of_mem _ (hM _)
      · simpa [hq] using hM q
    · refine ⟨_, hs.restarted hn _, fun q => ?_⟩
      by_cases hq : q = op.reqId
      · subst hq; simp
      · simpa [hq] using hM q

/-- **Repeated failures.** If no restart finds two valid pages of one request, no completed write is ever undone. -/
theorem never_undone {n : Nat} (hn : n < 2 ^ 32) : NeverUndone n (OneValid n) := by
  intro s L h r hr
  obtain ⟨M, hi, hM⟩ := life_inv hn h
  rw [hi.read hr]
  exact hM r

/-! ## Two valid pages -/

section Undone
variable {s : St} {r i : Nat} {c : Page}

theorem update_clean {f : Nat → Option Meta} (h : f = fun _ => none) (i : Nat) : Function.update f i none = f := by
  rw [h]; funext j; by_cases hji : j = i <;> simp [hji]

theorem tornPage_full (c old : Page) : tornPage (fun _ => true) c old = c := by funext k; simp [tornPage]

theorem exec_writeReq_new (hr : InRange r) (hd : s.dirty = fun _ => none) (hs : s.dram.slot r = ⟨0, 0⟩)
    (hf : s.dram.freeNum ≠ 0) (hi : s.dram.freeList (s.dram.freeNum - 1) = i) :
    (writeReq r c).exec s = some (0, { s with
      pool := published s.pool i r 0 c
      dram := ((s.dram.setFreeNum (s.dram.freeNum - 1)).setSlot r
        fun b => { b with pageId1 := pageIdFromMeta i }).countPage r }) := by
  have hw := ofWord_new (show r < 2 ^ 32 by have := hr.lt; omega)
  simp only [Nat.reducePow] at hw
  simp [writeReq, hr.block, hs, writeNew, freeTop, hf, hi, copyPage, storeMeta, tornPage_full, published, hw,
    update_clean hd, St.setDram]

/-- The state in the window between publishing the new page and freeing the old one. -/
def inWindow (s : St) (r i : Nat) (c : Page) : St :=
  { s with
    pool := published s.pool i r 1 c
    dram := s.dram.setSlot r fun b => { b with pageId2 := pageIdFromMeta i } }

theorem exec_writeReq_shadow {k : Nat} (hr : InRange r) (hd : s.dirty = fun _ => none)
    (hs : s.dram.slot r = ⟨k + 1, 0⟩) (hsn : (s.pool.metas k).sn = 0) (hf : s.dram.freeNum ≠ 0)
    (hi : s.dram.freeList (s.dram.freeNum - 1) = i) :
    inWindow s r i c ∈ (writeReq r c).images s ∧
      (writeReq r c).exec s = some (0, { inWindow s r i c with
        pool := (published s.pool i r 1 c).setMeta k ⟨false, 0, 0⟩
        dram := ((inWindow s r i c).dram.setFree (s.dram.freeNum - 1) k).setSlot r
          fun b => { b with pageId1 := 0 } }) := by
  have hmeta : (s.meta k).sn = 0 := by rw [St.meta, hd]; exact hsn
  have hw := ofWord_shadow (show r < 2 ^ 32 by have := hr.lt; omega)
  simp only [Nat.reducePow, Nat.reduceShiftLeft] at hw
  constructor
  · simp [writeReq, hr.block, hs, writeShadow, resetSn, pageMetaFromId, hmeta, freeTop, hf, hi, copyPage, storeMeta,
      tornPage_full, published, hw, update_clean hd, St.setDram, inWindow]
  · simp [writeReq, hr.block, hs, writeShadow, resetSn, pageMetaFromId, hmeta, freeTop, hf, hi, copyPage, storeMeta,
      tornPage_full, published, hw, update_clean hd, St.setDram, inWindow, ofWord_zero]

/-- A power failure in the middle of the copy to the new page. -/
theorem crash_inside_copyPage {k : Nat} (hr : InRange r) (hd : s.dirty = fun _ => none) (hs : s.dram.slot r = ⟨k + 1, 0⟩)
    (hsn : (s.pool.metas k).sn = 0) (hf : s.dram.freeNum ≠ 0) (hi : s.dram.freeList (s.dram.freeNum - 1) = i)
    (m : Nat → Bool) :
    (Op.write r c).Crash s { s with pool := s.pool.setPage i (tornPage m c (s.pool.pages i)) } := by
  have hmeta : (s.meta k).sn = 0 := by rw [St.meta, hd]; exact hsn
  have hreset : (resetSn k).exec s = some ((), s) := by simp [resetSn, hmeta]
  refine .bind_right (Cmd.run_get _ s) ?_
  rw [if_neg hr.block]
  refine .bind_right (Cmd.run_get _ s) ?_
  rw [hs, if_neg fun e => absurd e.1 k.succ_ne_zero, if_pos ⟨k.succ_ne_zero, rfl⟩]
  refine .bind_left _ (.bind_right (exec_runs hreset) (.bind_right (.bind (Cmd.run_check hf s) (Cmd.run_get _ s)) ?_))
  rw [hi]
  exact .bind_left _ (.torn m .refl)

/-- In a pool whose last three pages are free, the last page of the free list is the third. -/
theorem rebuild_top {metas : Nat → Meta} {n m : Nat} {fl : Nat → Nat} (hm : m < n) (hv : (metas m).valid = false)
    (h : ∀ j, m < j → j < n → (metas j).valid = true) :
    (rebuild metas n fl).freeNum ≠ 0 ∧ (rebuild metas n fl).freeList ((rebuild metas n fl).freeNum - 1) = m := by
  have hfree := rebuild_free metas n fl
  obtain ⟨k, hk, he⟩ := hfree.all m hm hv
  refine ⟨by omega, ?_⟩
  have htop := hfree.free ((rebuild metas n fl).freeNum - 1) (by omega)
  rcases Nat.lt_trichotomy k ((rebuild metas n fl).freeNum - 1) with hlt | heq | hlt
  · have hmono := hfree.mono k _ hlt (by omega)
    have := h _ (by omega) htop.1
    rw [htop.2] at this
    cases this
  · rw [← heq, he]
  · omega

end Undone

/-- The content that fills a page with one byte. -/
def fill (b : UInt8) : Page := fun _ => b

/-- A pool after `cbs_init`: all pages free. -/
def emptyPool (n : Nat) : Pool := ⟨magicNumber, firstPageAddress 0 n, fun _ => ⟨false, 0, 0⟩, fun _ => fill 0⟩

/-- The machine before the first `cbs_init`, on a pool file of zeros. -/
def newFile : St :=
  ⟨⟨0, 0, fun _ => ⟨false, 0, 0⟩, fun _ => fill 0⟩, fun _ => none, ⟨fun _ _ => ⟨0, 0⟩, fun _ => 0, 0, fun _ => 0⟩, 0⟩

/-- The machine after it. -/
def opened (n : Nat) : St := ⟨emptyPool n, fun _ => none, allFree n newFile.dram, firstPageAddress 0 n⟩

theorem exec_newFile (n : Nat) : (cbsInit 0 n).exec newFile = some (0, opened n) := by
  have hclear : newFile.pool.clearMetas n (fun _ => true) = newFile.pool := by
    simp [Pool.clearMetas, newFile, ofWord_zero]
  have hmagic : newFile.pool.magicNumber ≠ magicNumber := by decide
  simp only [cbsInit, Cmd.exec_bind, Cmd.exec_succeeds, Option.bind_some, Cmd.exec_ite, Cmd.exec_pure, Cmd.exec_get,
    Cmd.exec_pieces, Cmd.exec_step, Cmd.exec_modify, if_pos hmagic, hclear]
  simp [St.setDram, newFile, emptyPool, opened]

/-- The pool in which request 0 has the pages `n - 1` (old) and `n - 2` (new). -/
def twinPool (n : Nat) : Pool := published (published (emptyPool n) (n - 1) 0 0 (fill 1)) (n - 2) 0 1 (fill 2)

/-- The pool after request 0 has been moved from page `n - 1` to page `n - 3`, with page `n - 2` forgotten. -/
def forgottenPool (n : Nat) : Pool := (published (twinPool n) (n - 3) 0 1 (fill 3)).setMeta (n - 1) ⟨false, 0, 0⟩

theorem metas_twinPool (n j : Nat) : (twinPool n).metas j =
    if j = n - 2 then ⟨true, 1, 0⟩ else if j = n - 1 then ⟨true, 0, 0⟩ else ⟨false, 0, 0⟩ := by
  by_cases h₂ : j = n - 2
  · subst h₂; simp [twinPool]
  · rw [if_neg h₂, twinPool, metas_published_ne h₂]
    by_cases h₁ : j = n - 1
    · subst h₁; simp
    · rw [if_neg h₁, metas_published_ne h₁]; rfl

theorem valid_forgottenPool {n j : Nat} (h3 : 3 ≤ n) :
    Valid n (forgottenPool n) 0 j ↔ j = n - 3 ∨ j = n - 2 := by
  have hv : ((twinPool n).metas (n - 3)).valid = false := by
    rw [metas_twinPool, if_neg (by omega), if_neg (by omega)]
  rw [forgottenPool, valid_setMeta, valid_published (by omega) hv]
  simp only [Valid, metas_twinPool]
  constructor
  · rintro (⟨_, _, h, _⟩ | ⟨h₁, ⟨h, _⟩ | ⟨_, h, _⟩⟩)
    · cases h
    · exact Or.inl h
    · split_ifs at h with h₂
      exact Or.inr h₂
  · rintro (rfl | rfl)
    · exact Or.inr ⟨by omega, Or.inl ⟨rfl, trivial⟩⟩
    · exact Or.inr ⟨by omega, Or.inr ⟨by omega, by simp, by simp⟩⟩

/-- Request 0 written for the first time, into page `n - 1`. -/
def firstWrite (n : Nat) : St :=
  ⟨published (emptyPool n) (n - 1) 0 0 (fill 1), fun _ => none,
    (((allFree n newFile.dram).setFreeNum (n - 1)).setSlot 0
      fun b => { b with pageId1 := pageIdFromMeta (n - 1) }).countPage 0, firstPageAddress 0 n⟩

theorem inRange_zero : InRange 0 := by unfold InRange diskBlockNum; decide

theorem run_firstWrite {n : Nat} (hn : 0 < n) :
    (Op.write 0 (fill 1)).Allowed (opened n) ∧ (Op.write 0 (fill 1)).Run (opened n) (firstWrite n) := by
  have htop : (allFree n newFile.dram).freeList ((allFree n newFile.dram).freeNum - 1) = n - 1 :=
    if_pos (show n - 1 < n by omega)
  have hw : (writeReq 0 (fill 1)).exec (opened n) = some (0, firstWrite n) :=
    exec_writeReq_new inRange_zero rfl rfl (show n ≠ 0 by omega) htop
  exact ⟨⟨inRange_zero, hn⟩, 0, exec_runs hw⟩

theorem history_firstWrite {n : Nat} (hn : 0 < n) :
    History n (firstWrite n) (Function.update (fun _ => none) 0 (some (fill 1))) :=
  (History.init (show newFile.pool.magicNumber ≠ magicNumber by decide) (exec_runs (exec_newFile n))).op
    (run_firstWrite hn).1 (run_firstWrite hn).2

theorem life_firstWrite {n : Nat} (hn : 0 < n) (ok : Pool → Prop) :
    Life n ok (firstWrite n) (Function.update (fun _ => {none}) 0 {some (fill 1)}) :=
  (Life.init (show newFile.pool.magicNumber ≠ magicNumber by decide) (exec_runs (exec_newFile n))).op
    (run_firstWrite hn).1 (run_firstWrite hn).2

theorem slot_firstWrite {n : Nat} (h0 : 0 < n) (hn : n < 2 ^ 32) : (firstWrite n).dram.slot 0 = ⟨n - 1 + 1, 0⟩ := by
  simp only [firstWrite, slot_countPage, slot_setSlot_self, pageIdFromMeta_eq (show n - 1 < n by omega) hn]
  rfl

theorem top_firstWrite {n : Nat} (h2 : 2 ≤ n) :
    (firstWrite n).dram.freeList ((firstWrite n).dram.freeNum - 1) = n - 2 :=
  if_pos (show n - 1 - 1 < n by omega)

/-- The overwriting of the first write has been cut after the first byte of the new page. -/
def tornWrite (n : Nat) : St :=
  { firstWrite n with
    pool := (firstWrite n).pool.setPage (n - 2)
      (tornPage (fun k => k == 0) (fill 2) ((firstWrite n).pool.pages (n - 2))) }

theorem crash_tornWrite {n : Nat} (h2 : 2 ≤ n) (hn : n < 2 ^ 32) :
    (Op.write 0 (fill 2)).Allowed (firstWrite n) ∧ (Op.write 0 (fill 2)).Crash (firstWrite n) (tornWrite n) :=
  ⟨⟨inRange_zero, show 0 < n - 1 by omega⟩, crash_inside_copyPage inRange_zero rfl (slot_firstWrite (by omega) hn)
    (by simp [firstWrite]) (show n - 1 ≠ 0 by omega) (top_firstWrite h2) _⟩

theorem metas_tornWrite (n j : Nat) :
    (tornWrite n).pool.metas j = if j = n - 1 then ⟨true, 0, 0⟩ else ⟨false, 0, 0⟩ := by
  by_cases hj : j = n - 1
  · subst hj
    simp [tornWrite, firstWrite]
  · rw [if_neg hj, tornWrite, metas_setPage, firstWrite, metas_published_ne hj]
    rfl

/-- After a write that is cut, and a restart, another write returns. -/
theorem life_rewritten {n : Nat} (h2 : 2 ≤ n) (hn : n < 2 ^ 32) : ∃ t L,
    (Op.write 0 (fill 3)).Run (restarted 0 n (tornWrite n).pool fun _ => 0) t ∧ Life n (OneValid n) t L ∧
      L 0 = {some (fill 3)} := by
  obtain ⟨hallowed, hcrash⟩ := crash_tornWrite h2 hn
  have hone : OneValid n (tornWrite n).pool := by
    rintro r i j ⟨-, hi, -⟩ ⟨-, hj, -⟩
    rw [metas_tornWrite] at hi hj
    split_ifs at hi hj with hin hjn
    rw [hin, hjn]
  have hlife := (life_firstWrite (show 0 < n by omega) (OneValid n)).crash hallowed hcrash hone (@exec_reboot 0 n _ rfl)
  have hfree := (@rebuild_top (tornWrite n).pool.metas n (n - 2) (fun _ => 0) (by omega)
    (by rw [metas_tornWrite, if_neg (by omega)])
    fun j h₁ h₂ => by rw [metas_tornWrite, if_pos (by omega)]).1
  have hwrite : (Op.write 0 (fill 3)).Allowed (restarted 0 n (tornWrite n).pool fun _ => 0) :=
    ⟨inRange_zero, Nat.pos_of_ne_zero hfree⟩
  have hslot : (restarted 0 n (tornWrite n).pool fun _ => 0).dram.slot 0 = ⟨n - 1 + 1, 0⟩ :=
    rebuild_slot_last _ (show n - 1 < n by omega) hn (by simp [metas_tornWrite]) fun j _ _ => by omega
  have hw := (exec_writeReq_shadow (c := fill 3) inRange_zero rfl hslot (by simp [restarted, metas_tornWrite]) hfree rfl).2
  have hrun : (Op.write 0 (fill 3)).Run (restarted 0 n (tornWrite n).pool fun _ => 0) _ := ⟨0, exec_runs hw⟩
  exact ⟨_, _, hrun, hlife.op hwrite hrun, by simp [Op.reqId, Op.value]⟩

/-- The failure leaves a page with bytes of two contents; the restart finds the old content or the new one. -/
theorem single_crash_atomic_torn : ∃ u t, (Op.write 0 (fill 2)).Crash (firstWrite pmemPageNumbers) u ∧
    u.pool.pages (pmemPageNumbers - 2) 0 = 2 ∧ u.pool.pages (pmemPageNumbers - 2) 1 = 0 ∧
    (cbsInit 0 pmemPageNumbers).exec u.reboot = some (0, t) ∧
      (readContent t 0 = some (fill 1) ∨ readContent t 0 = some (fill 2)) := by
  obtain ⟨hallowed, hcrash⟩ := crash_tornWrite (n := pmemPageNumbers) (by decide) (by decide)
  have hpage : (tornWrite pmemPageNumbers).pool.pages (pmemPageNumbers - 2) =
      tornPage (fun k => k == 0) (fill 2) ((firstWrite pmemPageNumbers).pool.pages (pmemPageNumbers - 2)) :=
    pages_setPage_self ..
  have hold : (firstWrite pmemPageNumbers).pool.pages (pmemPageNumbers - 2) = fill 0 := by
    rw [firstWrite, pages_published, if_neg (by decide)]
    rfl
  obtain ⟨t, ht, -, hread⟩ :=
    (single_crash_atomic (n := pmemPageNumbers) (by decide) (history_firstWrite (by decide)) 0).2 _ _ hallowed hcrash
  refine ⟨_, t, hcrash, ?_, ?_, ht, ?_⟩
  · rw [hpage, hold]
    rfl
  · rw [hpage, hold]
    rfl
  · simpa [Op.reqId, Op.value] using hread

/-- A write is cut, the pool restarted, and the next write returns. -/
theorem never_undone_rewritten : ∃ u t, (Op.write 0 (fill 2)).Crash (firstWrite pmemPageNumbers) u ∧
    (Op.write 0 (fill 3)).Run (restarted 0 pmemPageNumbers u.pool fun _ => 0) t ∧ readContent t 0 = some (fill 3) := by
  obtain ⟨t, L, hrun, hlife, hlast⟩ := life_rewritten (n := pmemPageNumbers) (by decide) (by decide)
  have hread := never_undone (n := pmemPageNumbers) (by decide) _ _ hlife 0 inRange_zero
  rw [hlast] at hread
  exact ⟨_, t, (crash_tornWrite (by decide) (by decide)).2, hrun, hread⟩

/-- The overwriting of the first write is cut in the window; the restart picks page `n - 1`. -/
theorem life_twinPool {n : Nat} (h3 : 3 ≤ n) (hn : n < 2 ^ 32) :
    ∃ L, Life n (fun _ => True) (restarted 0 n (twinPool n) fun _ => 0) L := by
  have hone := life_firstWrite (show 0 < n by omega) fun _ => True
  have hslot := slot_firstWrite (show 0 < n by omega) hn
  have hsn : ((firstWrite n).pool.metas (n - 1)).sn = 0 := by simp [firstWrite]
  have hcut := (exec_writeReq_shadow (c := fill 2) inRange_zero rfl hslot hsn (show n - 1 ≠ 0 by omega)
    (top_firstWrite (by omega))).1
  have hallowed : (Op.write 0 (fill 2)).Allowed (firstWrite n) := ⟨inRange_zero, show 0 < n - 1 by omega⟩
  exact ⟨_, hone.crash hallowed (images_crashes hcut) trivial (exec_reboot rfl)⟩

/-- Request 0 is written, its overwriting is cut in the window, it is written again: the restart after that brings
back the content of the write that was cut. -/
theorem write_undone {n : Nat} (h3 : 3 ≤ n) (hn : n < 2 ^ 32) : ¬ NeverUndone n fun _ => True := by
  intro hno
  obtain ⟨L, hlife⟩ := life_twinPool h3 hn
  have hslot : (restarted 0 n (twinPool n) fun _ => 0).dram.slot 0 = ⟨n - 1 + 1, 0⟩ :=
    rebuild_slot_last _ (show n - 1 < n by omega) hn (by simp [metas_twinPool, show ¬ n - 1 = n - 2 by omega])
      fun j _ _ => by omega
  have hfree := @rebuild_top (twinPool n).metas n (n - 3) (fun _ => 0) (by omega)
    (show ((twinPool n).metas (n - 3)).valid = false by rw [metas_twinPool, if_neg (by omega), if_neg (by omega)])
    (fun j h₁ h₂ => by
      rw [metas_twinPool]
      split_ifs
      · rfl
      · rfl
      · omega)
  have hsn : ((restarted 0 n (twinPool n) fun _ => 0).pool.metas (n - 1)).sn = 0 := by
    simp [restarted, metas_twinPool, show ¬ n - 1 = n - 2 by omega]
  have hw := (exec_writeReq_shadow (c := fill 3) inRange_zero rfl hslot hsn hfree.1 hfree.2).2
  have hallowed : (Op.write 0 (fill 3)).Allowed (restarted 0 n (twinPool n) fun _ => 0) :=
    ⟨inRange_zero, Nat.pos_of_ne_zero hfree.1⟩
  have hlost := (hlife.op hallowed ⟨0, exec_runs hw⟩).restart trivial (@exec_reboot 0 n _ rfl)
  have hread : readContent (restarted 0 n (forgottenPool n) fun _ => 0) 0 ∈ _ := hno _ _ hlost 0 inRange_zero
  -- page `n - 2` still holds the second content, and the scan finds it after page `n - 3`
  rw [restarted_read_last hn inRange_zero ((valid_forgottenPool h3).mpr (Or.inr rfl)) (fun j hj hv => by
    rcases (valid_forgottenPool h3).mp hv with rfl | rfl <;> omega)] at hread
  have hpage : (forgottenPool n).pages (n - 2) = fill 2 := by
    rw [forgottenPool, pages_setMeta, pages_published, if_neg (by omega), twinPool, pages_published, if_pos rfl]
  change some ((forgottenPool n).pages (n - 2)) ∈ _ at hread
  rw [hpage] at hread
  have he : (some (fill 2) : Option Page) = some (fill 3) := by simpa [Op.reqId, Op.value] using hread
  exact absurd (congrFun (Option.some.inj he) 0) (by decide)

/-- The pool of the source. -/
theorem write_undone_pool : ¬ NeverUndone pmemPageNumbers fun _ => True := write_undone (by decide) (by decide)

end PmemProgram.Cbs
