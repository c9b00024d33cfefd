import PmemProgram.Cbs.Memkind
import PmemProgram.Cbs.PmemMap
import PmemProgram.Cbs.PmemobjMap

/-!
# Writes without a page to be had

* `Reports` : a write that finds no page says so and changes nothing that is read, and one that returns 0 has written;
* `Bounded` : the pages of the free list and of the slots are pages of the pool. It holds in every state of every life,
  also when a restart has forgotten a page;
* `reports_iff` : when the writes of the three stores are such. Each returns 0 whatever happens, and the one on
  persistent memory takes a page from an empty free list.
-/

namespace PmemProgram.Cbs
open PmemProgram.Lib PmemProgram.Lib.Objects

/-- A write that finds no page says so and changes nothing that is read, and one that returns 0 has written. `x` is what
`read` finds in a request that has been written. -/
structure Reports {κ σ β : Type} (R : σ → σ → Prop) (G : κ → Nat → Prop) (write : Cmd κ σ Int) (noPage : Prop)
    (read : σ → Nat → β) (r : Nat) (x : β) (s : σ) : Prop where
  safe : ¬ Cmd.Aborts R G write s
  refused : noPage → ∀ v t, Cmd.Run R G write s v t → v ≠ 0 ∧ ∀ q, InRange q → read t q = read s q
  done : ∀ v t, Cmd.Run R G write s v t → v = 0 → read t r = x

/-! ## Persistent memory -/

/-- The pages of the free list and of the slots are pages of the pool, and no slot refers to two. -/
structure Bounded (n : Nat) (d : Dram) : Prop where
  free : ∀ j < d.freeNum, d.freeList j < n
  slot : ∀ q, ∃ k ≤ n, d.slot q = ⟨k, 0⟩ ∨ d.slot q = ⟨0, k⟩

section Pmem
variable {n : Nat} {d : Dram} {s : St} {r : Nat} {c : Page}

theorem Bounded.setSlot (h : Bounded n d) {f : BlockPage → BlockPage} {k : Nat} (hk : k ≤ n)
    (hf : f (d.slot r) = ⟨k, 0⟩ ∨ f (d.slot r) = ⟨0, k⟩) : Bounded n (d.setSlot r f) := by
  refine ⟨h.free, fun q => ?_⟩
  rw [slot_setSlot]
  split_ifs
  · exact ⟨k, hk, hf⟩
  · exact h.slot q

theorem Bounded.countPage (h : Bounded n d) (r : Nat) : Bounded n (d.countPage r) := ⟨h.free, h.slot⟩

theorem Bounded.pop (h : Bounded n d) : Bounded n (d.setFreeNum (d.freeNum - 1)) := by
  refine ⟨fun j hj => h.free j ?_, h.slot⟩
  rw [freeNum_setFreeNum] at hj
  omega

theorem Bounded.setFree (h : Bounded n d) {i : Nat} (hi : i < n) (j : Nat) : Bounded n (d.setFree j i) := by
  refine ⟨fun l hl => ?_, h.slot⟩
  rw [freeList_setFree, Function.update_apply]
  split_ifs
  · exact hi
  · exact h.free l hl

theorem Bounded.push (h : Bounded n d) {i : Nat} (hi : i < n) :
    Bounded n ((d.setFreeNum (d.freeNum + 1)).setFree d.freeNum i) := by
  refine ⟨fun j hj => ?_, h.slot⟩
  rw [freeNum_setFree, freeNum_setFreeNum] at hj
  rw [freeList_setFree, freeList_setFreeNum, Function.update_apply]
  split_ifs with hjn
  · exact hi
  · exact h.free j (by omega)

/-- The state after a write of `c` to `r`. -/
def Stores (n r : Nat) (c : Page) (t : St) : Prop := Bounded n t.dram ∧ readContent t r = some c

theorem Bounded.stores (h : Bounded n s.dram) (hr : InRange r) {i : Nat} (hi : Refers (s.dram.slot r) i)
    (hc : s.pool.pages i = c) : Stores n r c s :=
  ⟨h, by rw [readContent, readReq_refers hr hi, Option.map_some, hc]⟩

theorem writeNew_stores (hn : n < 2 ^ 32) (h : Bounded n s.dram) (hr : InRange r) (hf : s.dram.freeNum ≠ 0)
    (hslot : s.dram.slot r = ⟨0, 0⟩) :
    cwp (fun _ => True) (writeNew r c s.dram.freeNum) (fun _ t => Stores n r c t) s := by
  have hi := h.free (s.dram.freeNum - 1) (by omega)
  simp only [writeNew, freeTop, Cmd.wp_bind, Cmd.wp_check, Cmd.wp_get]
  generalize s.dram.freeList (s.dram.freeNum - 1) = i at hi ⊢
  refine ⟨hf, cwp_copy fun t₁ hd₁ hp₁ => cwp_meta fun t₂ hd₂ hp₂ => ?_⟩
  have hdram : t₂.dram = s.dram := hd₂.trans hd₁
  have hpages : t₂.pool.pages i = c := by rw [hp₂, hp₁, Function.update_self]
  rw [Cmd.wp_modify, pageIdFromMeta_eq hi hn]
  refine Bounded.stores ?_ hr (i := i) ?_ hpages
  · rw [dram_setDram, hdram]
    apply Bounded.countPage
    refine h.pop.setSlot (k := i + 1) (by omega) (Or.inl ?_)
    rw [slot_setFreeNum, hslot]
  · rw [dram_setDram, hdram, slot_countPage, slot_setSlot_self, slot_setFreeNum, hslot]
    exact Or.inl rfl

theorem writeShadow_stores (hn : n < 2 ^ 32) (h : Bounded n s.dram) (hr : InRange r) (hf : s.dram.freeNum ≠ 0)
    {k : Nat} (hk : k < n) :
    cwp (fun _ => True) (writeShadow r c s.dram.freeNum k) (fun _ t => Stores n r c t) s := by
  have hi := h.free (s.dram.freeNum - 1) (by omega)
  simp only [writeShadow, freeTop, Cmd.wp_bind, Cmd.wp_check, Cmd.wp_get]
  refine cwp_resetSn fun t₀ hd₀ hp₀ => ⟨hf, ?_⟩
  rw [hd₀]
  generalize s.dram.freeList (s.dram.freeNum - 1) = i at hi ⊢
  refine cwp_copy fun t₁ hd₁ hp₁ => cwp_meta fun t₂ hd₂ hp₂ => ?_
  rw [Cmd.wp_modify, pageIdFromMeta_eq hi hn]
  refine cwp_meta fun t₃ hd₃ hp₃ => ?_
  have hdram : t₃.dram = s.dram.setSlot r fun b => { b with pageId2 := i + 1 } := by
    rw [hd₃, dram_setDram, hd₂, hd₁, hd₀]
  have hpages : t₃.pool.pages i = c := by
    rw [hp₃]
    show t₂.pool.pages i = c
    rw [hp₂, hp₁, Function.update_self]
  rw [Cmd.wp_modify]
  refine Bounded.stores ?_ hr (i := i) ?_ hpages
  · rw [dram_setDram, hdram, setFree_setSlot, setSlot_setSlot]
    exact (h.setFree hk _).setSlot (k := i + 1) (by omega) (Or.inr rfl)
  · rw [dram_setDram, hdram, setFree_setSlot, setSlot_setSlot, slot_setSlot_self]
    exact Or.inr rfl

/-- The slot of a request refers to no page, or to one. -/
theorem Bounded.cases (h : Bounded n d) (r : Nat) : d.slot r = ⟨0, 0⟩ ∨ ∃ k < n, Refers (d.slot r) k := by
  obtain ⟨k, hk, hslot⟩ := h.slot r
  cases k with
  | zero => exact Or.inl (hslot.elim id id)
  | succ k => exact Or.inr ⟨k, hk, hslot⟩

theorem writeReq_stores (hn : n < 2 ^ 32) (h : Bounded n s.dram) (hr : InRange r) (hf : s.dram.freeNum ≠ 0) :
    cwp (fun _ => True) (writeReq r c) (fun v t => v = 0 ∧ Stores n r c t) s := by
  simp only [writeReq, Cmd.wp_bind, Cmd.wp_get, Cmd.wp_ite, Cmd.wp_pure]
  refine ⟨fun hb => absurd hb hr.block, fun _ => ?_⟩
  rcases h.cases r with hslot | ⟨k, hk, hslot⟩
  · refine ⟨fun _ => Cmd.wp_conseq (writeNew_stores hn h hr hf hslot) fun _ t ht => ⟨trivial, ht⟩, fun hne => ?_⟩
    rw [hslot] at hne
    exact absurd ⟨rfl, rfl⟩ hne
  · have hshadow := Cmd.wp_conseq (writeShadow_stores (c := c) hn h hr hf hk)
      (fun _ t ht => (⟨trivial, ht⟩ : True ∧ Stores n r c t))
    rcases hslot with hslot | hslot
    · rw [hslot]
      exact ⟨fun e => absurd e.1 k.succ_ne_zero, fun _ => ⟨fun _ => hshadow, fun hne => absurd ⟨k.succ_ne_zero, rfl⟩ hne⟩⟩
    · rw [hslot]
      refine ⟨fun e => absurd e.2 k.succ_ne_zero, fun _ => ⟨fun e => absurd rfl e.1, fun _ => ⟨fun _ => hshadow, ?_⟩⟩⟩
      exact fun hne => absurd ⟨rfl, k.succ_ne_zero⟩ hne

theorem deleteOne_bounded (h : Bounded n s.dram) {k : Nat} (hk : k < n) {f : BlockPage → BlockPage}
    (hclear : f (s.dram.slot r) = ⟨0, 0⟩) :
    cwp (fun _ => True) (deleteOne r s.dram.freeNum k f) (fun _ t => Bounded n t.dram) s := by
  simp only [deleteOne, Cmd.wp_bind, Cmd.wp_modify]
  refine cwp_meta fun t hd _ => ?_
  rw [dram_setDram, hd, dram_setDram]
  exact (h.setSlot (k := 0) (Nat.zero_le n) (Or.inl hclear)).push hk

theorem deletePage_bounded (h : Bounded n s.dram) (r : Nat) :
    cwp (fun _ => True) (deletePage r) (fun _ t => Bounded n t.dram) s := by
  simp only [deletePage, Cmd.wp_bind, Cmd.wp_get, Cmd.wp_ite, Cmd.wp_pure]
  refine ⟨fun _ => h, fun _ => ?_⟩
  rcases h.cases r with hslot | ⟨k, hk, hslot | hslot⟩
  · rw [hslot]
    exact ⟨fun e => absurd rfl e.1, fun _ => ⟨fun e => absurd rfl e.2, fun _ => ⟨fun e => absurd rfl e.1, fun _ => h⟩⟩⟩
  · have hdel := deleteOne_bounded h hk (f := fun b => { b with pageId1 := 0 }) (r := r) (by rw [hslot])
    rw [hslot]
    exact ⟨fun _ => hdel, fun hne => absurd ⟨k.succ_ne_zero, rfl⟩ hne⟩
  · have hdel := deleteOne_bounded h hk (f := fun b => { b with pageId2 := 0 }) (r := r) (by rw [hslot])
    rw [hslot]
    exact ⟨fun e => absurd rfl e.1, fun _ => ⟨fun _ => hdel, fun hne => absurd ⟨rfl, k.succ_ne_zero⟩ hne⟩⟩

theorem rebuild_slot_one (metas : Nat → Meta) (n : Nat) (fl : Nat → Nat) (q : Nat) :
    ∃ k ≤ n, (rebuild metas n fl).slot q = ⟨k, 0⟩ := by
  induction n with
  | zero => exact ⟨0, le_rfl, rfl⟩
  | succ n ih =>
    obtain ⟨k, hk, hslot⟩ := ih
    rw [rebuild_succ, rebuildStep_slot, hslot]
    split_ifs
    · exact ⟨pageIdFromMeta n, Nat.mod_le _ _, rfl⟩
    · exact ⟨k, by omega, rfl⟩

theorem bounded_rebuild (metas : Nat → Meta) (n : Nat) (fl : Nat → Nat) : Bounded n (rebuild metas n fl) := by
  refine ⟨fun j hj => ((rebuild_free metas n fl).free j hj).1, fun q => ?_⟩
  obtain ⟨k, hk, hq⟩ := rebuild_slot_one metas n fl q
  exact ⟨k, hk, Or.inl hq⟩

theorem bounded_allFree (n : Nat) (d : Dram) : Bounded n (allFree n d) := by
  refine ⟨fun j (hj : j < n) => ?_, fun q => ⟨0, Nat.zero_le n, Or.inl rfl⟩⟩
  show (if j < n then j else d.freeList j) < n
  rw [if_pos hj]
  exact hj

theorem cbsInit_bounded (base n : Nat) (s : St) :
    cwp (fun _ => True) (cbsInit base n) (fun _ t => Bounded n t.dram) s := by
  refine Cmd.wp_conseq (cbsInit_dram base n s) fun _ t ht => ?_
  split_ifs at ht
  · rw [ht]
    exact bounded_rebuild _ n _
  · obtain ⟨d, hd⟩ := ht
    rw [hd]
    exact bounded_allFree n d

/-- **No life of a pool leaves its pages**, also one in which restarts forget pages. -/
theorem life_bounded (hn : n < 2 ^ 32) {L : Nat → Set (Option Page)} (h : Life n (fun _ => True) s L) :
    Bounded n s.dram := by
  induction h with
  | init _ hr => exact Cmd.wp_run (cbsInit_bounded _ _ _) hr
  | @op s t L op _ ha hr ih =>
    cases op with
    | write r c =>
      obtain ⟨v, hr⟩ := hr
      exact (Cmd.wp_run (writeReq_stores hn ih ha.1 ha.2.ne') hr).2.1
    | delete r => exact Cmd.wp_run (deletePage_bounded ih r) hr
  | restart _ _ hr _ => exact Cmd.wp_run (cbsInit_bounded _ _ _) (exec_runs hr)
  | crash _ _ _ _ hr _ => exact Cmd.wp_run (cbsInit_bounded _ _ _) (exec_runs hr)

/-- With an empty free list a write reads its entry before the first. -/
theorem exec_writeReq_full (h : Bounded n s.dram) (hr : InRange r) (hf : s.dram.freeNum = 0) :
    (writeReq r c).exec s = none := by
  have htop : ∀ t : St, (freeTop 0).exec t = none := fun _ => rfl
  have hnew : ∀ t : St, (writeNew r c 0).exec t = none := by
    intro t
    rw [writeNew, Cmd.exec_bind, htop, Option.bind_none]
  have hshadow : ∀ k (t : St), (writeShadow r c 0 k).exec t = none := by
    intro k t
    rw [writeShadow, Cmd.exec_bind]
    cases (resetSn k).exec t with
    | none => rfl
    | some x => rw [Option.bind_some, Cmd.exec_bind, htop, Option.bind_none]
  simp only [writeReq, Cmd.exec_bind, Cmd.exec_get, Option.bind_some, Cmd.exec_ite, hf, if_neg hr.block]
  rcases h.cases r with hslot | ⟨k, -, hslot | hslot⟩
  · simp [hslot, hnew]
  · simp [hslot, hshadow]
  · simp [hslot, hshadow]

/-- The write to the cache on persistent memory, when the free list may be empty. -/
abbrev WriteReports (r : Nat) (c : Page) (s : St) : Prop :=
  Reports Evicts (fun _ k => k = 0) (writeReq r c) (s.dram.freeNum = 0) readContent r (some c) s

theorem writeReports_iff (hn : n < 2 ^ 32) (h : Bounded n s.dram) (hr : InRange r) :
    WriteReports r c s ↔ s.dram.freeNum ≠ 0 := by
  constructor
  · intro hrep hf
    apply hrep.safe
    exact Cmd.exec_none_aborts (A := fun _ k => k = 0) (fun _ => Relation.ReflTransGen.refl) (fun _ => rfl)
      (total_writeReq r c) (exec_writeReq_full h hr hf)
  · intro hf
    have hwp := writeReq_stores (c := c) hn h hr hf
    refine ⟨Cmd.wp_not_aborts hwp, fun hz => absurd hz hf, fun v t ht _ => ?_⟩
    exact (Cmd.wp_run hwp ht).2.2

end Pmem

/-- Allocations fail. -/
def NoMemory (G : Ask → Nat → Prop) : Prop := (∃ k, G .alloc k) ∧ ∀ k, G .alloc k → k ≠ 0

/-! ## A memory kind -/

namespace Memkind

/-- The states that requests lead to, whatever the allocator answers. -/
inductive Reached : St → Prop
  | cleared {s} : Cleared s → Reached s
  | write {s t r c v} : Reached s → InRange r → Cmd.Run (fun s t => s = t) AnyAnswer (writeReq r c) s v t → Reached t
  | delete {s t r} : Reached s → InRange r → Cmd.Run (fun s t => s = t) AnyAnswer (deletePage r) s () t → Reached t

variable {G : Ask → Nat → Prop} {s t : St} {r : Nat} {c : Page}

theorem Reached.sound (h : Reached s) : Sound s := by
  induction h with
  | cleared h => exact h.sound
  | write _ hr h ih =>
    obtain ⟨-, ⟨p, hw⟩ | ⟨rfl, -, -⟩⟩ := Cmd.wp_run (writeReq_spec ih hr) h
    · exact hw.sound ih hr
    · exact ih
  | delete _ hr h ih =>
    have hdel := Cmd.wp_run (deletePage_spec ih hr) h
    exact hdel.sound ih hr

/-- The write to the store on a memory kind: it asks for a page if the request has none. -/
abbrev WriteReports (G : Ask → Nat → Prop) (r : Nat) (c : Page) (s : St) : Prop :=
  Reports (fun s t => s = t) G (writeReq r c) (s.page r = 0 ∧ NoMemory G) readContent r (some c) s

/-- The allocation fails, the write returns 0. -/
theorem run_writeReq_refused (hr : InRange r) (hz : s.page r = 0) {k : Nat} (hk : G .alloc k) (hk0 : k ≠ 0) :
    Cmd.Run (fun s t => s = t) G (writeReq r c) s 0 s := by
  have hmalloc : Cmd.Run (fun s t => s = t) G memkindMalloc s 0 s := by
    refine (Cmd.run_succeeds hk s).bind ?_
    have hne : ¬ (k == 0) = true := by simpa using hk0
    rw [if_neg hne]
    exact .ret
  have hobtain : Cmd.Run (fun s t => s = t) G (obtainPage r 0) s 0 s := by
    refine hmalloc.bind ((Cmd.run_modify _ s).bind ?_)
    rw [← hz, setPage_same]
    exact .ret
  rw [writeReq, if_neg hr.block]
  refine (Cmd.run_get _ s).bind ?_
  rw [hz]
  exact hobtain.bind (.bind .ret .ret)

theorem writeReports_iff (h : Sound s) (hr : InRange r) :
    WriteReports G r c s ↔ s.page r ≠ 0 ∨ ∀ k, G .alloc k → k = 0 := by
  constructor
  · intro hrep
    by_contra hno
    push Not at hno
    obtain ⟨hz, k, hk, hk0⟩ := hno
    have hread := hrep.done 0 s (run_writeReq_refused hr hz hk hk0) rfl
    rw [readContent_eq hr, if_pos hz] at hread
    cases hread
  · intro hor
    have hwp := writeReq_spec (G := G) (c := c) h hr
    refine ⟨Cmd.wp_not_aborts hwp, fun ⟨hz, ⟨k, hk⟩, hno⟩ => ?_, fun v t ht _ => ?_⟩
    · rcases hor with hne | hall
      · exact absurd hz hne
      · exact absurd (hall k hk) (hno k hk)
    · obtain ⟨-, ⟨p, hw⟩ | ⟨-, hz, k, hk, hk0⟩⟩ := Cmd.wp_run hwp ht
      · rw [hw.content h hr hr, if_pos rfl]
      · rcases hor with hne | hall
        · exact absurd hz hne
        · exact absurd (hall k hk) hk0

end Memkind

/-! ## Persistent objects -/

namespace Pmemobj
open PmemProgram.Lib.Tx

/-- `write_req` with its `return 0`. -/
def writeReqReturn (reqId : Nat) (content : Page) : Code Cell.Val Int := do
  writeReq reqId content
  return 0

/-- What `read_req` finds; `none` if it uses an object that is not live. -/
def readContent (s : Store Cell.Val) (reqId : Nat) : Option (Option Page) := ((readReq reqId).exec s).map Prod.fst

/-- The write to the persistent object store: it allocates if the request has no page. -/
abbrev WriteReports (G : Ask → Nat → Prop) (r : Nat) (c : Page) (s : Store Cell.Val) : Prop :=
  Reports (fun s t => s = t) G (writeReqReturn r c) (oid s (pageRef r) = 0 ∧ NoMemory G) readContent r (some (some c)) s

/-- The objects on the way to the page of a request are live. -/
structure Usable (s : Store Cell.Val) (r : Nat) : Prop where
  block : oid s (.block (r >>> reqBlock)) ≠ 0 → oid s (.block (r >>> reqBlock)) ∈ s.live
  page : oid s (pageRef r) ≠ 0 → oid s (pageRef r) ∈ s.live

variable {G : Ask → Nat → Prop} {s t : Store Cell.Val} {r : Nat} {c : Page}

theorem Usable.readContent (h : Usable s r) : readContent s r = some (cached s r) := by
  rw [Pmemobj.readContent, readReq, Cmd.exec_bind, exec_findPage h.block, Option.bind_some, Cmd.exec_ite, cached]
  split_ifs with hq
  · rfl
  · simp [direct, h.page hq, load]

theorem twp_alloc {Q : Option Nat → Store Cell.Val → Prop} (hG : ∀ k, G .alloc k → k = 0)
    (hsome : ∀ o, o ∉ s.live → o ≠ 0 → Q (some o) (s.alloc o)) : twp G (fun _ => True) txAlloc Q s := by
  unfold txAlloc
  rw [twp, Cmd.wp_bind, Cmd.wp_succeeds]
  intro k hk
  rw [Cmd.wp_ite, hG k hk]
  refine ⟨fun _ m _ => ?_, fun hne => absurd rfl hne⟩
  apply Cmd.wp_stepGet
  intro t ht
  subst ht
  exact ⟨trivial, hsome _ (pick_notMem s.live m) (pick_ne_zero s.live m)⟩

/-- In the open transaction the page `i` of block `b` is `q`, in the object `o`, and holds `c`. A new page is counted, and
the other pages of a new block are null. -/
structure Placed (s : Store Cell.Val) (b i : Nat) (c : Page) (u : Store Cell.Val) (o q : Nat) : Prop where
  depth : u.depth ≤ 1
  freed : u.freed = []
  block : o ≠ 0 ∧ o ∈ u.live ∧ (oid s (.block b) ≠ 0 → oid s (.block b) = o)
  page : q ≠ 0 ∧ q ∈ u.live ∧ (oid s (.page b i) ≠ 0 → oid s (.page b i) = q)
  blocks : ∀ b', u.mem (.blocks b') = if b' = b then o else s.mem (.blocks b')
  pages : ∀ o' i', i' < blockPageNum → u.mem (.pages o' i') =
    if o' = o ∧ i' = i then q else if o' = o ∧ oid s (.block b) = 0 then 0 else s.mem (.pages o' i')
  cnt : ∀ o', u.mem (.cachedPageCnt o') =
    if o' = o ∧ oid s (.page b i) = 0 then ((if oid s (.block b) = 0 then 0 else s.mem (.cachedPageCnt o)) + 1) % 2 ^ 64
    else s.mem (.cachedPageCnt o')
  content : u.mem (.rpage q) = c

theorem Placed.read {u : Store Cell.Val} {o q : Nat} (h : Placed s (r >>> reqBlock) (r &&& reqPage) c u o q) :
    readContent u.finish r = some (some c) := by
  have hb : oid u.commit (.block (r >>> reqBlock)) = o := (h.blocks _).trans (if_pos rfl)
  have hp : oid u.commit (pageRef r) = q := by
    rw [pageRef, oid_page (by rw [hb]; exact h.block.1), hb]
    exact (h.pages _ _ (reqPage_lt r)).trans (if_pos ⟨rfl, rfl⟩)
  have husable : Usable u.commit r := by
    refine ⟨fun _ => ?_, fun _ => ?_⟩
    · rw [hb, Store.commit_live h.freed]
      exact h.block.2.1
    · rw [hp, Store.commit_live h.freed]
      exact h.page.2.1
  rw [Store.finish_outermost h.depth, husable.readContent, cached, hp, if_neg h.page.1]
  exact congrArg (some ∘ some) h.content

theorem put_cnt (u : Store Cell.Val) (o v o' : Nat) :
    (u.put (.cachedPageCnt o) v).mem (.cachedPageCnt o') = if o' = o then v else u.mem (.cachedPageCnt o') := by
  split_ifs with h
  · subst h
    exact u.put_mem_self _ _
  · exact u.put_mem_of_ne _ fun heq => h (Cell.cachedPageCnt.inj heq)

section
variable {b i : Nat}

theorem overwritePage_placed (hs : s.Idle) (ho : oid s (.block b) ≠ 0 ∧ oid s (.block b) ∈ s.live)
    (hq : oid s (.page b i) ≠ 0 ∧ oid s (.page b i) ∈ s.live) :
    twp G (fun _ => True) (overwritePage (oid s (.page b i)) c)
      (fun done u => done = true ∧ ∃ o q, Placed s b i c u o q) s.begin := by
  unfold overwritePage txAdd store
  refine (Cmd.wp_bind _ _ _ _).mpr (wp_direct.mpr ⟨hq.2, ?_⟩)
  refine (Cmd.wp_bind _ _ _ _).mpr (wp_step trivial ?_)
  refine (Cmd.wp_bind _ _ _ _).mpr (wp_step trivial ⟨rfl, oid s (.block b), oid s (.page b i), ?_⟩)
  refine ⟨(congrArg (· + 1) hs.depth).le, hs.freed, ⟨ho.1, ho.2, fun _ => rfl⟩, ⟨hq.1, hq.2, fun _ => rfl⟩,
    fun b' => ?_, fun o' i' _ => ?_, fun o' => ?_, ?_⟩
  · simp only [Store.put_mem_of_ne, ne_eq, reduceCtorEq, not_false_eq_true, Store.add_mem, Store.begin_mem]
    split_ifs with hb'
    · rw [hb']
      rfl
    · rfl
  · simp only [Store.put_mem_of_ne, ne_eq, reduceCtorEq, not_false_eq_true, Store.add_mem, Store.begin_mem]
    split_ifs with hpage hnew
    · rw [hpage.1, hpage.2]
      exact (oid_page ho.1).symm
    · exact absurd hnew.2 ho.1
    · rfl
  · rw [if_neg fun h => hq.1 h.2]
    simp only [Store.put_mem_of_ne, ne_eq, reduceCtorEq, not_false_eq_true, Store.add_mem, Store.begin_mem]
  · exact Store.put_mem_self _ _ _

theorem writeNewPage_placed (hG : ∀ k, G .alloc k → k = 0) (hs : s.Idle)
    (ho : oid s (.block b) ≠ 0 ∧ oid s (.block b) ∈ s.live) (hq : oid s (.page b i) = 0) :
    twp G (fun _ => True) (writeNewPage (oid s (.block b)) i c)
      (fun done u => done = true ∧ ∃ o q, Placed s b i c u o q) s.begin := by
  unfold writeNewPage countPage txAdd store
  refine (Cmd.wp_bind _ _ _ _).mpr (twp_alloc hG fun q hqlive hq0 => ?_)
  refine (Cmd.wp_bind _ _ _ _).mpr (wp_direct.mpr ⟨List.mem_cons_self, ?_⟩)
  refine (Cmd.wp_bind _ _ _ _).mpr (wp_step trivial ?_)
  refine (Cmd.wp_bind _ _ _ _).mpr (wp_step trivial ?_)
  refine (Cmd.wp_bind _ _ _ _).mpr (wp_step trivial ?_)
  refine (Cmd.wp_bind _ _ _ _).mpr (wp_step trivial ?_)
  refine (Cmd.wp_bind _ _ _ _).mpr ((Cmd.wp_bind _ _ _ _).mpr (wp_load.mpr (wp_step trivial ⟨rfl, oid s (.block b), q, ?_⟩)))
  refine ⟨(congrArg (· + 1) hs.depth).le, hs.freed, ⟨ho.1, List.mem_cons_of_mem _ ho.2, fun _ => rfl⟩,
    ⟨hq0, List.mem_cons_self, fun hne => absurd hq hne⟩, fun b' => ?_, fun o' i' _ => ?_, fun o' => ?_, ?_⟩
  · simp only [Store.put_mem_of_ne, ne_eq, reduceCtorEq, not_false_eq_true, Store.add_mem, Store.alloc_mem,
      Store.begin_mem]
    split_ifs with hb'
    · rw [hb']
      rfl
    · rfl
  · simp only [Store.put_mem_of_ne, ne_eq, reduceCtorEq, not_false_eq_true, Store.add_mem, Store.alloc_mem,
      Store.begin_mem, put_pages]
    rw [if_neg (c := o' = oid s (.block b) ∧ oid s (.block b) = 0) (fun h => ho.1 h.2)]
  · simp only [Store.put_mem_of_ne, ne_eq, reduceCtorEq, not_false_eq_true, Store.add_mem, Store.alloc_mem,
      Store.begin_mem, put_cnt, hq, and_true, ho.1, if_false]
  · simp only [Store.put_mem_of_ne, ne_eq, reduceCtorEq, not_false_eq_true, Store.add_mem, put_rpage, if_true]

theorem writeNewBlock_placed (hG : ∀ k, G .alloc k → k = 0) (hs : s.Idle) (ho : oid s (.block b) = 0) :
    twp G (fun _ => True) (writeNewBlock b i c)
      (fun done u => done = true ∧ ∃ o q, Placed s b i c u o q) s.begin := by
  unfold writeNewBlock countPage txAdd store storeRange
  refine (Cmd.wp_bind _ _ _ _).mpr (twp_alloc hG fun o _ ho0 => ?_)
  refine (Cmd.wp_bind _ _ _ _).mpr (wp_direct.mpr ⟨List.mem_cons_self, ?_⟩)
  refine (Cmd.wp_bind _ _ _ _).mpr (wp_step trivial ?_)
  refine (Cmd.wp_bind _ _ _ _).mpr (twp_alloc hG fun q _ hq0 => ?_)
  refine (Cmd.wp_bind _ _ _ _).mpr (wp_direct.mpr ⟨List.mem_cons_self, ?_⟩)
  refine (Cmd.wp_bind _ _ _ _).mpr (wp_step trivial ?_)
  refine (Cmd.wp_bind _ _ _ _).mpr (wp_step trivial ?_)
  refine (Cmd.wp_bind _ _ _ _).mpr (wp_step trivial ?_)
  refine (Cmd.wp_bind _ _ _ _).mpr (wp_step trivial ?_)
  refine (Cmd.wp_bind _ _ _ _).mpr (wp_step trivial ?_)
  refine (Cmd.wp_bind _ _ _ _).mpr (wp_step trivial ?_)
  refine (Cmd.wp_bind _ _ _ _).mpr ((Cmd.wp_bind _ _ _ _).mpr (wp_load.mpr (wp_step trivial ⟨rfl, o, q, ?_⟩)))
  refine ⟨(congrArg (· + 1) hs.depth).le, hs.freed,
    ⟨ho0, List.mem_cons_of_mem _ List.mem_cons_self, fun hne => absurd ho hne⟩,
    ⟨hq0, List.mem_cons_self, fun hne => absurd (oid_page_none ho) hne⟩, fun b' => ?_, fun o' i' hi' => ?_, fun o' => ?_, ?_⟩
  · simp only [Store.put_mem_of_ne, ne_eq, reduceCtorEq, not_false_eq_true, Store.add_mem, Store.alloc_mem,
      Store.begin_mem, Store.fill_mem, put_blocks]
    rfl
  · simp only [Store.put_mem_of_ne, ne_eq, reduceCtorEq, not_false_eq_true, Store.add_mem, Store.alloc_mem,
      Store.begin_mem, Store.fill_mem, put_pages, zeroBlock]
    by_cases hqi : o' = o ∧ i' = i
    · rw [if_pos hqi, if_pos hqi]
    · rw [if_neg hqi, if_neg hqi]
      by_cases ho' : o' = o
      · rw [if_pos ⟨ho', hi'⟩, if_pos ⟨ho', ho⟩]
        rfl
      · rw [if_neg (fun h => ho' h.1), if_neg (fun h => ho' h.1)]
        rfl
  · simp only [Store.put_mem_of_ne, ne_eq, reduceCtorEq, not_false_eq_true, Store.add_mem, Store.alloc_mem,
      Store.begin_mem, Store.fill_mem, put_cnt, zeroBlock, oid_page_none ho, ho, and_true, if_true]
    split_ifs <;> rfl
  · simp only [Store.put_mem_of_ne, ne_eq, reduceCtorEq, not_false_eq_true, Store.add_mem, put_rpage, if_true]

end

theorem writePage_placed (hs : s.Idle) (hu : Usable s r) (h : oid s (pageRef r) ≠ 0 ∨ ∀ k, G .alloc k → k = 0) :
    twp G (fun _ => True) (writePage (r >>> reqBlock) (r &&& reqPage) c)
      (fun done u => done = true ∧ ∃ o q, Placed s (r >>> reqBlock) (r &&& reqPage) c u o q) s.begin := by
  refine (Cmd.wp_bind _ _ _ _).mpr (wp_load.mpr ((Cmd.wp_ite _ _ _).mpr ⟨fun ho => ?_, fun ho => ?_⟩))
  · exact writeNewBlock_placed (h.resolve_left fun hq => hq (oid_page_none ho)) hs ho
  · have hblock := hu.block ho
    have hoid : oid s (pageRef r) = s.mem (.pages (s.mem (.blocks (r >>> reqBlock))) (r &&& reqPage)) := oid_page ho
    refine (Cmd.wp_bind _ _ _ _).mpr (wp_direct.mpr ⟨hblock, ?_⟩)
    refine (Cmd.wp_bind _ _ _ _).mpr (wp_load.mpr ((Cmd.wp_ite _ _ _).mpr ⟨fun hq => ?_, fun hq => ?_⟩))
    · exact writeNewPage_placed (h.resolve_left fun hne => hne (hoid.trans hq)) hs ⟨ho, hblock⟩ (hoid.trans hq)
    · have hne : oid s (pageRef r) ≠ 0 := fun hz => hq (hoid.symm.trans hz)
      have hover := overwritePage_placed (G := G) (c := c) hs ⟨ho, hblock⟩ ⟨hne, hu.page hne⟩
      rwa [show oid s (.page (r >>> reqBlock) (r &&& reqPage)) = _ from hoid] at hover

/-- The write of a page that is there, or for which there is memory. -/
theorem writeReq_placed (hs : s.Idle) (hu : Usable s r) (h : oid s (pageRef r) ≠ 0 ∨ ∀ k, G .alloc k → k = 0) :
    twp G (fun _ => True) (writeReq r c)
      (fun _ t => ∃ u o q, Placed s (r >>> reqBlock) (r &&& reqPage) c u o q ∧ t = u.finish) s := by
  refine (Cmd.wp_bind _ _ _ _).mpr ((Cmd.wp_check _ _).mpr ⟨reqPage_lt r, ?_⟩)
  refine (Cmd.wp_bind _ _ _ _).mpr (wp_step trivial ?_)
  refine (Cmd.wp_bind _ _ _ _).mpr (Cmd.wp_conseq (writePage_placed hs hu h) fun done u hdone => ?_)
  obtain ⟨rfl, o, q, hplaced⟩ := hdone
  exact wp_step trivial ⟨u, o, q, hplaced, rfl⟩

theorem writeReqReturn_done (hs : s.Idle) (hu : Usable s r) (h : oid s (pageRef r) ≠ 0 ∨ ∀ k, G .alloc k → k = 0) :
    twp G (fun _ => True) (writeReqReturn r c) (fun v t => v = 0 ∧ readContent t r = some (some c)) s := by
  refine (Cmd.wp_bind _ _ _ _).mpr (Cmd.wp_conseq (writeReq_placed hs hu h) fun _ t ht => ?_)
  obtain ⟨u, o, q, hplaced, rfl⟩ := ht
  exact ⟨rfl, hplaced.read⟩

/-- An object that is not live is used. -/
theorem aborts_writeReqReturn (hu : ¬ Usable s r) : Cmd.Aborts (fun s t => s = t) G (writeReqReturn r c) s := by
  apply Cmd.Aborts.bind_left
  refine .bind_right (Cmd.run_check (reqPage_lt r) s) ?_
  refine .bind_right (Cmd.run_step rfl _) (.bind_left _ ?_)
  refine .bind_right (Cmd.run_get _ _) ?_
  have hb : oid s (.block (r >>> reqBlock)) ≠ 0 := by
    intro hb
    exact hu ⟨fun hne => absurd hb hne, fun hne => absurd (oid_page_none hb) hne⟩
  have hb' : ¬ s.begin.mem (.blocks (r >>> reqBlock)) = (0 : Nat) := hb
  rw [if_neg hb']
  by_cases hlive : oid s (.block (r >>> reqBlock)) ∈ s.live
  · have hoid : oid s (pageRef r) = s.mem (.pages (oid s (.block (r >>> reqBlock))) (r &&& reqPage)) := oid_page hb
    have hq : oid s (pageRef r) ≠ 0 ∧ oid s (pageRef r) ∉ s.live := by
      by_contra hno
      exact hu ⟨fun _ => hlive, fun hne => not_not.mp fun hdead => hno ⟨hne, hdead⟩⟩
    rw [hoid] at hq
    refine .bind_right (run_direct hlive) (.bind_right (Cmd.run_get _ _) ?_)
    have hq' : ¬ s.begin.mem (.pages (s.begin.mem (.blocks (r >>> reqBlock))) (r &&& reqPage)) = (0 : Nat) := hq.1
    rw [if_neg hq']
    exact .bind_left _ (aborts_direct hq.2)
  · exact .bind_left _ (aborts_direct hlive)

/-- The first allocation fails: the transaction is aborted, and the write returns 0. -/
theorem run_writeReqReturn_refused (hs : s.Idle) (hu : Usable s r) (hz : oid s (pageRef r) = 0) {k : Nat}
    (hk : G .alloc k) (hk0 : k ≠ 0) : Cmd.Run (fun s t => s = t) G (writeReqReturn r c) s 0 s := by
  have halloc : ∀ u : Store Cell.Val, Cmd.Run (fun s t => s = t) G txAlloc u none u := by
    intro u
    refine (Cmd.run_succeeds hk u).bind ?_
    have hne : ¬ (k == 0) = true := by simpa using hk0
    rw [if_neg hne]
    exact .ret
  have hpage : Cmd.Run (fun s t => s = t) G (writePage (r >>> reqBlock) (r &&& reqPage) c) s.begin false s.begin := by
    refine (Cmd.run_get _ _).bind ?_
    by_cases hb : oid s (.block (r >>> reqBlock)) = 0
    · have hb' : s.begin.mem (.blocks (r >>> reqBlock)) = (0 : Nat) := hb
      rw [if_pos hb']
      exact (halloc _).bind .ret
    · have hb' : ¬ s.begin.mem (.blocks (r >>> reqBlock)) = (0 : Nat) := hb
      have hq : s.begin.mem (.pages (s.begin.mem (.blocks (r >>> reqBlock))) (r &&& reqPage)) = (0 : Nat) :=
        (oid_page hb).symm.trans hz
      rw [if_neg hb']
      refine (run_direct (s := s.begin) (hu.block hb)).bind ((Cmd.run_get _ _).bind ?_)
      rw [if_pos hq]
      exact (halloc _).bind .ret
  have habort : Cmd.Run (fun s t => s = t) G txAbort s.begin () s := by
    have hundo := Cmd.run_step (R := fun s t => s = t) (A := G) (s := s.begin) rfl Store.undo
    rwa [hs.begin_undo] at hundo
  have hwrite : Cmd.Run (fun s t => s = t) G (writeReq r c) s () s :=
    (Cmd.run_check (reqPage_lt r) s).bind ((Cmd.run_step rfl _).bind (hpage.bind habort))
  exact hwrite.bind .ret

theorem writeReports_iff (hs : s.Idle) :
    WriteReports G r c s ↔ Usable s r ∧ (oid s (pageRef r) ≠ 0 ∨ ∀ k, G .alloc k → k = 0) := by
  constructor
  · intro hrep
    have hu : Usable s r := by
      by_contra hu
      exact hrep.safe (aborts_writeReqReturn hu)
    refine ⟨hu, ?_⟩
    by_contra hno
    push Not at hno
    obtain ⟨hz, k, hk, hk0⟩ := hno
    have hread := hrep.done 0 s (run_writeReqReturn_refused hs hu hz hk hk0) rfl
    rw [hu.readContent, cached, if_pos hz] at hread
    cases hread
  · intro h
    obtain ⟨hu, hor⟩ := h
    have hwp := writeReqReturn_done (c := c) hs hu hor
    refine ⟨Cmd.wp_not_aborts hwp, fun hstuck => ?_, fun v t ht _ => (Cmd.wp_run hwp ht).2⟩
    obtain ⟨hz, ⟨k, hk⟩, hno⟩ := hstuck
    rcases hor with hne | hall
    · exact absurd hz hne
    · exact absurd (hall k hk) (hno k hk)

end Pmemobj

/-! ## The three stores -/

/-- **Running out of pages.** In every state of every life the write to persistent memory reports it if and only if a page
is free; the writes to a memory kind and to persistent objects do if and only if they need no page, or can have one. -/
theorem reports_iff {n : Nat} (hn : n < 2 ^ 32) {r : Nat} (hr : InRange r) (c : Page) :
    (∀ s L, Life n (fun _ => True) s L → (WriteReports r c s ↔ s.dram.freeNum ≠ 0)) ∧
    (∀ s G, Memkind.Reached s → (Memkind.WriteReports G r c s ↔ s.page r ≠ 0 ∨ ∀ k, G .alloc k → k = 0)) ∧
    ∀ s G, s.Idle → (Pmemobj.WriteReports G r c s ↔
      Pmemobj.Usable s r ∧ (Pmemobj.oid s (Pmemobj.pageRef r) ≠ 0 ∨ ∀ k, G .alloc k → k = 0)) :=
  ⟨fun _ _ h => writeReports_iff hn (life_bounded hn h) hr, fun _ _ h => Memkind.writeReports_iff h.sound hr,
    fun _ _ h => Pmemobj.writeReports_iff h⟩

/-- The first write to each store, when allocations succeed. -/
theorem reports_iff_first : WriteReports 0 (fill 1) (opened pmemPageNumbers) ∧
    Memkind.WriteReports Ask.Granted 0 (fill 1) ⟨fun _ _ => 0, fun _ => 0, [], fun _ => fill 0⟩ ∧
    Pmemobj.WriteReports Ask.Granted 0 (fill 1) Pmemobj.emptyPool := by
  have hlife : Life pmemPageNumbers (fun _ => True) (opened pmemPageNumbers) _ :=
    .init (show newFile.pool.magicNumber ≠ magicNumber by decide) (exec_runs (exec_newFile _))
  have hcleared : Memkind.Cleared ⟨fun _ _ => 0, fun _ => 0, [], fun _ => fill 0⟩ := ⟨rfl, rfl⟩
  have hcreated := Pmemobj.created_emptyPool
  have husable : Pmemobj.Usable Pmemobj.emptyPool 0 :=
    ⟨fun hne => absurd (hcreated.oid _) hne, fun hne => absurd (hcreated.oid _) hne⟩
  obtain ⟨hpmem, hmemkind, hpmemobj⟩ := reports_iff (n := pmemPageNumbers) (by decide) inRange_zero (fill 1)
  exact ⟨(hpmem _ _ hlife).mpr (by decide), (hmemkind _ _ (.cleared hcleared)).mpr (Or.inr fun _ hk => hk),
    (hpmemobj _ _ hcreated.idle).mpr ⟨husable, Or.inr fun _ hk => hk⟩⟩

/-- The first allocation fails: both writes return 0, and nothing is there. -/
theorem refused_unreported :
    (¬ ∀ s G r c, Memkind.Reached s → InRange r → Memkind.WriteReports G r c s) ∧
      ¬ ∀ s G r c, s.Idle → InRange r → Pmemobj.WriteReports G r c s := by
  refine ⟨fun h => ?_, fun h => ?_⟩
  · have hcleared : Memkind.Cleared ⟨fun _ _ => 0, fun _ => 0, [], fun _ => fill 0⟩ := ⟨rfl, rfl⟩
    have hrep := h _ AnyAnswer 0 (fill 1) (.cleared hcleared) inRange_zero
    rcases (Memkind.writeReports_iff hcleared.sound inRange_zero).mp hrep with hne | hall
    · exact hne (hcleared.page 0)
    · exact absurd (hall 1 trivial) (by decide)
  · have hcreated := Pmemobj.created_emptyPool
    have hrep := h _ AnyAnswer 0 (fill 1) hcreated.idle inRange_zero
    rcases ((Pmemobj.writeReports_iff hcreated.idle).mp hrep).2 with hne | hall
    · exact hne (hcreated.oid _)
    · exact absurd (hall 1 trivial) (by decide)

end PmemProgram.Cbs
