import PmemProgram.Cbs.Pmemobj
import PmemProgram.Lib.Machine

/-!
# The persistent object store as a map

* `serveAll` : requests one after the other, with what the reads among them return; `mapStep` : the same of a map;
* `Faithful` : no freed object is used, and the reads return what the map does; `IsMap` : so it is for every page, after
  any number of the requests;
* `isMap_iff` : the store is a map as long as no page is deleted that has been written. `delete_page` frees a page and
  leaves the reference to it (`page_of_another`).
-/

namespace PmemProgram.Cbs.Pmemobj
open PmemProgram.Lib PmemProgram.Lib.Tx PmemProgram.Lib.Objects

inductive Op
  | write (r : Nat) (c : Page)
  | read (r : Nat)
  | delete (r : Nat)

def Op.reqId : Op → Nat
  | write r _ => r
  | read r => r
  | delete r => r

/-- One request, with what a read returns. -/
def Op.perform : Op → Code Cell.Val (Option Page)
  | write r c => do
    writeReq r c
    return none
  | read r => readReq r
  | delete r => do
    deletePage r
    return none

/-- Requests one after the other, with what the reads among them return. -/
abbrev serveAll (ops : List Op) : Code Cell.Val (List (Option Page)) := Machine.serveAll Op.perform ops

/-- A request to a map. -/
def mapStep (M : Nat → Option Page) : Op → (Nat → Option Page) × Option Page
  | .write r c => (Function.update M r (some c), none)
  | .read r => (M, M r)
  | .delete r => (Function.update M r none, none)

section
variable (s : Store Cell.Val) (ops : List Op)

/-- The requests use no freed object, and the reads return what the map does. -/
def Faithful : Prop :=
  ¬ Cmd.Aborts (fun s t => s = t) Ask.Granted (serveAll ops) s ∧
  ∀ xs t, Cmd.Run (fun s t => s = t) Ask.Granted (serveAll ops) s xs t →
    xs = (Machine.answers mapStep (fun _ => none) ops).2

/-- Every page can be read after any number of the requests, and is what the map has. -/
def IsMap : Prop := ∀ pre r, pre <+: ops → InRange r → Faithful s (pre ++ [.read r])

/-- No page is deleted after it has been written. -/
def Undeleted : Prop := ops.Pairwise fun a b => ∀ r c, a = .write r c → b ≠ .delete r

end

variable {G : Ask → Nat → Prop} {I : Store Cell.Val → Prop} {s t : Store Cell.Val} {M : Nat → Option Page} {r : Nat}

/-! ## One request -/

/-- The store has the pages of the map. -/
structure Holds (s : Store Cell.Val) (M : Nat → Option Page) : Prop where
  sound : Sound s
  cached : ∀ r, InRange r → cached s r = M r

theorem Created.holds (h : Created s) : Holds s fun _ => none := ⟨h.sound, fun r _ => h.cached r⟩

theorem wp_findPage {Q : Nat → Store Cell.Val → Prop}
    (hlive : oid s (.block (r >>> reqBlock)) ≠ 0 → oid s (.block (r >>> reqBlock)) ∈ s.live)
    (hQ : Q (oid s (pageRef r)) s) : twp G I (findPage r) Q s := by
  unfold findPage
  refine (Cmd.wp_bind _ _ _ _).mpr (wp_load.mpr ((Cmd.wp_ite _ _ _).mpr ⟨fun ho => ?_, fun ho => ?_⟩))
  · rw [pageRef, oid_page_none ho] at hQ
    exact hQ
  · rw [pageRef, oid_page ho] at hQ
    exact (Cmd.wp_bind _ _ _ _).mpr (wp_direct.mpr ⟨hlive ho, wp_load.mpr hQ⟩)

theorem wp_readReq (h : Holds s M) (hr : InRange r) :
    twp G I (readReq r) (fun x t => x = M r ∧ Holds t M) s := by
  have hcached := h.cached r hr
  unfold readReq
  refine (Cmd.wp_bind _ _ _ _).mpr (wp_findPage (h.sound.live _ (inRange_block hr)) ?_)
  refine (Cmd.wp_ite _ _ _).mpr ⟨fun hq => ?_, fun hq => ?_⟩
  · refine ⟨?_, h⟩
    rw [← hcached, cached, if_pos hq]
  · refine (Cmd.wp_bind _ _ _ _).mpr (wp_direct.mpr ⟨h.sound.live _ (inRange_pageRef hr) hq, ?_⟩)
    refine (Cmd.wp_bind _ _ _ _).mpr (wp_load.mpr ⟨?_, h⟩)
    rw [← hcached, cached, if_neg hq]

/-- A page that is not there can be deleted. -/
theorem wp_deletePage (h : Holds s M) (hr : InRange r) (hnone : M r = none) :
    twp G I (deletePage r) (fun _ t => Holds t M) s := by
  have hq : oid s (pageRef r) = 0 := by
    have hcached := (h.cached r hr).trans hnone
    unfold cached at hcached
    split_ifs at hcached with hq
    exact hq
  unfold deletePage
  refine (Cmd.wp_bind _ _ _ _).mpr (wp_findPage (h.sound.live _ (inRange_block hr)) ?_)
  exact (Cmd.wp_ite _ _ _).mpr ⟨fun _ => h, fun hne => absurd hq hne⟩

theorem wp_write (h : Holds s M) (hr : InRange r) (c : Page) :
    twp Ask.Granted (fun _ => True) (writeReq r c) (fun _ t => Holds t (Function.update M r (some c))) s := by
  refine Cmd.wp_mono (fun _ _ => trivial) (fun _ t ht => ?_) (wp_writeReq h.sound hr)
  obtain ⟨hb, hi⟩ := inRange_pageRef hr
  rcases ht with ⟨o, q, hw⟩ | ⟨-, -, n, hn, hne⟩
  · refine ⟨hw.sound h.sound hb hi, fun r' hr' => ?_⟩
    rw [hw.cached h.sound hr hr', Function.update_apply, h.cached r' hr']
  · exact absurd hn hne

theorem Op.wp_perform {op : Op} (h : Holds s M) (hr : InRange op.reqId) (hdelete : ∀ r, op = .delete r → M r = none) :
    twp Ask.Granted (fun _ => True) op.perform (fun x t => x = (mapStep M op).2 ∧ Holds t (mapStep M op).1) s := by
  cases op with
  | write r c => exact (Cmd.wp_bind _ _ _ _).mpr (Cmd.wp_conseq (wp_write h hr c) fun _ t ht => ⟨rfl, ht⟩)
  | read r => exact wp_readReq h hr
  | delete r =>
    have hnone := hdelete r rfl
    refine (Cmd.wp_bind _ _ _ _).mpr (Cmd.wp_conseq (wp_deletePage h hr hnone) fun _ t ht => ⟨rfl, ?_⟩)
    show Holds t (Function.update M r none)
    rwa [← hnone, Function.update_eq_self]

/-! ## Any number of requests -/

/-- A request that may be made of the map: a page that is deleted is not there. -/
def Harmless (M : Nat → Option Page) (op : Op) : Prop := InRange op.reqId ∧ ∀ r, op = .delete r → M r = none

theorem Undeleted.allowed {ops : List Op} (hr : ∀ op ∈ ops, InRange op.reqId) (hops : Undeleted ops)
    (hdelete : ∀ r, .delete r ∈ ops → M r = none) : Machine.Allowed mapStep Harmless M ops := by
  induction ops generalizing M with
  | nil => exact trivial
  | cons op ops ih =>
    obtain ⟨hop, hops⟩ := List.pairwise_cons.mp hops
    refine ⟨⟨hr op List.mem_cons_self, fun r heq => hdelete r (heq ▸ List.mem_cons_self)⟩, ?_⟩
    apply ih (fun op' hmem => hr op' (List.mem_cons_of_mem _ hmem)) hops
    intro r hmem
    have hnone := hdelete r (List.mem_cons_of_mem _ hmem)
    cases op with
    | write r' c =>
      have hne : r ≠ r' := fun heq => hop _ hmem r' c rfl (heq ▸ rfl)
      exact (Function.update_of_ne hne _ _).trans hnone
    | read r' => exact hnone
    | delete r' =>
      show Function.update M r' none r = none
      rw [Function.update_apply, hnone, ite_self]

theorem wp_serveAll {ops : List Op} (h : Holds s M) (hops : Machine.Allowed mapStep Harmless M ops) :
    twp Ask.Granted (fun _ => True) (serveAll ops)
      (fun xs t => xs = (Machine.answers mapStep M ops).2 ∧ Holds t (Machine.answers mapStep M ops).1) s :=
  Machine.wp_serveAll (fun _ _ _ h hop => Op.wp_perform h hop.1 hop.2) h hops

/-! ## A page that is deleted after it has been written -/

theorem total_countPage (o : Nat) : (countPage o).Total := Cmd.total_bind (total_load _) fun _ => Cmd.total_step _

theorem total_writeNewBlock (b i : Nat) (c : Page) : (writeNewBlock b i c).Total := by
  refine Cmd.total_bind total_txAlloc fun o => ?_
  cases o with
  | none => exact Cmd.total_pure _
  | some o =>
    refine Cmd.total_bind (total_direct o) fun _ => Cmd.total_bind (Cmd.total_step _) fun _ =>
      Cmd.total_bind total_txAlloc fun q => ?_
    cases q with
    | none => exact Cmd.total_pure _
    | some q =>
      exact Cmd.total_bind (total_direct q) fun _ => Cmd.total_bind (Cmd.total_step _) fun _ =>
        Cmd.total_bind (Cmd.total_step _) fun _ => Cmd.total_bind (Cmd.total_step _) fun _ =>
        Cmd.total_bind (Cmd.total_step _) fun _ => Cmd.total_bind (Cmd.total_step _) fun _ =>
        Cmd.total_bind (Cmd.total_step _) fun _ => Cmd.total_bind (total_countPage o) fun _ => Cmd.total_pure _

theorem total_writeNewPage (o i : Nat) (c : Page) : (writeNewPage o i c).Total := by
  refine Cmd.total_bind total_txAlloc fun q => ?_
  cases q with
  | none => exact Cmd.total_pure _
  | some q =>
    exact Cmd.total_bind (total_direct q) fun _ => Cmd.total_bind (Cmd.total_step _) fun _ =>
      Cmd.total_bind (Cmd.total_step _) fun _ => Cmd.total_bind (Cmd.total_step _) fun _ =>
      Cmd.total_bind (Cmd.total_step _) fun _ => Cmd.total_bind (total_countPage o) fun _ => Cmd.total_pure _

theorem total_overwritePage (q : Nat) (c : Page) : (overwritePage q c).Total :=
  Cmd.total_bind (total_direct q) fun _ => Cmd.total_bind (Cmd.total_step _) fun _ =>
    Cmd.total_bind (Cmd.total_step _) fun _ => Cmd.total_pure _

theorem total_writeReq (r : Nat) (c : Page) : (writeReq r c).Total := by
  refine Cmd.total_bind (Cmd.total_check _) fun _ => Cmd.total_bind (Cmd.total_step _) fun _ =>
    Cmd.total_bind ?_ fun _ => Cmd.total_ite (Cmd.total_step _) (Cmd.total_step _)
  refine Cmd.total_bind (total_load _) fun o => Cmd.total_ite (total_writeNewBlock _ _ c) ?_
  exact Cmd.total_bind (total_direct o) fun _ => Cmd.total_bind (total_load _) fun q =>
    Cmd.total_ite (total_writeNewPage o _ c) (total_overwritePage q c)

theorem total_findPage (r : Nat) : (findPage r).Total :=
  Cmd.total_bind (total_load _) fun o => Cmd.total_ite (Cmd.total_pure _)
    (Cmd.total_bind (total_direct o) fun _ => total_load _)

theorem total_readReq (r : Nat) : (readReq r).Total :=
  Cmd.total_bind (total_findPage r) fun q => Cmd.total_ite (Cmd.total_pure _)
    (Cmd.total_bind (total_direct q) fun _ => Cmd.total_bind (total_load _) fun _ => Cmd.total_pure _)

theorem total_deletePage (r : Nat) : (deletePage r).Total :=
  Cmd.total_bind (total_findPage r) fun q => Cmd.total_ite (Cmd.total_pure _)
    (Cmd.total_bind (Cmd.total_step _) fun _ => Cmd.total_bind (total_txFree q) fun _ => Cmd.total_step _)

theorem Op.total_perform (op : Op) : op.perform.Total := by
  cases op with
  | write r c => exact Cmd.total_bind (total_writeReq r c) fun _ => Cmd.total_pure _
  | read r => exact total_readReq r
  | delete r => exact Cmd.total_bind (total_deletePage r) fun _ => Cmd.total_pure _

theorem total_serveAll (ops : List Op) : (serveAll ops).Total := Machine.total_serveAll Op.total_perform ops

theorem exec_findPage (hlive : oid s (.block (r >>> reqBlock)) ≠ 0 → oid s (.block (r >>> reqBlock)) ∈ s.live) :
    (findPage r).exec s = some (oid s (pageRef r), s) := by
  have hfind : twp (fun _ n => n = 0) (fun _ => True) (findPage r) (fun q t => q = oid s (pageRef r) ∧ t = s) s :=
    wp_findPage hlive ⟨rfl, rfl⟩
  obtain ⟨q, t, h, rfl, rfl⟩ := Cmd.wp_exec (fun _ => rfl) (A := fun _ n => n = 0) (fun _ => rfl) hfind (total_findPage r)
  exact h

/-- The deletion of a page frees its object, and changes no reference. -/
theorem exec_deletePage (h : Sound s) (hr : InRange r) (hq : oid s (pageRef r) ≠ 0) :
    (deletePage r).exec s = some ((), (s.begin.free (oid s (pageRef r))).commit) := by
  have hlive := h.live _ (inRange_pageRef hr) hq
  have hdepth : (s.begin.free (oid s (pageRef r))).depth ≤ 1 := (congrArg (· + 1) h.idle.depth).le
  unfold deletePage
  rw [Cmd.exec_bind, exec_findPage (h.live _ (inRange_block hr))]
  simp only [Option.bind_some, hq, if_false]
  simp [txBegin, txEnd, txFree, direct, hlive, Store.finish_outermost hdepth]

/-- The reference is left: a read of the page uses the freed object. -/
theorem exec_readReq_deleted (h : Sound s) (hr : InRange r) (hq : oid s (pageRef r) ≠ 0) :
    (readReq r).exec (s.begin.free (oid s (pageRef r))).commit = none := by
  have hfreed : s.begin.freed = [] := h.idle.freed
  have hlive : ∀ o, o ∈ (s.begin.free (oid s (pageRef r))).commit.live ↔ o ∈ s.live ∧ o ≠ oid s (pageRef r) := by
    intro o
    show o ∈ s.live.filter (· ∉ oid s (pageRef r) :: s.begin.freed) ↔ _
    rw [hfreed]
    simp
  have hfind := exec_findPage (s := (s.begin.free (oid s (pageRef r))).commit) (r := r) fun ho => ?_
  · unfold readReq
    rw [Cmd.exec_bind, hfind]
    have hq' : oid (s.begin.free (oid s (pageRef r))).commit (pageRef r) ≠ 0 := hq
    have hdead : oid (s.begin.free (oid s (pageRef r))).commit (pageRef r) ∉ (s.begin.free (oid s (pageRef r))).commit.live :=
      fun hmem => ((hlive _).mp hmem).2 rfl
    simp only [Option.bind_some, hq', if_false]
    simp only [direct, Cmd.exec_bind, Cmd.exec_get, Option.bind_some, Cmd.exec_check]
    rw [if_neg hdead]
    rfl
  · refine (hlive _).mpr ⟨h.live _ (inRange_block hr) ho, fun heq => ?_⟩
    have hplace := h.inj _ _ (inRange_block hr) (inRange_pageRef hr) heq ho
    cases hplace

theorem aborts_delete_read (h : Holds s M) (hr : InRange r) (hM : M r ≠ none) :
    Cmd.Aborts (fun s t => s = t) Ask.Granted (serveAll [.delete r, .read r]) s := by
  have hq : oid s (pageRef r) ≠ 0 := by
    intro hq
    apply hM
    rw [← h.cached r hr, cached, if_pos hq]
  apply Cmd.exec_none_aborts (fun _ => rfl) granted_zero (total_serveAll _)
  simp only [serveAll, Machine.serveAll, Op.perform, Cmd.exec_bind, exec_deletePage h.sound hr hq, Option.bind_some, Cmd.exec_pure,
    exec_readReq_deleted h.sound hr hq, Option.bind_none]

/-- What has been written and not deleted is there. -/
theorem answers_some {ops : List Op} (hdelete : .delete r ∉ ops) (h : M r ≠ none) :
    (Machine.answers mapStep M ops).1 r ≠ none := by
  induction ops generalizing M with
  | nil => exact h
  | cons op ops ih =>
    apply ih fun hmem => hdelete (List.mem_cons_of_mem _ hmem)
    cases op with
    | write r' c =>
      show Function.update M r' (some c) r ≠ none
      rw [Function.update_apply]
      split_ifs
      · exact Option.some_ne_none c
      · exact h
    | read r' => exact h
    | delete r' =>
      have hne : r ≠ r' := fun heq => hdelete (heq ▸ List.mem_cons_self)
      show Function.update M r' none r ≠ none
      rwa [Function.update_of_ne hne]

theorem answers_written {ops : List Op} {c : Page} (hops : Undeleted ops) (hmem : .write r c ∈ ops) :
    (Machine.answers mapStep M ops).1 r ≠ none := by
  induction ops generalizing M with
  | nil => cases hmem
  | cons op ops ih =>
    obtain ⟨hop, hops⟩ := List.pairwise_cons.mp hops
    rcases List.mem_cons.mp hmem with rfl | hmem
    · apply answers_some fun h => hop _ h r c rfl rfl
      show Function.update M r (some c) r ≠ none
      rw [Function.update_self]
      exact Option.some_ne_none c
    · exact ih hops hmem

/-- The first page that is deleted after it has been written. -/
theorem first_deleted {ops : List Op} (h : ¬ Undeleted ops) :
    ∃ pre r c, pre ++ [.delete r] <+: ops ∧ Undeleted pre ∧ .write r c ∈ pre := by
  induction ops using List.reverseRecOn with
  | nil => exact absurd List.Pairwise.nil h
  | append_singleton ops op ih =>
    by_cases hops : Undeleted ops
    · obtain ⟨a, ha, r, c, rfl, rfl⟩ : ∃ a ∈ ops, ∃ r c, a = .write r c ∧ op = .delete r := by
        by_contra hnone
        push Not at hnone
        apply h
        refine List.pairwise_append.mpr ⟨hops, List.pairwise_singleton _ _, fun a ha b hb r c hac hbd => ?_⟩
        exact hnone a ha r c hac ((List.mem_singleton.mp hb).symm.trans hbd)
      exact ⟨ops, r, c, List.prefix_rfl, hops, ha⟩
    · obtain ⟨pre, r, c, hpre, hundeleted, hmem⟩ := ih hops
      exact ⟨pre, r, c, hpre.trans (List.prefix_append _ _), hundeleted, hmem⟩

/-! ## When the store is a map -/

theorem Undeleted.reads {ops pre : List Op} (h : Undeleted ops) (hpre : pre <+: ops) (r : Nat) :
    Undeleted (pre ++ [.read r]) := by
  have hsub := List.Pairwise.sublist hpre.sublist h
  refine List.pairwise_append.mpr ⟨hsub, List.pairwise_singleton _ _, fun a _ b hb r' c _ heq => ?_⟩
  rw [List.mem_singleton.mp hb] at heq
  cases heq

/-- **The store is a map** as long as no page is deleted after it has been written. -/
theorem isMap_iff {s : Store Cell.Val} (hs : Created s) {ops : List Op} (hr : ∀ op ∈ ops, InRange op.reqId) :
    IsMap s ops ↔ Undeleted ops := by
  constructor
  · intro h
    by_contra hops
    obtain ⟨pre, r, c, hpre, hundeleted, hmem⟩ := first_deleted hops
    have hmems : ∀ op ∈ pre, InRange op.reqId := fun op hop => hr op (hpre.subset (List.mem_append_left _ hop))
    have hrange : InRange r := hmems _ hmem
    -- the requests before the deletion return, and the page is there
    have hpre' := wp_serveAll hs.holds (hundeleted.allowed hmems fun _ _ => rfl)
    obtain ⟨xs, t, hxs, -, ht⟩ := Cmd.wp_exec (fun _ => rfl) granted_zero hpre' (total_serveAll pre)
    have hrun := Cmd.exec_run (fun _ => rfl) granted_zero hxs
    have haborts := Machine.aborts_append hrun (aborts_delete_read ht hrange (answers_written hundeleted hmem))
    apply (h (pre ++ [.delete r]) r hpre hrange).1
    rwa [List.append_assoc]
  · intro h pre r hpre hrange
    have hmems : ∀ op ∈ pre ++ [.read r], InRange op.reqId := by
      intro op hop
      rcases List.mem_append.mp hop with hop | hop
      · exact hr op (hpre.subset hop)
      · rw [List.mem_singleton.mp hop]
        exact hrange
    have hwp := wp_serveAll hs.holds ((h.reads hpre r).allowed hmems fun _ _ => rfl)
    exact ⟨Cmd.wp_not_aborts hwp, fun xs t hxs => (Cmd.wp_run hwp hxs).1⟩

theorem isMap_iff_written :
    Created emptyPool ∧ (IsMap emptyPool [.delete 5, .write 5 fun _ => 7] ↔ Undeleted [.delete 5, .write 5 fun _ => 7]) :=
  ⟨created_emptyPool, isMap_iff created_emptyPool fun op hop => by
    have hop' : op.reqId = 5 := by
      rcases List.mem_pair.mp hop with rfl | rfl
      · rfl
      · rfl
    rw [hop']
    unfold InRange
    decide⟩

/-- Page 0 is deleted, and its object handed out for page 1: a read of page 0 returns the content of page 1. -/
theorem page_of_another :
    ((serveAll [.write 0 fun _ => 7, .delete 0, .write 1 fun _ => 9, .read 0]).exec emptyPool).any
      (fun x => (x.1.map fun y => y.map (· 0)) == [none, none, none, some 9]) = true ∧
    ¬ IsMap emptyPool [.write 0 fun _ => 7, .delete 0, .write 1 fun _ => 9] := by
  have hrun : ((serveAll [.write 0 fun _ => 7, .delete 0, .write 1 fun _ => 9, .read 0]).exec emptyPool).any
      (fun x => (x.1.map fun y => y.map (· 0)) == [none, none, none, some 9]) = true := by decide +kernel
  refine ⟨hrun, fun h => ?_⟩
  obtain ⟨⟨xs, t⟩, hexec, hxs⟩ := (Option.any_eq_true _ _).mp hrun
  have hmap := (h _ 0 List.prefix_rfl (by unfold InRange; decide)).2 xs t (Cmd.exec_run (fun _ => rfl) granted_zero hexec)
  rw [hmap] at hxs
  dsimp only at hxs
  exact absurd hxs (by decide +kernel)

end PmemProgram.Cbs.Pmemobj
