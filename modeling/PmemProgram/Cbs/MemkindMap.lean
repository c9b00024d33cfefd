import PmemProgram.Cbs.Memkind
import PmemProgram.Lib.Machine

/-!
# The page cache on a memory kind as a map

* `serveAll` : requests one after the other, with what they return; `lossyStep` : the same of a map that may lose the write
  of a page it does not have;
* `Holds` : the cache has the pages of the map, and no others are allocated;
* `memkind_is_map` : so it is after any requests, whatever allocations fail.
-/

namespace PmemProgram.Cbs.Memkind.Lossy
open PmemProgram.Lib PmemProgram.Lib.Objects

inductive Op
  | write (r : Nat) (c : Page)
  | read (r : Nat)
  | delete (r : Nat)

def Op.reqId : Op → Nat
  | write r _ => r
  | read r => r
  | delete r => r

/-- What a request returns. -/
inductive Answer
  | wrote (v : Int)
  | found (page : Option Page)
  | deleted

/-- One request; the caller of `read_req` reads the page. -/
def perform : Op → Cmd Ask St Answer
  | .write r c => do
    let v ← writeReq r c
    return .wrote v
  | .read r => do
    let page ← Cmd.get fun s => readContent s r
    return .found page
  | .delete r => do
    deletePage r
    return .deleted

abbrev serveAll (ops : List Op) : Cmd Ask St (List Answer) := Machine.serveAll perform ops

/-- A request to a map: a new page may be lost, and this is not reported; ids beyond the disk are refused. -/
def lossyStep (M : Nat → Option Page) : Bool × Op → (Nat → Option Page) × Answer
  | (lost, .write r c) =>
    if r >>> reqBlock > diskBlockNum then (M, .wrote (-1))
    else if lost ∧ M r = none then (M, .wrote 0)
    else (Function.update M r (some c), .wrote 0)
  | (_, .read r) => (M, .found (M r))
  | (_, .delete r) => (Function.update M r none, .deleted)

/-- The cache has the pages of the map, and no others are allocated. -/
structure Holds (s : St) (M : Nat → Option Page) : Prop where
  sound : Sound s
  content : ∀ r, InRange r → readContent s r = M r
  beyond : ∀ r, ¬ InRange r → M r = none
  used : ∀ o ∈ s.live, o ≠ 0 ∧ ∃ r, InRange r ∧ s.page r = o

variable {G : Ask → Nat → Prop} {s t : St} {M : Nat → Option Page} {r q : Nat} {c : Page}

theorem holds_cleared (h : Cleared s) (hlive : s.live = []) : Holds s fun _ => none := by
  refine ⟨h.sound, fun r hr => ?_, fun _ _ => rfl, fun o ho => ?_⟩
  · rw [readContent_eq hr, if_pos (h.page r)]
  · rw [hlive] at ho
    exact absurd ho List.not_mem_nil

theorem Holds.none_iff (h : Holds s M) (hr : InRange r) : M r = none ↔ s.page r = 0 := by
  rw [← h.content r hr, readContent_eq hr]
  by_cases hz : s.page r = 0
  · exact iff_of_true (if_pos hz) hz
  · exact iff_of_false (by rw [if_neg hz]; exact Option.some_ne_none _) hz

theorem holds_written {p : Nat} (hw : Written s t r p c) (h : Holds s M) (hr : InRange r) :
    Holds t (Function.update M r (some c)) := by
  refine ⟨hw.sound h.sound hr, fun q hq => ?_, fun q hq => ?_, fun o ho => ?_⟩
  · rw [hw.content h.sound hr hq, Function.update_apply, h.content q hq]
  · have hne : q ≠ r := fun heq => hq (heq ▸ hr)
    rw [Function.update_of_ne hne]
    exact h.beyond q hq
  · rcases (hw.live o).mp ho with hold | rfl
    · obtain ⟨hne, q, hq, hpage⟩ := h.used o hold
      refine ⟨hne, q, hq, ?_⟩
      rw [hw.page]
      split_ifs with hqr
      · -- the page of `r` was there already
        subst hqr
        rcases hw.new with hsame | ⟨hz, -⟩
        · exact hsame.symm.trans hpage
        · exact absurd (hpage.symm.trans hz) hne
      · exact hpage
    · exact ⟨hw.nonnull, r, hr, by rw [hw.page, if_pos rfl]⟩

theorem holds_deleted (hd : Deleted s t r) (h : Holds s M) (hr : InRange r) : Holds t (Function.update M r none) := by
  refine ⟨hd.sound h.sound hr, fun q hq => ?_, fun q hq => ?_, fun o ho => ?_⟩
  · rw [hd.content hq, Function.update_apply, h.content q hq]
  · rw [Function.update_apply, h.beyond q hq, ite_self]
  · obtain ⟨hold, hnot⟩ := (hd.live o).mp ho
    obtain ⟨hne, q, hq, hpage⟩ := h.used o hold
    refine ⟨hne, q, hq, ?_⟩
    have hqr : q ≠ r := by
      rintro rfl
      exact hnot (hpage ▸ hne) hpage.symm
    rw [hd.page, if_neg hqr, hpage]

/-- Some allocation may fail. -/
def MayFail (G : Ask → Nat → Prop) : Prop := ∃ n, G .alloc n ∧ n ≠ 0

theorem inRange_of_block (hb : ¬ r >>> reqBlock > diskBlockNum) (hne : r >>> reqBlock ≠ diskBlockNum) : InRange r := by
  simp only [InRange, Nat.shiftRight_eq_div_pow, reqBlock, diskBlockNum, blockPageNum] at *
  omega

/-- What a request does to the cache is what it does to the map, with or without the loss of its page. -/
def Outcome (G : Ask → Nat → Prop) (M : Nat → Option Page) (op : Op) (x : Answer) (t : St) : Prop :=
  ∃ lost, (lost = true → MayFail G) ∧ x = (lossyStep M (lost, op)).2 ∧ Holds t (lossyStep M (lost, op)).1

/-- No page is lost. -/
theorem Outcome.safe {op : Op} {x : Answer} (hx : x = (lossyStep M (false, op)).2)
    (ht : Holds t (lossyStep M (false, op)).1) : Outcome G M op x t :=
  ⟨false, fun hf => absurd hf Bool.false_ne_true, hx, ht⟩

theorem wp_write (h : Holds s M) (hr : r >>> reqBlock ≠ diskBlockNum) :
    mwp G (perform (.write r c)) (Outcome G M (.write r c)) s := by
  rw [perform, mwp, Cmd.wp_bind]
  by_cases hb : r >>> reqBlock > diskBlockNum
  · rw [writeReq, Cmd.wp_ite]
    have hstep : lossyStep M (false, .write r c) = (M, .wrote (-1)) := by rw [lossyStep, if_pos hb]
    exact ⟨fun _ => .safe (by rw [hstep]) (by rwa [hstep]), fun hnot => absurd hb hnot⟩
  · have hr' := inRange_of_block hb hr
    refine Cmd.wp_conseq (writeReq_spec h.sound hr') ?_
    rintro v t ⟨rfl, ⟨p, hw⟩ | ⟨rfl, hz, hfail⟩⟩
    · have hstep : lossyStep M (false, .write r c) = (Function.update M r (some c), .wrote 0) := by
        rw [lossyStep, if_neg hb, if_neg (by simp)]
      refine .safe (by rw [hstep]) ?_
      rw [hstep]
      exact holds_written hw h hr'
    · -- there was no page, and none could be had
      have hnone : M r = none := (h.none_iff hr').mpr hz
      have hstep : lossyStep M (true, .write r c) = (M, .wrote 0) := by
        rw [lossyStep, if_neg hb, if_pos ⟨rfl, hnone⟩]
      exact ⟨true, fun _ => hfail, by rw [hstep], by rwa [hstep]⟩

theorem wp_read (h : Holds s M) (hr : r >>> reqBlock ≠ diskBlockNum) :
    mwp G (perform (.read r)) (Outcome G M (.read r)) s := by
  refine Outcome.safe ?_ h
  show Answer.found (readContent s r) = Answer.found (M r)
  by_cases hb : r >>> reqBlock > diskBlockNum
  · rw [h.beyond r fun hr => hr.block hb, readContent, readReq, if_pos hb]
    rfl
  · rw [h.content r (inRange_of_block hb hr)]

theorem wp_delete (h : Holds s M) (hr : r >>> reqBlock ≠ diskBlockNum) :
    mwp G (perform (.delete r)) (Outcome G M (.delete r)) s := by
  rw [perform, mwp, Cmd.wp_bind]
  by_cases hb : r >>> reqBlock > diskBlockNum
  · rw [deletePage, Cmd.wp_ite]
    refine ⟨fun _ => .safe rfl ?_, fun hnot => absurd hb hnot⟩
    have hnone : M r = none := h.beyond r fun hr => hr.block hb
    show Holds s (Function.update M r none)
    rwa [← hnone, Function.update_eq_self]
  · have hr' := inRange_of_block hb hr
    exact Cmd.wp_conseq (deletePage_spec h.sound hr') fun _ t hd => .safe rfl (holds_deleted hd h hr')

theorem wp_perform {op : Op} (h : Holds s M) (hop : op.reqId >>> reqBlock ≠ diskBlockNum) :
    mwp G (perform op) (Outcome G M op) s := by
  cases op with
  | write r c => exact wp_write h hop
  | read r => exact wp_read h hop
  | delete r => exact wp_delete h hop

theorem wp_serveAll {ops : List Op} (h : Holds s M) (hops : ∀ op ∈ ops, op.reqId >>> reqBlock ≠ diskBlockNum) :
    mwp G (serveAll ops) (fun xs t => ∃ eops : List (Bool × Op), eops.map Prod.snd = ops ∧
      (∀ eop ∈ eops, eop.1 = true → MayFail G) ∧ xs = (Machine.answers lossyStep M eops).2 ∧
        Holds t (Machine.answers lossyStep M eops).1) s :=
  Machine.wp_serveAll_choice (fun _ _ _ h hop => wp_perform h hop) h hops

/-- The pages of the map and the pages that are allocated are one to one. -/
theorem Holds.bijOn (h : Holds s M) : Set.BijOn s.page {r | M r ≠ none} {o | o ∈ s.live} := by
  have hrange : ∀ r, M r ≠ none → InRange r := fun r hne => by
    by_contra hr
    exact hne (h.beyond r hr)
  have hpage : ∀ r, M r ≠ none → s.page r ≠ 0 := fun r hne hz => hne ((h.none_iff (hrange r hne)).mpr hz)
  refine ⟨fun r hne => h.sound.live r (hrange r hne) (hpage r hne), fun r hr q hq heq => ?_, fun o ho => ?_⟩
  · exact h.sound.inj r q (hrange r hr) (hrange q hq) heq (hpage r hr)
  · obtain ⟨hne, r, hr, hro⟩ := h.used o ho
    exact ⟨r, fun hnone => hne (hro ▸ (h.none_iff hr).mp hnone), hro⟩

/-- **The cache is a map that may lose new pages.** Whatever allocations fail, no request uses a page that is not
allocated, the requests return what the map does, and at last the pages of the map and no others are allocated. -/
theorem memkind_is_map {ops : List Op} (hs : Cleared s) (hlive : s.live = [])
    (hops : ∀ op ∈ ops, op.reqId >>> reqBlock ≠ diskBlockNum) :
    ¬ Cmd.Aborts (fun s t => s = t) G (serveAll ops) s ∧
      ∀ xs t, Cmd.Run (fun s t => s = t) G (serveAll ops) s xs t → ∃ eops : List (Bool × Op),
        eops.map Prod.snd = ops ∧ (∀ eop ∈ eops, eop.1 = true → MayFail G) ∧
          (Machine.answers lossyStep (fun _ => none) eops).2 = xs ∧
          (∀ r, InRange r → readContent t r = (Machine.answers lossyStep (fun _ => none) eops).1 r) ∧
          Set.BijOn t.page {r | (Machine.answers lossyStep (fun _ => none) eops).1 r ≠ none} {o | o ∈ t.live} := by
  have hwp := wp_serveAll (G := G) (holds_cleared hs hlive) hops
  refine ⟨Cmd.wp_not_aborts hwp, fun xs t hrun => ?_⟩
  obtain ⟨eops, hmap, hfail, rfl, ht⟩ := Cmd.wp_run hwp hrun
  exact ⟨eops, hmap, hfail, rfl, ht.content, ht.bijOn⟩

theorem total_serveAll (ops : List Op) : (serveAll ops).Total := by
  refine Machine.total_serveAll (fun op => ?_) ops
  cases op with
  | write r c => exact Cmd.total_bind (total_writeReq r c) fun _ => Cmd.total_pure _
  | read r => exact Cmd.total_bind (Cmd.total_get _) fun _ => Cmd.total_pure _
  | delete r => exact Cmd.total_bind (total_deletePage r) fun _ => Cmd.total_pure _

/-- When no allocation fails no write is lost. -/
theorem kept {ops : List Op} {eops : List (Bool × Op)} (hmap : eops.map Prod.snd = ops)
    (hfail : ∀ eop ∈ eops, eop.1 = true → MayFail Ask.Granted) : eops = ops.map (Prod.mk false) := by
  have hfalse : ∀ eop ∈ eops, (false, eop.2) = eop := fun eop he => by
    refine Prod.ext (Eq.symm (Bool.eq_false_of_not_eq_true fun htrue => ?_)) rfl
    obtain ⟨n, hn, hne⟩ := hfail eop he htrue
    exact hne hn
  rw [← hmap, List.map_map]
  exact ((List.map_congr_left hfalse).trans (List.map_id _)).symm

theorem memkind_is_map_deleted : ∃ t, Cmd.Run (fun s t => s = t) Ask.Granted
    (serveAll [.write 5 (fun _ => 1), .delete 5, .read 5]) ⟨fun _ _ => 0, fun _ => 0, [], fun _ _ => 0⟩
      [.wrote 0, .deleted, .found none] t := by
  have hcleared : Cleared ⟨fun _ _ => 0, fun _ => 0, [], fun _ _ => 0⟩ := ⟨rfl, rfl⟩
  have hops : ∀ op ∈ [Op.write 5 (fun _ => 1), .delete 5, .read 5], op.reqId >>> reqBlock ≠ diskBlockNum := by
    simp [Op.reqId, reqBlock, diskBlockNum]
  obtain ⟨hsafe, hall⟩ := memkind_is_map (G := Ask.Granted) hcleared rfl hops
  obtain ⟨xs, t, hrun⟩ := Cmd.returns (fun _ => rfl) (fun q => ⟨0, granted_zero q⟩) (total_serveAll _) hsafe
  obtain ⟨eops, hmap, hfail, rfl, -⟩ := hall xs t hrun
  have hanswers : (Machine.answers lossyStep (fun _ => none) eops).2 = [.wrote 0, .deleted, .found none] := by
    rw [kept hmap hfail]
    simp [Machine.answers, lossyStep, reqBlock, diskBlockNum]
  exact ⟨t, hanswers ▸ hrun⟩

end PmemProgram.Cbs.Memkind.Lossy
