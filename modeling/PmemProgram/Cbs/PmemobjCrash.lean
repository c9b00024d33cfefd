import PmemProgram.Cbs.Pmemobj

/-!
# Failures in the middle of a write to the persistent object store

* `Reached` : the pools that writes lead to, with failures, aborted transactions and restarts between and in them;
* `write_atomic` : a failure or an abort at any point of a write leaves every cell of the root and of the live objects as
  it was before, and one after its return as it was left.
-/

namespace PmemProgram.Cbs.Pmemobj
open PmemProgram.Lib PmemProgram.Lib.Tx PmemProgram.Lib.Objects

section
variable (r : Nat) (c : Page) (s t : Store Cell.Val)

/-- `write_req` returns in `t`. -/
def Returns : Prop := Cmd.Run (fun s t => s = t) AnyAnswer (writeReq r c) s () t

/-- `write_req` passes through `t`. -/
def Passes : Prop := Cmd.Crash (fun s t => s = t) AnyAnswer (writeReq r c) s t

end

/-- The pools that requests to write lead to. -/
inductive Reached : Store Cell.Val → Prop
  | created {s} : Created s → Reached s
  | write {s t r c} : Reached s → InRange r → Returns r c s t → Reached t
  | failure {s t u r c} : Reached s → InRange r → Passes r c s t → Recovers t u → Reached u
  | abort {s t r c} : Reached s → InRange r → Passes r c s t → Reached t.undo
  | restart {s u} : Reached s → Recovers s u → Reached u

variable {s t u : Store Cell.Val} {r : Nat} {c : Page}

theorem Passes.recovers (h : Passes r c s t) (hs : Sound s) (hr : InRange r) (hu : Recovers t u) : Same s u :=
  Cmd.wp_crash (wp_writeReq hs hr) h u hu

theorem Reached.sound (h : Reached s) : Sound s := by
  induction h with
  | created h => exact h.sound
  | write hs hr h ih =>
    rcases Cmd.wp_run (wp_writeReq ih hr) h with ⟨o, q, hw⟩ | ⟨hsame, hidle, -⟩
    · obtain ⟨hb, hi⟩ := inRange_pageRef hr
      exact hw.sound ih hb hi
    · exact ih.same hsame hidle
  | failure _ hr h hu ih => exact ih.same (h.recovers ih hr hu) hu.idle
  | abort _ hr h ih => exact ih.same (h.recovers ih hr (recovers_undo _)) (Store.idle_closed _ _)
  | restart _ hu ih => exact ih.same (ih.idle.recovers hu) hu.idle

/-- **A write is failure atomic.** -/
theorem write_atomic {s : Store Cell.Val} (h : Reached s) {r : Nat} (hr : InRange r) (c : Page) :
    (∀ t, Passes r c s t → Same s t.undo ∧ ∀ u, Recovers t u → Same s u) ∧
    (∀ t, Returns r c s t → (∀ u, Recovers t u → Same t u) ∧
      (Same s t ∨ ∀ r', InRange r' → cached t r' = if r' = r then some c else cached s r')) ∧
    ¬ Cmd.Aborts (fun s t => s = t) AnyAnswer (writeReq r c) s := by
  have hs := h.sound
  refine ⟨fun t ht => ⟨?_, fun u hu => ht.recovers hs hr hu⟩, fun t ht => ?_, Cmd.wp_not_aborts (wp_writeReq hs hr)⟩
  · exact ht.recovers hs hr (recovers_undo t)
  · have hidle := (Reached.write h hr ht).sound.idle
    refine ⟨fun u hu => hidle.recovers hu, ?_⟩
    rcases Cmd.wp_run (wp_writeReq hs hr) ht with ⟨o, q, hw⟩ | ⟨hsame, -, -⟩
    · exact Or.inr fun r' hr' => hw.cached hs hr hr'
    · exact Or.inl hsame

/-- The first write to page 5 of block 0. -/
theorem write_atomic_first :
    InRange 5 ∧ ∀ t, Passes 5 (fun _ => 7) emptyPool t → Same emptyPool t.undo ∧ ∀ u, Recovers t u → Same emptyPool u :=
  ⟨by unfold InRange; decide, (write_atomic (.created created_emptyPool) (by unfold InRange; decide) fun _ => 7).1⟩

end PmemProgram.Cbs.Pmemobj
