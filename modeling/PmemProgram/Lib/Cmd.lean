import Mathlib

/-!
# Commands that may crash: runs, crash images, weakest preconditions

`Cmd κ σ α` is a finite tree of atomic actions on a state `σ`. Between two actions an environment (other
threads) may move the state along a relation `R`; the operating system answers a question `q : κ` with a number
`n` such that `A q n` (`0` is success). A power failure may hit any action: `Crash` gives the states it can leave
behind, including half-performed copies (`torn`).

* `Run R A c s a t` : from `s` the command returns `a` in `t`;
* `Crash R A c s t` : a failure during `c` started in `s` can find the state `t`;
* `wp R A I c Q s` : every crash image satisfies `I`, no assertion fails, every result satisfies `Q`
  (`wp_run`, `wp_crash`, `wp_not_aborts`);
* `exec`, `fails`, `images` : the uninterrupted run with all answers `0`, whether an assertion fails in it, and the
  states it passes, as functions;
* `Moves P c`, `Total c`, `Safe c` : every action of `c` goes along `P` (`Run.moves`), is never blocked (`wp_exec`,
  `returns`), no assertion is made (`wp_safe`); `Yields S c` : every result of `c` is in `S` (`Run.yields`);
* `Commutes p c` : the command does not use the part of the state that `p` changes (`Run.commutes`);
* `zoom` : a command on a component, run on the whole (`wp_zoom`);
* `Small` : one action of a command whose rest is kept as data, for programs that interleave (`wp_small`, `wp_env`).
-/

namespace PmemProgram.Lib

/-- A command over the state `σ` with questions `κ` and result `α`. -/
inductive Cmd (κ σ α : Type) where
  | ret (a : α)
  /-- A failed assertion. -/
  | abort
  /-- A question to the operating system. -/
  | ask (q : κ) (k : Nat → Cmd κ σ α)
  /-- A step on memory that only this command uses: nothing can come between it and the next step. -/
  | loc (f : σ → σ) (k : σ → Cmd κ σ α)
  /-- An atomic action, blocked while `f` is `none`; `torn m` is what a failure in the middle leaves, for
  the part `m` already performed. The rest of the command sees the state the action was applied to. -/
  | act (f : σ → Option σ) (torn : (Nat → Bool) → σ → σ) (k : σ → Cmd κ σ α)

namespace Cmd

variable {κ σ τ α β : Type}

def bind : Cmd κ σ α → (α → Cmd κ σ β) → Cmd κ σ β
  | ret a, g => g a
  | abort, _ => abort
  | ask q k, g => ask q fun n => (k n).bind g
  | loc f k, g => loc f fun s => (k s).bind g
  | act f torn k, g => act f torn fun s => (k s).bind g

instance : Monad (Cmd κ σ) where
  pure := ret
  bind := bind

theorem bind_def (c : Cmd κ σ α) (g : α → Cmd κ σ β) : c >>= g = c.bind g := rfl

theorem pure_def (a : α) : (pure a : Cmd κ σ α) = ret a := rfl

@[simp] theorem ret_bind (a : α) (g : α → Cmd κ σ β) : (ret a).bind g = g a := rfl

theorem bind_assoc {γ : Type} (c : Cmd κ σ α) (g : α → Cmd κ σ β) (h : β → Cmd κ σ γ) :
    (c.bind g).bind h = c.bind fun a => (g a).bind h := by
  induction c with
  | ret a => rfl
  | abort => rfl
  | ask q k ih => exact congrArg (ask q) (funext fun n => ih n)
  | loc f k ih => exact congrArg (loc f) (funext fun s => ih s)
  | act f torn k ih => exact congrArg (act f torn) (funext fun s => ih s)

/-! ## The commands programs are written with -/

/-- Read a part of the state. -/
def get (f : σ → α) : Cmd κ σ α := loc id fun s => ret (f s)

/-- Change volatile memory. -/
def modify (f : σ → σ) : Cmd κ σ Unit := loc f fun _ => ret ()

/-- One atomic action. -/
def step (f : σ → σ) : Cmd κ σ Unit := act (fun s => some (f s)) (fun _ s => s) fun _ => ret ()

/-- One atomic action with a result. -/
def stepGet (f : σ → α × σ) : Cmd κ σ α := act (fun s => some (f s).2) (fun _ s => s) fun s => ret (f s).1

/-- An action performed piece by piece: `f m` has performed the pieces in `m`. -/
def pieces (f : (Nat → Bool) → σ → σ) : Cmd κ σ Unit := act (fun s => some (f (fun _ => true) s)) f fun _ => ret ()

/-- Wait until `f` is possible. -/
def await (f : σ → Option σ) : Cmd κ σ Unit := act f (fun _ s => s) fun _ => ret ()

/-- Ask whether a system call succeeds. -/
def succeeds (q : κ) : Cmd κ σ Bool := ask q fun n => ret (n == 0)

/-- The assertion `p`. -/
def check (p : Prop) [Decidable p] : Cmd κ σ Unit := if p then ret () else abort

/-! ## Runs and crashes -/

section Semantics
variable (R : σ → σ → Prop) (A : κ → Nat → Prop)

/-- From `s` the command returns `a` in `t`. -/
inductive Run : Cmd κ σ α → σ → α → σ → Prop
  | ret {a s} : Run (ret a) s a s
  | ask {q k n s a t} : A q n → Run (k n) s a t → Run (ask q k) s a t
  | loc {f k s a t} : Run (k s) (f s) a t → Run (loc f k) s a t
  | act {f torn k s s₁ s₂ a t} : R s s₁ → f s₁ = some s₂ → Run (k s₁) s₂ a t → Run (act f torn k) s a t

/-- A failure during the command started in `s` can find `t`. -/
inductive Crash : Cmd κ σ α → σ → σ → Prop
  | before {f torn k s s₁} : R s s₁ → Crash (act f torn k) s s₁
  | torn {f torn k s s₁} (m : Nat → Bool) : R s s₁ → Crash (act f torn k) s (torn m s₁)
  | ask {q k n s t} : A q n → Crash (k n) s t → Crash (ask q k) s t
  | loc {f k s t} : Crash (k s) (f s) t → Crash (loc f k) s t
  | act {f torn k s s₁ s₂ t} : R s s₁ → f s₁ = some s₂ → Crash (k s₁) s₂ t → Crash (act f torn k) s t

/-- An assertion of the command started in `s` can fail. -/
inductive Aborts : Cmd κ σ α → σ → Prop
  | abort {s} : Aborts abort s
  | ask {q k n s} : A q n → Aborts (k n) s → Aborts (ask q k) s
  | loc {f k s} : Aborts (k s) (f s) → Aborts (loc f k) s
  | act {f torn k s s₁ s₂} : R s s₁ → f s₁ = some s₂ → Aborts (k s₁) s₂ → Aborts (act f torn k) s

variable {R A}

theorem Run.bind {c : Cmd κ σ α} {g : α → Cmd κ σ β} {s t u : σ} {a : α} {b : β} (h : Run R A c s a t)
    (hg : Run R A (g a) t b u) : Run R A (c.bind g) s b u := by
  induction h with
  | ret => exact hg
  | ask hn _ ih => exact .ask hn (ih hg)
  | loc _ ih => exact .loc (ih hg)
  | act hr hf _ ih => exact .act hr hf (ih hg)

/-- A run of a sequence is a run of its parts. -/
theorem run_bind {c : Cmd κ σ α} {g : α → Cmd κ σ β} {s u : σ} {b : β} (h : Run R A (c.bind g) s b u) :
    ∃ a t, Run R A c s a t ∧ Run R A (g a) t b u := by
  induction c generalizing s with
  | ret a => exact ⟨a, s, .ret, h⟩
  | abort => cases h
  | ask q k ih =>
    cases h with
    | ask hn h =>
      obtain ⟨a, t, h₁, h₂⟩ := ih _ h
      exact ⟨a, t, .ask hn h₁, h₂⟩
  | loc f k ih =>
    cases h with
    | loc h =>
      obtain ⟨a, t, h₁, h₂⟩ := ih _ h
      exact ⟨a, t, .loc h₁, h₂⟩
  | act f torn k ih =>
    cases h with
    | act hr hf h =>
      obtain ⟨a, t, h₁, h₂⟩ := ih _ h
      exact ⟨a, t, .act hr hf h₁, h₂⟩

theorem Crash.bind_left {c : Cmd κ σ α} {s u : σ} (g : α → Cmd κ σ β) (h : Crash R A c s u) :
    Crash R A (c.bind g) s u := by
  induction h with
  | before hr => exact .before hr
  | torn m hr => exact .torn m hr
  | ask hn _ ih => exact .ask hn ih
  | loc _ ih => exact .loc ih
  | act hr hf _ ih => exact .act hr hf ih

theorem Crash.bind_right {c : Cmd κ σ α} {g : α → Cmd κ σ β} {s t u : σ} {a : α} (h : Run R A c s a t)
    (hg : Crash R A (g a) t u) : Crash R A (c.bind g) s u := by
  induction h with
  | ret => exact hg
  | ask hn _ ih => exact .ask hn (ih hg)
  | loc _ ih => exact .loc (ih hg)
  | act hr hf _ ih => exact .act hr hf (ih hg)

theorem Aborts.bind_left {c : Cmd κ σ α} {s : σ} (g : α → Cmd κ σ β) (h : Aborts R A c s) : Aborts R A (c.bind g) s := by
  induction h with
  | abort => exact .abort
  | ask hn _ ih => exact .ask hn ih
  | loc _ ih => exact .loc ih
  | act hr hf _ ih => exact .act hr hf ih

theorem Aborts.bind_right {c : Cmd κ σ α} {g : α → Cmd κ σ β} {s t : σ} {a : α} (h : Run R A c s a t)
    (hg : Aborts R A (g a) t) : Aborts R A (c.bind g) s := by
  induction h with
  | ret => exact hg
  | ask hn _ ih => exact .ask hn (ih hg)
  | loc _ ih => exact .loc (ih hg)
  | act hr hf _ ih => exact .act hr hf (ih hg)

theorem run_get (f : σ → α) (s : σ) : Run R A (get f) s (f s) s := .loc .ret

theorem run_modify (f : σ → σ) (s : σ) : Run R A (modify f) s () (f s) := .loc .ret

theorem run_step {s : σ} (hR : R s s) (f : σ → σ) : Run R A (step f) s () (f s) := .act hR rfl .ret

theorem run_succeeds {q : κ} {n : Nat} (h : A q n) (s : σ) : Run R A (succeeds q) s (n == 0) s := .ask h .ret

theorem run_check {p : Prop} [Decidable p] (hp : p) (s : σ) : Run R A (check p) s () s := by
  rw [check, if_pos hp]
  exact .ret

theorem run_bind_iff {c : Cmd κ σ α} {g : α → Cmd κ σ β} {s u : σ} {b : β} :
    Run R A (c >>= g) s b u ↔ ∃ a t, Run R A c s a t ∧ Run R A (g a) t b u :=
  ⟨run_bind, fun ⟨_, _, h, hg⟩ => h.bind hg⟩

theorem run_pure_iff {a b : α} {s t : σ} : Run R A (pure a) s b t ↔ b = a ∧ t = s :=
  ⟨fun h => by cases h; exact ⟨rfl, rfl⟩, fun ⟨hb, ht⟩ => by rw [hb, ht]; exact .ret⟩

theorem run_get_iff {f : σ → α} {a : α} {s t : σ} : Run R A (get f) s a t ↔ a = f s ∧ t = s := by
  constructor
  · intro h
    cases h with
    | loc h => exact run_pure_iff.mp h
  · rintro ⟨rfl, rfl⟩
    exact run_get f t

theorem run_step_iff {f : σ → σ} {s t : σ} : Run (fun s t => s = t) A (step f) s () t ↔ t = f s := by
  constructor
  · intro h
    cases h with
    | act hr hf h =>
      cases hr
      cases hf
      exact (run_pure_iff.mp h).2
  · rintro rfl
    exact run_step rfl f

theorem run_check_iff {p : Prop} [Decidable p] {s t : σ} : Run R A (check p) s () t ↔ p ∧ t = s := by
  unfold check
  split_ifs with hp
  · exact run_pure_iff.trans ⟨fun h => ⟨hp, h.2⟩, fun h => ⟨rfl, h.2⟩⟩
  · refine ⟨fun h => ?_, fun h => absurd h.1 hp⟩
    cases h

theorem aborts_check {p : Prop} [Decidable p] (hp : ¬ p) (s : σ) : Aborts R A (check p) s := by
  rw [check, if_neg hp]
  exact .abort

end Semantics

/-! ## Weakest preconditions -/

section Wp
variable (R : σ → σ → Prop) (A : κ → Nat → Prop) (I : σ → Prop)

/-- Every crash image satisfies `I`, no assertion fails and every result satisfies `Q`. -/
def wp : Cmd κ σ α → (α → σ → Prop) → σ → Prop
  | ret a, Q, s => Q a s
  | abort, _, _ => False
  | ask q k, Q, s => ∀ n, A q n → wp (k n) Q s
  | loc f k, Q, s => wp (k s) Q (f s)
  | act f torn k, Q, s => ∀ s₁, R s s₁ → I s₁ ∧ (∀ m, I (torn m s₁)) ∧ ∀ s₂, f s₁ = some s₂ → wp (k s₁) Q s₂

variable {R A I} {Q Q' : α → σ → Prop} {c : Cmd κ σ α} {s : σ}

theorem wp_run (h : wp R A I c Q s) {a : α} {t : σ} (hr : Run R A c s a t) : Q a t := by
  induction hr with
  | ret => exact h
  | ask hn _ ih => exact ih (h _ hn)
  | loc _ ih => exact ih h
  | act hr hf _ ih => exact ih ((h _ hr).2.2 _ hf)

theorem wp_crash (h : wp R A I c Q s) {t : σ} (hc : Crash R A c s t) : I t := by
  induction hc with
  | before hr => exact (h _ hr).1
  | torn m hr => exact (h _ hr).2.1 m
  | ask hn _ ih => exact ih (h _ hn)
  | loc _ ih => exact ih h
  | act hr hf _ ih => exact ih ((h _ hr).2.2 _ hf)

theorem wp_not_aborts (h : wp R A I c Q s) : ¬ Aborts R A c s := by
  intro ha
  induction ha with
  | abort => exact h
  | ask hn _ ih => exact ih (h _ hn)
  | loc _ ih => exact ih h
  | act hr hf _ ih => exact ih ((h _ hr).2.2 _ hf)

/-- The rule of consequence. -/
theorem wp_mono {I' : σ → Prop} (hI : ∀ t, I t → I' t) (hQ : ∀ a t, Q a t → Q' a t) (h : wp R A I c Q s) :
    wp R A I' c Q' s := by
  induction c generalizing s with
  | ret a => exact hQ a s h
  | abort => exact h
  | ask q k ih => exact fun n hn => ih n (h n hn)
  | loc f k ih => exact ih _ h
  | act f torn k ih =>
    exact fun s₁ hr => ⟨hI _ (h s₁ hr).1, fun m => hI _ ((h s₁ hr).2.1 m), fun s₂ hf => ih _ ((h s₁ hr).2.2 s₂ hf)⟩

theorem wp_conseq (h : wp R A I c Q s) (hQ : ∀ a t, Q a t → Q' a t) : wp R A I c Q' s :=
  wp_mono (fun _ h => h) hQ h

/-- The rule of conjunction. -/
theorem wp_and (h : wp R A I c Q s) (h' : wp R A I c Q' s) : wp R A I c (fun a t => Q a t ∧ Q' a t) s := by
  induction c generalizing s with
  | ret a => exact ⟨h, h'⟩
  | abort => exact h
  | ask q k ih => exact fun n hn => ih n (h n hn) (h' n hn)
  | loc f k ih => exact ih _ h h'
  | act f torn k ih =>
    exact fun s₁ hr => ⟨(h s₁ hr).1, (h s₁ hr).2.1, fun s₂ hf => ih _ ((h s₁ hr).2.2 s₂ hf) ((h' s₁ hr).2.2 s₂ hf)⟩

@[simp] theorem wp_ret (a : α) : wp R A I (ret a) Q s ↔ Q a s := Iff.rfl

@[simp] theorem wp_pure (a : α) : wp R A I (pure a) Q s ↔ Q a s := Iff.rfl

theorem wp_bind' (c : Cmd κ σ α) (g : α → Cmd κ σ β) (Q : β → σ → Prop) (s : σ) :
    wp R A I (c.bind g) Q s ↔ wp R A I c (fun a t => wp R A I (g a) Q t) s := by
  induction c generalizing s with
  | ret a => exact Iff.rfl
  | abort => exact Iff.rfl
  | ask q k ih => exact forall₂_congr fun n _ => ih n s
  | loc f k ih => exact ih s (f s)
  | act f torn k ih =>
    exact forall₂_congr fun s₁ _ => and_congr_right fun _ => and_congr_right fun _ => forall₂_congr fun s₂ _ => ih s₁ s₂

/-- The rule of composition. -/
@[simp] theorem wp_bind (c : Cmd κ σ α) (g : α → Cmd κ σ β) (Q : β → σ → Prop) (s : σ) :
    wp R A I (c >>= g) Q s ↔ wp R A I c (fun a t => wp R A I (g a) Q t) s := wp_bind' c g Q s

@[simp] theorem wp_ite (p : Prop) [Decidable p] (c d : Cmd κ σ α) :
    wp R A I (if p then c else d) Q s ↔ (p → wp R A I c Q s) ∧ (¬ p → wp R A I d Q s) := by
  split_ifs with hp <;> simp [hp]

@[simp] theorem wp_get (f : σ → α) : wp R A I (get f) Q s ↔ Q (f s) s := Iff.rfl

@[simp] theorem wp_modify (f : σ → σ) (Q : Unit → σ → Prop) : wp R A I (modify f) Q s ↔ Q () (f s) := Iff.rfl

@[simp] theorem wp_succeeds (q : κ) (Q : Bool → σ → Prop) :
    wp R A I (succeeds q) Q s ↔ ∀ n, A q n → Q (n == 0) s := Iff.rfl

@[simp] theorem wp_check (p : Prop) [Decidable p] (Q : Unit → σ → Prop) :
    wp R A I (check p) Q s ↔ p ∧ Q () s := by
  unfold check
  split_ifs with hp <;> simp [hp, wp]

theorem wp_step {f : σ → σ} {Q : Unit → σ → Prop} (h : ∀ s₁, R s s₁ → I s₁ ∧ Q () (f s₁)) :
    wp R A I (step f) Q s := by
  intro s₁ hr
  refine ⟨(h s₁ hr).1, fun _ => (h s₁ hr).1, fun s₂ hf => ?_⟩
  cases hf
  exact (h s₁ hr).2

theorem wp_stepGet {f : σ → α × σ} (h : ∀ s₁, R s s₁ → I s₁ ∧ Q (f s₁).1 (f s₁).2) :
    wp R A I (stepGet f) Q s := by
  intro s₁ hr
  refine ⟨(h s₁ hr).1, fun _ => (h s₁ hr).1, fun s₂ hf => ?_⟩
  cases hf
  exact (h s₁ hr).2

theorem wp_pieces {f : (Nat → Bool) → σ → σ} {Q : Unit → σ → Prop}
    (h : ∀ s₁, R s s₁ → I s₁ ∧ (∀ m, I (f m s₁)) ∧ Q () (f (fun _ => true) s₁)) : wp R A I (pieces f) Q s := by
  intro s₁ hr
  refine ⟨(h s₁ hr).1, (h s₁ hr).2.1, fun s₂ hf => ?_⟩
  cases hf
  exact (h s₁ hr).2.2

theorem wp_await {f : σ → Option σ} {Q : Unit → σ → Prop}
    (h : ∀ s₁, R s s₁ → I s₁ ∧ ∀ s₂, f s₁ = some s₂ → Q () s₂) : wp R A I (await f) Q s :=
  fun s₁ hr => ⟨(h s₁ hr).1, fun _ => (h s₁ hr).1, fun s₂ hf => (h s₁ hr).2 s₂ hf⟩

end Wp

/-! ## The uninterrupted run -/

/-- The run without interference in which every system call succeeds. -/
def exec : Cmd κ σ α → σ → Option (α × σ)
  | ret a, s => some (a, s)
  | abort, _ => none
  | ask _ k, s => (k 0).exec s
  | loc f k, s => (k s).exec (f s)
  | act f _ k, s => (f s).bind (k s).exec

theorem exec_run {R : σ → σ → Prop} {A : κ → Nat → Prop} (hR : ∀ s, R s s) (hA : ∀ q, A q 0) {c : Cmd κ σ α}
    {s t : σ} {a : α} (h : c.exec s = some (a, t)) : Run R A c s a t := by
  induction c generalizing s with
  | ret b => cases h; exact .ret
  | abort => cases h
  | ask q k ih => exact .ask (hA q) (ih 0 h)
  | loc f k ih => exact .loc (ih s h)
  | act f torn k ih =>
    obtain ⟨s₂, hf, h⟩ := Option.bind_eq_some_iff.mp h
    exact .act (hR s) hf (ih s h)

theorem exec_bind' (c : Cmd κ σ α) (g : α → Cmd κ σ β) (s : σ) :
    (c.bind g).exec s = (c.exec s).bind fun r => (g r.1).exec r.2 := by
  induction c generalizing s with
  | ret a => rfl
  | abort => rfl
  | ask q k ih => exact ih 0 s
  | loc f k ih => exact ih s (f s)
  | act f torn k ih =>
    simp only [bind, exec]
    cases f s with
    | none => rfl
    | some t => exact ih s t

@[simp] theorem exec_bind (c : Cmd κ σ α) (g : α → Cmd κ σ β) (s : σ) :
    (c >>= g).exec s = (c.exec s).bind fun r => (g r.1).exec r.2 := exec_bind' c g s

@[simp] theorem exec_pure (a : α) (s : σ) : (pure a : Cmd κ σ α).exec s = some (a, s) := rfl

@[simp] theorem exec_ask (q : κ) (k : Nat → Cmd κ σ α) (s : σ) : (ask q k).exec s = (k 0).exec s := rfl

@[simp] theorem exec_get (f : σ → α) (s : σ) : (get f : Cmd κ σ α).exec s = some (f s, s) := rfl

@[simp] theorem exec_modify (f : σ → σ) (s : σ) : (modify f : Cmd κ σ Unit).exec s = some ((), f s) := rfl

@[simp] theorem exec_step (f : σ → σ) (s : σ) : (step f : Cmd κ σ Unit).exec s = some ((), f s) := rfl

@[simp] theorem exec_stepGet (f : σ → α × σ) (s : σ) : (stepGet f : Cmd κ σ α).exec s = some (f s) := rfl

@[simp] theorem exec_pieces (f : (Nat → Bool) → σ → σ) (s : σ) :
    (pieces f : Cmd κ σ Unit).exec s = some ((), f (fun _ => true) s) := rfl

@[simp] theorem exec_succeeds (q : κ) (s : σ) : (succeeds q : Cmd κ σ Bool).exec s = some (true, s) := rfl

@[simp] theorem exec_check (p : Prop) [Decidable p] (s : σ) :
    (check p : Cmd κ σ Unit).exec s = if p then some ((), s) else none := by
  unfold check
  split_ifs <;> rfl

@[simp] theorem exec_ite (p : Prop) [Decidable p] (c d : Cmd κ σ α) (s : σ) :
    (if p then c else d).exec s = if p then c.exec s else d.exec s := by
  split_ifs <;> rfl

/-- An assertion fails in the uninterrupted run. -/
def fails : Cmd κ σ α → σ → Bool
  | ret _, _ => false
  | abort, _ => true
  | ask _ k, s => (k 0).fails s
  | loc f k, s => (k s).fails (f s)
  | act f _ k, s => (f s).any (k s).fails

theorem fails_aborts {R : σ → σ → Prop} {A : κ → Nat → Prop} (hR : ∀ s, R s s) (hA : ∀ q, A q 0) {c : Cmd κ σ α}
    {s : σ} (h : c.fails s = true) : Aborts R A c s := by
  induction c generalizing s with
  | ret a => cases h
  | abort => exact .abort
  | ask q k ih => exact .ask (hA q) (ih 0 h)
  | loc f k ih => exact .loc (ih s h)
  | act f torn k ih =>
    obtain ⟨t, ht, h⟩ := (Option.any_eq_true _ _).mp h
    exact .act (hR s) ht (ih s h)

/-- The states before each action of the uninterrupted run. -/
def images : Cmd κ σ α → σ → List σ
  | ret _, _ => []
  | abort, _ => []
  | ask _ k, s => (k 0).images s
  | loc f k, s => (k s).images (f s)
  | act f _ k, s => s :: ((f s).map (k s).images).getD []

theorem images_crash {R : σ → σ → Prop} {A : κ → Nat → Prop} (hR : ∀ s, R s s) (hA : ∀ q, A q 0) {c : Cmd κ σ α}
    {s t : σ} (h : t ∈ c.images s) : Crash R A c s t := by
  induction c generalizing s with
  | ret b => simp [images] at h
  | abort => simp [images] at h
  | ask q k ih => exact .ask (hA q) (ih 0 h)
  | loc f k ih => exact .loc (ih s h)
  | act f torn k ih =>
    rcases List.mem_cons.mp h with rfl | h
    · exact .before (hR t)
    · cases hf : f s with
      | none => simp [hf] at h
      | some u => exact .act (hR s) hf (ih s (by simpa [hf] using h))

theorem images_bind' (c : Cmd κ σ α) (g : α → Cmd κ σ β) (s : σ) :
    (c.bind g).images s = c.images s ++ ((c.exec s).map fun r => (g r.1).images r.2).getD [] := by
  induction c generalizing s with
  | ret a => rfl
  | abort => rfl
  | ask q k ih => exact ih 0 s
  | loc f k ih => exact ih s (f s)
  | act f torn k ih =>
    simp only [bind, images, exec, List.cons_append]
    cases f s with
    | none => rfl
    | some t => simp [ih]

@[simp] theorem images_bind (c : Cmd κ σ α) (g : α → Cmd κ σ β) (s : σ) :
    (c >>= g).images s = c.images s ++ ((c.exec s).map fun r => (g r.1).images r.2).getD [] := images_bind' c g s

@[simp] theorem images_pure (a : α) (s : σ) : (pure a : Cmd κ σ α).images s = [] := rfl

@[simp] theorem images_get (f : σ → α) (s : σ) : (get f : Cmd κ σ α).images s = [] := rfl

@[simp] theorem images_modify (f : σ → σ) (s : σ) : (modify f : Cmd κ σ Unit).images s = [] := rfl

@[simp] theorem images_step (f : σ → σ) (s : σ) : (step f : Cmd κ σ Unit).images s = [s] := rfl

@[simp] theorem images_pieces (f : (Nat → Bool) → σ → σ) (s : σ) : (pieces f : Cmd κ σ Unit).images s = [s] := rfl

@[simp] theorem images_succeeds (q : κ) (s : σ) : (succeeds q : Cmd κ σ Bool).images s = [] := rfl

@[simp] theorem images_check (p : Prop) [Decidable p] (s : σ) : (check p : Cmd κ σ Unit).images s = [] := by
  unfold check
  split_ifs <;> rfl

@[simp] theorem images_ite (p : Prop) [Decidable p] (c d : Cmd κ σ α) (s : σ) :
    (if p then c else d).images s = if p then c.images s else d.images s := by
  split_ifs <;> rfl

/-! ## Frames and progress -/

/-- Every action of the command goes along `P`. -/
def Moves (P : σ → σ → Prop) : Cmd κ σ α → Prop
  | ret _ => True
  | abort => True
  | ask _ k => ∀ n, (k n).Moves P
  | loc f k => ∀ s, P s (f s) ∧ (k s).Moves P
  | act f _ k => ∀ s, (∀ t, f s = some t → P s t) ∧ (k s).Moves P

/-- What every action and the environment keep, a run keeps. -/
theorem Run.moves {P R : σ → σ → Prop} {A : κ → Nat → Prop} (hrefl : ∀ s, P s s)
    (htrans : ∀ s t u, P s t → P t u → P s u) (hR : ∀ s t, R s t → P s t) {c : Cmd κ σ α} {s t : σ} {a : α}
    (h : Run R A c s a t) (hc : c.Moves P) : P s t := by
  induction h with
  | ret => exact hrefl _
  | ask _ _ ih => exact ih (hc _)
  | loc _ ih => exact htrans _ _ _ (hc _).1 (ih (hc _).2)
  | act hr hf _ ih => exact htrans _ _ _ (hR _ _ hr) (htrans _ _ _ ((hc _).1 _ hf) (ih (hc _).2))

/-- No action of the command is ever blocked. -/
def Total : Cmd κ σ α → Prop
  | ret _ => True
  | abort => True
  | ask _ k => ∀ n, (k n).Total
  | loc _ k => ∀ s, (k s).Total
  | act f _ k => ∀ s, (f s).isSome ∧ (k s).Total

/-- The command makes no assertion. -/
def Safe : Cmd κ σ α → Prop
  | ret _ => True
  | abort => False
  | ask _ k => ∀ n, (k n).Safe
  | loc _ k => ∀ s, (k s).Safe
  | act _ _ k => ∀ s, (k s).Safe

theorem wp_safe {R : σ → σ → Prop} {A : κ → Nat → Prop} {c : Cmd κ σ α} (h : c.Safe) (s : σ) :
    wp R A (fun _ => True) c (fun _ _ => True) s := by
  induction c generalizing s with
  | ret a => exact trivial
  | abort => exact h
  | ask q k ih => exact fun n _ => ih n (h n) s
  | loc f k ih => exact ih s (h s) (f s)
  | act f torn k ih => exact fun s₁ _ => ⟨trivial, fun _ => trivial, fun s₂ _ => ih s₁ (h s₁) s₂⟩

/-- A command that is never blocked and whose assertions hold returns. -/
theorem wp_exec {R : σ → σ → Prop} {A : κ → Nat → Prop} {I : σ → Prop} {Q : α → σ → Prop} (hR : ∀ s, R s s)
    (hA : ∀ q, A q 0) {c : Cmd κ σ α} {s : σ} (h : wp R A I c Q s) (hc : c.Total) : ∃ a t, c.exec s = some (a, t) ∧ Q a t := by
  induction c generalizing s with
  | ret a => exact ⟨a, s, rfl, h⟩
  | abort => exact h.elim
  | ask q k ih => exact ih 0 (h 0 (hA q)) (hc 0)
  | loc f k ih => exact ih s h (hc s)
  | act f torn k ih =>
    obtain ⟨t, ht⟩ := Option.isSome_iff_exists.mp (hc s).1
    obtain ⟨a, u, hu, hQ⟩ := ih s ((h s (hR s)).2.2 t ht) (hc s).2
    exact ⟨a, u, by rw [exec, ht]; exact hu, hQ⟩

/-- A command that is never blocked and does not return fails. -/
theorem exec_none_aborts {R : σ → σ → Prop} {A : κ → Nat → Prop} (hR : ∀ s, R s s) (hA : ∀ q, A q 0) {c : Cmd κ σ α}
    {s : σ} (hc : c.Total) (h : c.exec s = none) : Aborts R A c s := by
  induction c generalizing s with
  | ret a => cases h
  | abort => exact .abort
  | ask q k ih => exact .ask (hA q) (ih 0 (hc 0) h)
  | loc f k ih => exact .loc (ih s (hc s) h)
  | act f torn k ih =>
    obtain ⟨t, ht⟩ := Option.isSome_iff_exists.mp (hc s).1
    rw [exec, ht] at h
    exact .act (hR s) ht (ih s (hc s).2 h)

/-- A command that is never blocked and does not fail returns. -/
theorem returns {R : σ → σ → Prop} {A : κ → Nat → Prop} (hR : ∀ s, R s s) (hA : ∀ q, ∃ n, A q n) {c : Cmd κ σ α}
    {s : σ} (hc : c.Total) (h : ¬ Aborts R A c s) : ∃ a t, Run R A c s a t := by
  induction c generalizing s with
  | ret a => exact ⟨a, s, .ret⟩
  | abort => exact absurd .abort h
  | ask q k ih =>
    obtain ⟨n, hn⟩ := hA q
    obtain ⟨a, t, ht⟩ := ih n (hc n) fun habort => h (.ask hn habort)
    exact ⟨a, t, .ask hn ht⟩
  | loc f k ih =>
    obtain ⟨a, t, ht⟩ := ih s (hc s) fun habort => h (.loc habort)
    exact ⟨a, t, .loc ht⟩
  | act f torn k ih =>
    obtain ⟨u, hu⟩ := Option.isSome_iff_exists.mp (hc s).1
    obtain ⟨a, t, ht⟩ := ih s (hc s).2 fun habort => h (.act (hR s) hu habort)
    exact ⟨a, t, .act (hR s) hu ht⟩

section
variable {P : σ → σ → Prop}

theorem moves_bind {c : Cmd κ σ α} {g : α → Cmd κ σ β} (hc : c.Moves P) (hg : ∀ a, (g a).Moves P) :
    (c >>= g).Moves P := by
  change (c.bind g).Moves P
  induction c with
  | ret a => exact hg a
  | abort => exact trivial
  | ask q k ih => exact fun n => ih n (hc n)
  | loc f k ih => exact fun s => ⟨(hc s).1, ih s (hc s).2⟩
  | act f torn k ih => exact fun s => ⟨(hc s).1, ih s (hc s).2⟩

theorem moves_pure (a : α) : (pure a : Cmd κ σ α).Moves P := trivial

theorem moves_ite {p : Prop} [Decidable p] {c d : Cmd κ σ α} (hc : c.Moves P) (hd : d.Moves P) :
    (if p then c else d).Moves P := by
  split_ifs
  · exact hc
  · exact hd

theorem moves_get (hrefl : ∀ s, P s s) (f : σ → α) : (get f : Cmd κ σ α).Moves P := fun s => ⟨hrefl s, trivial⟩

theorem moves_modify {f : σ → σ} (h : ∀ s, P s (f s)) : (modify f : Cmd κ σ Unit).Moves P := fun s => ⟨h s, trivial⟩

theorem moves_bind_get (hrefl : ∀ s, P s s) {f : σ → α} {g : α → Cmd κ σ β} (hg : ∀ s, (g (f s)).Moves P) :
    (get f >>= g).Moves P := fun s => ⟨hrefl s, hg s⟩

theorem moves_step {f : σ → σ} (h : ∀ s, P s (f s)) : (step f : Cmd κ σ Unit).Moves P :=
  fun s => ⟨fun _ ht => Option.some.inj ht ▸ h s, trivial⟩

theorem moves_stepGet {f : σ → α × σ} (h : ∀ s, P s (f s).2) : (stepGet f : Cmd κ σ α).Moves P :=
  fun s => ⟨fun _ ht => Option.some.inj ht ▸ h s, trivial⟩

theorem moves_pieces {f : (Nat → Bool) → σ → σ} (h : ∀ s, P s (f (fun _ => true) s)) :
    (pieces f : Cmd κ σ Unit).Moves P :=
  fun s => ⟨fun _ ht => Option.some.inj ht ▸ h s, trivial⟩

theorem moves_check (p : Prop) [Decidable p] : (check p : Cmd κ σ Unit).Moves P := by
  unfold check
  split_ifs <;> exact trivial

theorem moves_succeeds (q : κ) : (succeeds q : Cmd κ σ Bool).Moves P := fun _ => trivial

theorem moves_await {f : σ → Option σ} (h : ∀ s t, f s = some t → P s t) : (await f : Cmd κ σ Unit).Moves P :=
  fun s => ⟨h s, trivial⟩

theorem Moves.mono {Q : σ → σ → Prop} (h : ∀ s t, P s t → Q s t) {c : Cmd κ σ α} (hc : c.Moves P) : c.Moves Q := by
  induction c with
  | ret a => exact trivial
  | abort => exact trivial
  | ask q k ih => exact fun n => ih n (hc n)
  | loc f k ih => exact fun s => ⟨h _ _ (hc s).1, ih s (hc s).2⟩
  | act f torn k ih => exact fun s => ⟨fun t ht => h _ _ ((hc s).1 t ht), ih s (hc s).2⟩

end

/-! ## Results -/

/-- Every result of the command is in `S`. -/
def Yields (S : α → Prop) : Cmd κ σ α → Prop
  | ret a => S a
  | abort => True
  | ask _ k => ∀ n, (k n).Yields S
  | loc _ k => ∀ s, (k s).Yields S
  | act _ _ k => ∀ s, (k s).Yields S

theorem Run.yields {S : α → Prop} {R : σ → σ → Prop} {A : κ → Nat → Prop} {c : Cmd κ σ α} {s t : σ} {a : α}
    (h : Run R A c s a t) (hc : c.Yields S) : S a := by
  induction h with
  | ret => exact hc
  | ask _ _ ih => exact ih (hc _)
  | loc _ ih => exact ih (hc _)
  | act _ _ _ ih => exact ih (hc _)

theorem yields_bind {S : β → Prop} {g : α → Cmd κ σ β} (hg : ∀ a, (g a).Yields S) (c : Cmd κ σ α) :
    (c >>= g).Yields S := by
  change (c.bind g).Yields S
  induction c with
  | ret a => exact hg a
  | abort => exact trivial
  | ask q k ih => exact fun n => ih n
  | loc f k ih => exact fun s => ih s
  | act f torn k ih => exact fun s => ih s

theorem yields_pure {S : α → Prop} {a : α} (h : S a) : (pure a : Cmd κ σ α).Yields S := h

theorem yields_ite {S : α → Prop} {p : Prop} [Decidable p] {c d : Cmd κ σ α} (hc : c.Yields S) (hd : d.Yields S) :
    (if p then c else d).Yields S := by
  split_ifs
  · exact hc
  · exact hd

theorem total_bind {c : Cmd κ σ α} {g : α → Cmd κ σ β} (hc : c.Total) (hg : ∀ a, (g a).Total) :
    (c >>= g).Total := by
  change (c.bind g).Total
  induction c with
  | ret a => exact hg a
  | abort => exact trivial
  | ask q k ih => exact fun n => ih n (hc n)
  | loc f k ih => exact fun s => ih s (hc s)
  | act f torn k ih => exact fun s => ⟨(hc s).1, ih s (hc s).2⟩

theorem safe_bind {c : Cmd κ σ α} {g : α → Cmd κ σ β} (hc : c.Safe) (hg : ∀ a, (g a).Safe) : (c >>= g).Safe := by
  change (c.bind g).Safe
  induction c with
  | ret a => exact hg a
  | abort => exact hc
  | ask q k ih => exact fun n => ih n (hc n)
  | loc f k ih => exact fun s => ih s (hc s)
  | act f torn k ih => exact fun s => ih s (hc s)

theorem safe_ite {p : Prop} [Decidable p] {c d : Cmd κ σ α} (hc : c.Safe) (hd : d.Safe) :
    (if p then c else d).Safe := by
  split_ifs
  · exact hc
  · exact hd

theorem total_pure (a : α) : (pure a : Cmd κ σ α).Total := trivial

theorem total_ite {p : Prop} [Decidable p] {c d : Cmd κ σ α} (hc : c.Total) (hd : d.Total) :
    (if p then c else d).Total := by
  split_ifs
  · exact hc
  · exact hd

theorem total_get (f : σ → α) : (get f : Cmd κ σ α).Total := fun _ => trivial

theorem total_modify (f : σ → σ) : (modify f : Cmd κ σ Unit).Total := fun _ => trivial

theorem total_step (f : σ → σ) : (step f : Cmd κ σ Unit).Total := fun _ => ⟨rfl, trivial⟩

theorem total_pieces (f : (Nat → Bool) → σ → σ) : (pieces f : Cmd κ σ Unit).Total := fun _ => ⟨rfl, trivial⟩

theorem total_check (p : Prop) [Decidable p] : (check p : Cmd κ σ Unit).Total := by
  unfold check
  split_ifs <;> exact trivial

/-! ## Parts that are not used -/

/-- `p` changes a part of the state that the command neither reads nor writes: every action commutes with it, and what
comes after does not see it. -/
def Commutes (p : σ → σ) : Cmd κ σ α → Prop
  | ret _ => True
  | abort => True
  | ask _ k => ∀ n, (k n).Commutes p
  | loc f k => ∀ s, f (p s) = p (f s) ∧ k (p s) = k s ∧ (k s).Commutes p
  | act f _ k => ∀ s, f (p s) = (f s).map p ∧ k (p s) = k s ∧ (k s).Commutes p

theorem Run.commutes {p : σ → σ} {R : σ → σ → Prop} {A : κ → Nat → Prop} (hR : ∀ s t, R s t → R (p s) (p t))
    {c : Cmd κ σ α} {s t : σ} {a : α} (h : Run R A c s a t) (hc : c.Commutes p) : Run R A c (p s) a (p t) := by
  induction h with
  | ret => exact .ret
  | ask hn _ ih => exact .ask hn (ih (hc _))
  | @loc f k s _ _ _ ih =>
    obtain ⟨hf, hk, hrest⟩ := hc s
    refine .loc ?_
    rw [hf, hk]
    exact ih hrest
  | @act f torn k s s₁ s₂ _ _ hr hs _ ih =>
    obtain ⟨hf, hk, hrest⟩ := hc s₁
    have hf' : f (p s₁) = some (p s₂) := by rw [hf, hs, Option.map_some]
    refine .act (hR _ _ hr) hf' ?_
    rw [hk]
    exact ih hrest

section
variable {p : σ → σ}

theorem commutes_bind {c : Cmd κ σ α} {g : α → Cmd κ σ β} (hc : c.Commutes p) (hg : ∀ a, (g a).Commutes p) :
    (c >>= g).Commutes p := by
  change (c.bind g).Commutes p
  induction c with
  | ret a => exact hg a
  | abort => exact trivial
  | ask q k ih => exact fun n => ih n (hc n)
  | loc f k ih => exact fun s => ⟨(hc s).1, congrArg (·.bind g) (hc s).2.1, ih s (hc s).2.2⟩
  | act f torn k ih => exact fun s => ⟨(hc s).1, congrArg (·.bind g) (hc s).2.1, ih s (hc s).2.2⟩

theorem commutes_pure (a : α) : (pure a : Cmd κ σ α).Commutes p := trivial

theorem commutes_ite {q : Prop} [Decidable q] {c d : Cmd κ σ α} (hc : q → c.Commutes p) (hd : ¬ q → d.Commutes p) :
    (if q then c else d).Commutes p := by
  split_ifs with hq
  · exact hc hq
  · exact hd hq

theorem commutes_get {f : σ → α} (h : ∀ s, f (p s) = f s) : (get f : Cmd κ σ α).Commutes p :=
  fun s => ⟨rfl, congrArg ret (h s), trivial⟩

theorem commutes_modify {f : σ → σ} (h : ∀ s, f (p s) = p (f s)) : (modify f : Cmd κ σ Unit).Commutes p :=
  fun s => ⟨h s, rfl, trivial⟩

theorem commutes_step {f : σ → σ} (h : ∀ s, f (p s) = p (f s)) : (step f : Cmd κ σ Unit).Commutes p :=
  fun s => ⟨congrArg some (h s), rfl, trivial⟩

theorem commutes_stepGet {f : σ → α × σ} (h : ∀ s, f (p s) = ((f s).1, p (f s).2)) :
    (stepGet f : Cmd κ σ α).Commutes p :=
  fun s => ⟨congrArg (some ·.2) (h s), congrArg (ret ·.1) (h s), trivial⟩

theorem commutes_pieces {f : (Nat → Bool) → σ → σ} (h : ∀ s, f (fun _ => true) (p s) = p (f (fun _ => true) s)) :
    (pieces f : Cmd κ σ Unit).Commutes p :=
  fun s => ⟨congrArg some (h s), rfl, trivial⟩

theorem commutes_succeeds (q : κ) : (succeeds q : Cmd κ σ Bool).Commutes p := fun _ => trivial

theorem commutes_check (q : Prop) [Decidable q] : (check q : Cmd κ σ Unit).Commutes p := by
  unfold check
  split_ifs <;> exact trivial

end

/-! ## Components -/

/-- A command on a component of the state. -/
def zoom (get : τ → σ) (put : σ → τ → τ) : Cmd κ σ α → Cmd κ τ α
  | ret a => ret a
  | abort => abort
  | ask q k => ask q fun n => (k n).zoom get put
  | loc f k => loc (fun w => put (f (get w)) w) fun w => (k (get w)).zoom get put
  | act f torn k => act (fun w => (f (get w)).map fun s => put s w) (fun m w => put (torn m (get w)) w)
      fun w => (k (get w)).zoom get put

theorem zoom_bind (get : τ → σ) (put : σ → τ → τ) (c : Cmd κ σ α) (g : α → Cmd κ σ β) :
    (c >>= g).zoom get put = c.zoom get put >>= fun a => (g a).zoom get put := by
  change (c.bind g).zoom get put = (c.zoom get put).bind fun a => (g a).zoom get put
  induction c with
  | ret a => rfl
  | abort => rfl
  | ask q k ih => exact congrArg (ask q) (funext fun n => ih n)
  | loc f k ih => exact congrArg (loc _) (funext fun w => ih (get w))
  | act f torn k ih => exact congrArg (act _ _) (funext fun w => ih (get w))

theorem zoom_ite (get : τ → σ) (put : σ → τ → τ) (p : Prop) [Decidable p] (c d : Cmd κ σ α) :
    (if p then c else d).zoom get put = if p then c.zoom get put else d.zoom get put := by
  split_ifs <;> rfl

theorem total_zoom (get : τ → σ) (put : σ → τ → τ) {c : Cmd κ σ α} (h : c.Total) : (c.zoom get put).Total := by
  induction c with
  | ret a => exact trivial
  | abort => exact trivial
  | ask q k ih => exact fun n => ih n (h n)
  | loc f k ih => exact fun w => ih (get w) (h (get w))
  | act f torn k ih =>
    intro w
    obtain ⟨hsome, hk⟩ := h (get w)
    refine ⟨?_, ih (get w) hk⟩
    rwa [Option.isSome_map]

theorem moves_zoom {get : τ → σ} {put : σ → τ → τ} {P : σ → σ → Prop} {Q : τ → τ → Prop}
    (h : ∀ w s, P (get w) s → Q w (put s w)) {c : Cmd κ σ α} (hc : c.Moves P) : (c.zoom get put).Moves Q := by
  induction c with
  | ret a => exact trivial
  | abort => exact trivial
  | ask q k ih => exact fun n => ih n (hc n)
  | loc f k ih => exact fun w => ⟨h _ _ (hc (get w)).1, ih (get w) (hc (get w)).2⟩
  | act f torn k ih =>
    refine fun w => ⟨fun t ht => ?_, ih (get w) (hc (get w)).2⟩
    obtain ⟨s, hs, rfl⟩ := Option.map_eq_some_iff.mp ht
    exact h _ _ ((hc (get w)).1 s hs)

theorem total_succeeds (q : κ) : (succeeds q : Cmd κ σ Bool).Total := fun _ => trivial

theorem total_stepGet (f : σ → α × σ) : (stepGet f : Cmd κ σ α).Total := fun _ => ⟨rfl, trivial⟩

/-- A specification of the component holds for the whole, with a frame `F` that neither the command nor the
environment breaks. -/
theorem wp_zoom {get : τ → σ} {put : σ → τ → τ} {R : σ → σ → Prop} {S : τ → τ → Prop} {A : κ → Nat → Prop}
    {I : σ → Prop} {J F : τ → Prop} (hget : ∀ s w, F w → get (put s w) = s) (hput : ∀ s w, F w → F (put s w))
    (hS : ∀ w w', F w → S w w' → F w' ∧ R (get w) (get w')) (hJ : ∀ w, F w → I (get w) → J w) {c : Cmd κ σ α}
    {Q : α → σ → Prop} {w : τ} (hF : F w) (h : wp R A I c Q (get w)) :
    wp S A J (c.zoom get put) (fun a w => F w ∧ Q a (get w)) w := by
  induction c generalizing w with
  | ret a => exact ⟨hF, h⟩
  | abort => exact h
  | ask q k ih => exact fun n hn => ih n hF (h n hn)
  | loc f k ih => exact ih _ (hput _ _ hF) (by rw [hget _ _ hF]; exact h)
  | act f torn k ih =>
    intro w₁ hw
    obtain ⟨hF₁, hR⟩ := hS w w₁ hF hw
    obtain ⟨h₁, h₂, h₃⟩ := h _ hR
    refine ⟨hJ w₁ hF₁ h₁, fun m => hJ _ (hput _ _ hF₁) (by rw [hget _ _ hF₁]; exact h₂ m), fun w₂ hf => ?_⟩
    obtain ⟨s₂, hs₂, rfl⟩ := Option.map_eq_some_iff.mp hf
    exact ih _ (hput _ _ hF₁) (by rw [hget _ _ hF₁]; exact h₃ s₂ hs₂)

/-! ## Small steps -/

section Small

/-- One action of a command. -/
inductive Small (A : κ → Nat → Prop) : Cmd κ σ α → σ → Cmd κ σ α → σ → Prop
  | ask {q k n s} : A q n → Small A (ask q k) s (k n) s
  | loc {f k s} : Small A (loc f k) s (k s) (f s)
  | act {f torn k s t} : f s = some t → Small A (act f torn k) s (k s) t

/-- Some actions of a command. -/
inductive Smalls (A : κ → Nat → Prop) : Cmd κ σ α → σ → Cmd κ σ α → σ → Prop
  | refl {c s} : Smalls A c s c s
  | head {c s c₁ s₁ c₂ s₂} : Small A c s c₁ s₁ → Smalls A c₁ s₁ c₂ s₂ → Smalls A c s c₂ s₂

/-- A run is a sequence of actions. -/
theorem Run.smalls {A : κ → Nat → Prop} {c : Cmd κ σ α} {s t : σ} {a : α} (h : Run (fun s t => s = t) A c s a t) :
    Smalls A c s (Cmd.ret a) t := by
  induction h with
  | ret => exact .refl
  | ask hn _ ih => exact .head (.ask hn) ih
  | loc _ ih => exact .head .loc ih
  | act hr hf _ ih =>
    subst hr
    exact .head (.act hf) ih

/-- The command uses no memory of its own. -/
def Shared : Cmd κ σ α → Prop
  | ret _ => True
  | abort => True
  | ask _ k => ∀ n, (k n).Shared
  | loc _ _ => False
  | act _ _ k => ∀ s, (k s).Shared

theorem shared_bind {c : Cmd κ σ α} {g : α → Cmd κ σ β} (hc : c.Shared) (hg : ∀ a, (g a).Shared) :
    (c >>= g).Shared := by
  change (c.bind g).Shared
  induction c with
  | ret a => exact hg a
  | abort => exact trivial
  | ask q k ih => exact fun n => ih n (hc n)
  | loc f k ih => exact hc.elim
  | act f torn k ih => exact fun s => ih s (hc s)

/-- Calls, and actions that are always possible and go along `P`. -/
structure Plain (P : σ → σ → Prop) (c : Cmd κ σ α) : Prop where
  total : c.Total
  shared : c.Shared
  moves : c.Moves P

section
variable {P : σ → σ → Prop}

theorem plain_pure (a : α) : (pure a : Cmd κ σ α).Plain P := ⟨trivial, trivial, trivial⟩

theorem plain_bind {c : Cmd κ σ α} {g : α → Cmd κ σ β} (hc : c.Plain P) (hg : ∀ a, (g a).Plain P) :
    (c >>= g).Plain P :=
  ⟨total_bind hc.total fun a => (hg a).total, shared_bind hc.shared fun a => (hg a).shared,
    moves_bind hc.moves fun a => (hg a).moves⟩

theorem plain_step {f : σ → σ} (h : ∀ s, P s (f s)) : (step f : Cmd κ σ Unit).Plain P :=
  ⟨total_step f, fun _ => trivial, moves_step h⟩

theorem plain_succeeds (q : κ) : (succeeds q : Cmd κ σ Bool).Plain P :=
  ⟨total_succeeds q, fun _ => trivial, fun _ => trivial⟩

theorem plain_ite {p : Prop} [Decidable p] {c d : Cmd κ σ α} (hc : c.Plain P) (hd : d.Plain P) :
    (if p then c else d).Plain P := by
  split_ifs
  · exact hc
  · exact hd

/-- An action goes along `P`, and so does the rest. -/
theorem Small.plain {A : κ → Nat → Prop} {c c' : Cmd κ σ α} {s s' : σ} (hrefl : ∀ s, P s s)
    (h : Small A c s c' s') (hc : c.Plain P) : P s s' ∧ c'.Plain P := by
  cases h with
  | ask _ => exact ⟨hrefl _, hc.total _, hc.shared _, hc.moves _⟩
  | loc => exact hc.shared.elim
  | act hf => exact ⟨(hc.moves _).1 _ hf, (hc.total _).2, hc.shared _, (hc.moves _).2⟩

end

variable {R : σ → σ → Prop} {A : κ → Nat → Prop} {I : σ → Prop} {Q : α → σ → Prop} {c c' : Cmd κ σ α} {s s' : σ}

/-- An action keeps the specification of the rest. -/
theorem wp_small (hR : ∀ s, R s s) (h : wp R A I c Q s) (hs : Small A c s c' s') : wp R A I c' Q s' := by
  cases hs with
  | ask hn => exact h _ hn
  | loc => exact h
  | act hf => exact (h s (hR s)).2.2 _ hf

/-- The environment keeps the specification of a command that uses no memory of its own. -/
theorem wp_env (htrans : ∀ s t u, R s t → R t u → R s u) (hQ : ∀ a s t, R s t → Q a s → Q a t) (hc : c.Shared)
    (hR : R s s') (h : wp R A I c Q s) : wp R A I c Q s' := by
  induction c with
  | ret a => exact hQ a s s' hR h
  | abort => exact h
  | ask q k ih => exact fun n hn => ih n (hc n) (h n hn)
  | loc f k ih => exact hc.elim
  | act f torn k ih => exact fun s₁ h₁ => h s₁ (htrans _ _ _ hR h₁)

end Small

end Cmd

end PmemProgram.Lib
