import PmemProgram.Lib.Cmd

/-!
# Machines that answer requests

A machine takes a request and answers it, or stops. `serve` feeds it a list of requests; a machine of the specification
never stops (`answers`).

* `serve_of_sim` : a simulation step by step makes the answers of the two machines equal;
* `answers_append` : requests in two parts;
* `serveAll` : the same for a program; `wp_serveAll` : it answers like the specification as long as every request is
  `Allowed`; `wp_serveAll_image` : and what a failure finds; `wp_serveAll_choice` : with a choice in every request;
  `aborts_serveAll` : it fails at the first one that is not allowed, if the program does.
-/

namespace PmemProgram.Lib.Machine

variable {σ τ α β : Type}

/-- The state after the requests and the answers; `none` if a request stops the machine. -/
def serve (step : σ → α → Option (σ × β)) : σ → List α → Option (σ × List β)
  | s, [] => some (s, [])
  | s, a :: as => (step s a).bind fun r => (serve step r.1 as).map fun u => (u.1, r.2 :: u.2)

/-- The state after the requests and the answers. -/
def answers (spec : τ → α → τ × β) : τ → List α → τ × List β
  | t, [] => (t, [])
  | t, a :: as => ((answers spec (spec t a).1 as).1, (spec t a).2 :: (answers spec (spec t a).1 as).2)

theorem answers_append (spec : τ → α → τ × β) (t : τ) (as bs : List α) :
    answers spec t (as ++ bs) =
      ((answers spec (answers spec t as).1 bs).1, (answers spec t as).2 ++ (answers spec (answers spec t as).1 bs).2) := by
  induction as generalizing t with
  | nil => rfl
  | cons a as ih =>
    rw [List.cons_append, answers, ih]
    rfl

theorem length_answers (spec : τ → α → τ × β) (t : τ) (as : List α) : (answers spec t as).2.length = as.length := by
  induction as generalizing t with
  | nil => rfl
  | cons a as ih => rw [answers, List.length_cons, List.length_cons, ih]

/-- **Simulation**: related machines answer alike, and stay related. -/
theorem serve_of_sim {step : σ → α → Option (σ × β)} {spec : τ → α → τ × β} {R : σ → τ → Prop} {ok : α → Prop}
    (hsim : ∀ s t a, R s t → ok a → ∃ s', step s a = some (s', (spec t a).2) ∧ R s' (spec t a).1) {s : σ} {t : τ}
    (h : R s t) {as : List α} (has : ∀ a ∈ as, ok a) :
    ∃ s', serve step s as = some (s', (answers spec t as).2) ∧ R s' (answers spec t as).1 := by
  induction as generalizing s t with
  | nil => exact ⟨s, rfl, h⟩
  | cons a as ih =>
    obtain ⟨s₁, hs₁, h₁⟩ := hsim s t a h (has a List.mem_cons_self)
    obtain ⟨s₂, hs₂, h₂⟩ := ih h₁ fun b hb => has b (List.mem_cons_of_mem a hb)
    refine ⟨s₂, ?_, h₂⟩
    rw [serve, hs₁, Option.bind_some, hs₂]
    rfl

/-! ## Programs -/

section
variable {κ : Type} {R : σ → σ → Prop} {A : κ → Nat → Prop} {I : σ → Prop} {perform : α → Cmd κ σ β} {spec : τ → α → τ × β}
  {Rel : σ → τ → Prop} {ok : τ → α → Prop} {s : σ} {t : τ} {as bs : List α}

/-- Requests to a program, with its answers. -/
def serveAll (perform : α → Cmd κ σ β) : List α → Cmd κ σ (List β)
  | [] => return []
  | a :: as => do
    let x ← perform a
    let xs ← serveAll perform as
    return x :: xs

/-- Every request is allowed in the state that the ones before it lead to. -/
def Allowed (spec : τ → α → τ × β) (ok : τ → α → Prop) : τ → List α → Prop
  | _, [] => True
  | t, a :: as => ok t a ∧ Allowed spec ok (spec t a).1 as

theorem allowed_append (t : τ) (as bs : List α) : Allowed spec ok t (as ++ bs) ↔
    Allowed spec ok t as ∧ Allowed spec ok (answers spec t as).1 bs := by
  induction as generalizing t with
  | nil => exact iff_of_eq (true_and _).symm
  | cons a as ih =>
    rw [List.cons_append, Allowed, Allowed, ih, and_assoc]
    rfl

theorem wp_serveAll
    (hstep : ∀ s t a, Rel s t → ok t a → Cmd.wp R A I (perform a) (fun x s' => x = (spec t a).2 ∧ Rel s' (spec t a).1) s)
    (h : Rel s t) (has : Allowed spec ok t as) :
    Cmd.wp R A I (serveAll perform as) (fun xs s' => xs = (answers spec t as).2 ∧ Rel s' (answers spec t as).1) s := by
  induction as generalizing s t with
  | nil => exact ⟨rfl, h⟩
  | cons a as ih =>
    refine (Cmd.wp_bind _ _ _ _).mpr (Cmd.wp_conseq (hstep s t a h has.1) fun x s₁ hx => ?_)
    refine (Cmd.wp_bind _ _ _ _).mpr (Cmd.wp_conseq (ih hx.2 has.2) fun xs s₂ hxs => ?_)
    refine ⟨?_, hxs.2⟩
    show x :: xs = _
    rw [hx.1, hxs.1]
    rfl

/-- With what a failure can find: it is during one request, after the ones before it. -/
theorem wp_serveAll_image {Image : τ → α → σ → Prop}
    (hstep : ∀ s t a, Rel s t → ok t a →
      Cmd.wp R A (Image t a) (perform a) (fun x s' => x = (spec t a).2 ∧ Rel s' (spec t a).1) s)
    (h : Rel s t) (has : Allowed spec ok t as) :
    Cmd.wp R A (fun u => ∃ pre a post, as = pre ++ a :: post ∧ Image (answers spec t pre).1 a u) (serveAll perform as)
      (fun xs s' => xs = (answers spec t as).2 ∧ Rel s' (answers spec t as).1) s := by
  induction as generalizing s t with
  | nil => exact ⟨rfl, h⟩
  | cons a as ih =>
    have hfirst := hstep s t a h has.1
    refine (Cmd.wp_bind _ _ _ _).mpr (Cmd.wp_mono (fun u hu => ⟨[], a, as, rfl, hu⟩) ?_ hfirst)
    rintro x s₁ ⟨rfl, h₁⟩
    refine (Cmd.wp_bind _ _ _ _).mpr (Cmd.wp_mono ?_ ?_ (ih h₁ has.2))
    · rintro u ⟨pre, b, post, rfl, hu⟩
      exact ⟨a :: pre, b, post, rfl, hu⟩
    · rintro xs s₂ ⟨rfl, h₂⟩
      exact ⟨rfl, h₂⟩

/-- With a choice in every request, that the specification is told. -/
theorem wp_serveAll_choice {γ : Type} {spec : τ → γ × α → τ × β} {may : γ → Prop} {ok : α → Prop}
    (hstep : ∀ s t a, Rel s t → ok a → Cmd.wp R A I (perform a)
      (fun x s' => ∃ e, may e ∧ x = (spec t (e, a)).2 ∧ Rel s' (spec t (e, a)).1) s)
    (h : Rel s t) (has : ∀ a ∈ as, ok a) :
    Cmd.wp R A I (serveAll perform as) (fun xs s' => ∃ eas : List (γ × α), eas.map Prod.snd = as ∧
      (∀ ea ∈ eas, may ea.1) ∧ xs = (answers spec t eas).2 ∧ Rel s' (answers spec t eas).1) s := by
  induction as generalizing s t with
  | nil => exact ⟨[], rfl, fun _ he => absurd he List.not_mem_nil, rfl, h⟩
  | cons a as ih =>
    refine (Cmd.wp_bind _ _ _ _).mpr (Cmd.wp_conseq (hstep s t a h (has a List.mem_cons_self)) ?_)
    rintro x s₁ ⟨e, he, rfl, h₁⟩
    refine (Cmd.wp_bind _ _ _ _).mpr (Cmd.wp_conseq (ih h₁ fun b hb => has b (List.mem_cons_of_mem a hb)) ?_)
    rintro xs s₂ ⟨eas, rfl, heas, rfl, h₂⟩
    refine ⟨(e, a) :: eas, rfl, fun ea hea => ?_, rfl, h₂⟩
    rcases List.mem_cons.mp hea with rfl | hea
    · exact he
    · exact heas ea hea

theorem total_serveAll (h : ∀ a, (perform a).Total) (as : List α) : (serveAll perform as).Total := by
  induction as with
  | nil => exact Cmd.total_pure _
  | cons a as ih => exact Cmd.total_bind (h a) fun _ => Cmd.total_bind ih fun _ => Cmd.total_pure _

theorem run_append {xs ys : List β} {s' u : σ} (h : Cmd.Run R A (serveAll perform as) s xs s')
    (hbs : Cmd.Run R A (serveAll perform bs) s' ys u) : Cmd.Run R A (serveAll perform (as ++ bs)) s (xs ++ ys) u := by
  induction as generalizing s xs with
  | nil =>
    cases h
    exact hbs
  | cons a as ih =>
    obtain ⟨x, s₁, hx, h⟩ := Cmd.run_bind h
    obtain ⟨zs, s₂, hzs, h⟩ := Cmd.run_bind h
    cases h
    exact hx.bind ((ih hzs).bind .ret)

theorem aborts_append {xs : List β} {s' : σ} (h : Cmd.Run R A (serveAll perform as) s xs s')
    (hbs : Cmd.Aborts R A (serveAll perform bs) s') : Cmd.Aborts R A (serveAll perform (as ++ bs)) s := by
  induction as generalizing s xs with
  | nil =>
    cases h
    exact hbs
  | cons a as ih =>
    obtain ⟨x, s₁, hx, h⟩ := Cmd.run_bind h
    obtain ⟨ys, s₂, hys, h⟩ := Cmd.run_bind h
    cases h
    exact Cmd.Aborts.bind_right hx (Cmd.Aborts.bind_left _ (ih hys))

/-- The first request that is not allowed. -/
theorem exists_not_allowed (h : ¬ Allowed spec ok t as) :
    ∃ pre a post, as = pre ++ a :: post ∧ Allowed spec ok t pre ∧ ¬ ok (answers spec t pre).1 a := by
  induction as generalizing t with
  | nil => exact absurd trivial h
  | cons a as ih =>
    by_cases hok : ok t a
    · obtain ⟨pre, b, post, rfl, hpre, hb⟩ := ih fun has => h ⟨hok, has⟩
      exact ⟨a :: pre, b, post, rfl, ⟨hok, hpre⟩, hb⟩
    · exact ⟨[], a, as, rfl, trivial, hok⟩

theorem aborts_serveAll (hR : ∀ s, R s s) (hA : ∀ q, A q 0) (htotal : ∀ a, (perform a).Total)
    (hstep : ∀ s t a, Rel s t → ok t a →
      Cmd.wp R (fun _ n => n = 0) I (perform a) (fun x s' => x = (spec t a).2 ∧ Rel s' (spec t a).1) s)
    (hbad : ∀ s t a, Rel s t → ¬ ok t a → Cmd.Aborts R A (perform a) s) (h : Rel s t) (has : ¬ Allowed spec ok t as) :
    Cmd.Aborts R A (serveAll perform as) s := by
  obtain ⟨pre, a, post, rfl, hpre, ha⟩ := exists_not_allowed has
  have hwp := wp_serveAll hstep h hpre
  obtain ⟨xs, s', hxs, -, hs'⟩ := Cmd.wp_exec hR (A := fun _ n => n = 0) (fun _ => rfl) hwp
    (total_serveAll htotal pre)
  exact aborts_append (Cmd.exec_run hR hA hxs) (Cmd.Aborts.bind_left _ (hbad s' _ a hs' ha))

end

end PmemProgram.Lib.Machine
