import PmemProgram.Lib.Cmd

/-!
# Commands that wait for others

* `Arrives R A c s c' s'` : the command `c`, started in `s`, is in front of the action `c'`, and the environment has come to
  `s'`;
* `lives R H A c Q s` : whatever the environment does (`R`), it can go on (`H`) until the next action is possible, and every
  result satisfies `Q`. Assertions may fail: that none does is said elsewhere (`wp_not_aborts`);
* `lives_arrives` : a command that lives and whose assertions hold can return from wherever it is;
* `Stays R H A I c` : it lives, and keeps `I`; `lives_zoom` : a command on a component.
-/

namespace PmemProgram.Lib
namespace Cmd

variable {κ σ τ α β : Type}

section
variable (R H : σ → σ → Prop) (A : κ → Nat → Prop)

/-- The command has come to the action `c'`, before which the environment has come to `s'`. -/
inductive Arrives : Cmd κ σ α → σ → Cmd κ σ α → σ → Prop
  | here {f torn k s s₁} : R s s₁ → Arrives (act f torn k) s (act f torn k) s₁
  | ask {q k n s c' s'} : A q n → Arrives (k n) s c' s' → Arrives (ask q k) s c' s'
  | loc {f k s c' s'} : Arrives (k s) (f s) c' s' → Arrives (loc f k) s c' s'
  | act {f torn k s s₁ s₂ c' s'} : R s s₁ → f s₁ = some s₂ → Arrives (k s₁) s₂ c' s' → Arrives (act f torn k) s c' s'

/-- Every action can be reached by the environment, and every result satisfies `Q`. -/
def lives : Cmd κ σ α → (α → σ → Prop) → σ → Prop
  | ret a, Q, s => Q a s
  | abort, _, _ => True
  | ask q k, Q, s => (∃ n, A q n) ∧ ∀ n, A q n → lives (k n) Q s
  | loc f k, Q, s => lives (k s) Q (f s)
  | act f _ k, Q, s => ∀ s₁, R s s₁ → (∃ s₂ s₃, H s₁ s₂ ∧ f s₂ = some s₃) ∧ ∀ s₂, f s₁ = some s₂ → lives (k s₁) Q s₂

variable {R H A} {Q Q' : α → σ → Prop} {c : Cmd κ σ α} {s : σ}

theorem lives_run (h : lives R H A c Q s) {a : α} {t : σ} (hr : Run R A c s a t) : Q a t := by
  induction hr with
  | ret => exact h
  | ask hn _ ih => exact ih (h.2 _ hn)
  | loc _ ih => exact ih h
  | act hr hf _ ih => exact ih ((h _ hr).2 _ hf)

theorem lives_conseq (h : lives R H A c Q s) (hQ : ∀ a t, Q a t → Q' a t) : lives R H A c Q' s := by
  induction c generalizing s with
  | ret a => exact hQ a s h
  | abort => exact trivial
  | ask q k ih => exact ⟨h.1, fun n hn => ih n (h.2 n hn)⟩
  | loc f k ih => exact ih _ h
  | act f torn k ih => exact fun s₁ hr => ⟨(h s₁ hr).1, fun s₂ hf => ih _ ((h s₁ hr).2 s₂ hf)⟩

/-- A command that lives and makes no wrong assertion can return. -/
theorem lives_returns (hR : ∀ s, R s s) (hH : ∀ s t, H s t → R s t) (h : lives R H A c Q s) (ha : ¬ Aborts R A c s) :
    ∃ a t, Run R A c s a t := by
  induction c generalizing s with
  | ret a => exact ⟨a, s, .ret⟩
  | abort => exact absurd .abort ha
  | ask q k ih =>
    obtain ⟨n, hn⟩ := h.1
    obtain ⟨a, t, hr⟩ := ih n (h.2 n hn) fun ha' => ha (.ask hn ha')
    exact ⟨a, t, .ask hn hr⟩
  | loc f k ih =>
    obtain ⟨a, t, hr⟩ := ih s h fun ha' => ha (.loc ha')
    exact ⟨a, t, .loc hr⟩
  | act f torn k ih =>
    obtain ⟨s₂, s₃, hh, hf⟩ := (h s (hR s)).1
    have hr₂ := hH _ _ hh
    obtain ⟨a, t, hr⟩ := ih s₂ ((h s₂ hr₂).2 s₃ hf) fun ha' => ha (.act hr₂ hf ha')
    exact ⟨a, t, .act hr₂ hf hr⟩

/-- What is left of a command is run as a part of it. -/
theorem Arrives.run (htrans : ∀ s t u, R s t → R t u → R s u) {c' : Cmd κ σ α} {s' t : σ} {a : α}
    (harr : Arrives R A c s c' s') (hr : Run R A c' s' a t) : Run R A c s a t := by
  induction harr with
  | here hs =>
    cases hr with
    | act hr hf hrest => exact .act (htrans _ _ _ hs hr) hf hrest
  | ask hn _ ih => exact .ask hn (ih hr)
  | loc _ ih => exact .loc (ih hr)
  | act hs hf _ ih => exact .act hs hf (ih hr)

/-- It can return from wherever it is. -/
theorem lives_arrives (hR : ∀ s, R s s) (hH : ∀ s t, H s t → R s t) (htrans : ∀ s t u, R s t → R t u → R s u)
    (h : lives R H A c Q s) (ha : ¬ Aborts R A c s) {c' : Cmd κ σ α} {s' : σ} (harr : Arrives R A c s c' s') :
    ∃ a t, Run R A c' s' a t := by
  induction harr with
  | @here f torn k s s₁ hr =>
    refine lives_returns (Q := Q) hR hH (fun s₂ hr₂ => h s₂ (htrans _ _ _ hr hr₂)) fun ha' => ha ?_
    cases ha' with
    | act hr₂ hf ha' => exact .act (htrans _ _ _ hr hr₂) hf ha'
  | ask hn _ ih => exact ih (h.2 _ hn) fun ha' => ha (.ask hn ha')
  | loc _ ih => exact ih h fun ha' => ha (.loc ha')
  | act hr hf _ ih => exact ih ((h _ hr).2 _ hf) fun ha' => ha (.act hr hf ha')

/-- A command that neither returns nor fails an assertion by itself comes to an action that is not possible. -/
theorem waits_of_exec_none (hR : ∀ s, R s s) (hA : ∀ q, A q 0) (h : c.exec s = none) (ha : ¬ Aborts R A c s) :
    ∃ c' s', Arrives R A c s c' s' ∧ c'.exec s' = none := by
  induction c generalizing s with
  | ret a => cases h
  | abort => exact absurd .abort ha
  | ask q k ih =>
    obtain ⟨c', s', harr, hnone⟩ := ih 0 h fun h' => ha (.ask (hA q) h')
    exact ⟨c', s', .ask (hA q) harr, hnone⟩
  | loc f k ih =>
    obtain ⟨c', s', harr, hnone⟩ := ih s h fun h' => ha (.loc h')
    exact ⟨c', s', .loc harr, hnone⟩
  | act f torn k ih =>
    cases hf : f s with
    | none => exact ⟨_, s, .here (hR s), h⟩
    | some t =>
      have hrest : (k s).exec t = none := by
        rw [← h]
        simp [exec, hf]
      obtain ⟨c', s', harr, hnone⟩ := ih s hrest fun h' => ha (.act (hR s) hf h')
      exact ⟨c', s', .act (hR s) hf harr, hnone⟩

/-- A command on a component goes as on the component alone. -/
theorem exec_zoom {get : τ → σ} {put : σ → τ → τ} (hget : ∀ s w, get (put s w) = s)
    (hput : ∀ s t w, put t (put s w) = put t w) (hself : ∀ w, put (get w) w = w) (c : Cmd κ σ α) (w : τ) :
    (c.zoom get put).exec w = (c.exec (get w)).map fun r => (r.1, put r.2 w) := by
  induction c generalizing w with
  | ret a => simp [zoom, exec, hself]
  | abort => rfl
  | ask q k ih => exact ih 0 w
  | loc f k ih => simp [zoom, exec, ih, hget, hput]
  | act f torn k ih =>
    cases hf : f (get w) with
    | none => simp [zoom, exec, hf]
    | some t => simp [zoom, exec, hf, ih, hget, hput]

/-! ## Rules -/

theorem lives_bind {g : α → Cmd κ σ β} {Q : β → σ → Prop} (h : lives R H A c (fun a t => lives R H A (g a) Q t) s) :
    lives R H A (c >>= g) Q s := by
  change lives R H A (c.bind g) Q s
  induction c generalizing s with
  | ret a => exact h
  | abort => exact trivial
  | ask q k ih => exact ⟨h.1, fun n hn => ih n (h.2 n hn)⟩
  | loc f k ih => exact ih s h
  | act f torn k ih => exact fun s₁ hr => ⟨(h s₁ hr).1, fun s₂ hf => ih s₁ ((h s₁ hr).2 s₂ hf)⟩

theorem lives_get {f : σ → α} (h : Q (f s) s) : lives R H A (get f) Q s := h

theorem lives_modify {f : σ → σ} {Q : Unit → σ → Prop} (h : Q () (f s)) : lives R H A (modify f) Q s := h

theorem lives_ite {p : Prop} [Decidable p] {d : Cmd κ σ α} (hc : p → lives R H A c Q s) (hd : ¬ p → lives R H A d Q s) :
    lives R H A (if p then c else d) Q s := by
  split_ifs with hp
  · exact hc hp
  · exact hd hp

theorem lives_succeeds {q : κ} {Q : Bool → σ → Prop} (hq : ∃ n, A q n) (h : ∀ n, A q n → Q (n == 0) s) :
    lives R H A (succeeds q) Q s :=
  ⟨hq, h⟩

theorem lives_check {p : Prop} [Decidable p] {Q : Unit → σ → Prop} (h : p → Q () s) : lives R H A (check p) Q s := by
  unfold check
  split_ifs with hp
  · exact h hp
  · exact trivial

theorem lives_step (hH : ∀ s, H s s) {f : σ → σ} {Q : Unit → σ → Prop} (h : ∀ s₁, R s s₁ → Q () (f s₁)) :
    lives R H A (step f) Q s := by
  refine fun s₁ hr => ⟨⟨s₁, f s₁, hH s₁, rfl⟩, fun s₂ hf => ?_⟩
  cases hf
  exact h s₁ hr

theorem lives_stepGet (hH : ∀ s, H s s) {f : σ → α × σ} (h : ∀ s₁, R s s₁ → Q (f s₁).1 (f s₁).2) :
    lives R H A (stepGet f) Q s := by
  refine fun s₁ hr => ⟨⟨s₁, (f s₁).2, hH s₁, rfl⟩, fun s₂ hf => ?_⟩
  cases hf
  exact h s₁ hr

theorem lives_pieces (hH : ∀ s, H s s) {f : (Nat → Bool) → σ → σ} {Q : Unit → σ → Prop}
    (h : ∀ s₁, R s s₁ → Q () (f (fun _ => true) s₁)) : lives R H A (pieces f) Q s := by
  refine fun s₁ hr => ⟨⟨s₁, _, hH s₁, rfl⟩, fun s₂ hf => ?_⟩
  cases hf
  exact h s₁ hr

/-- The environment must bring about what the command waits for. -/
theorem lives_await {f : σ → Option σ} {Q : Unit → σ → Prop}
    (h : ∀ s₁, R s s₁ → (∃ s₂ s₃, H s₁ s₂ ∧ f s₂ = some s₃) ∧ ∀ s₂, f s₁ = some s₂ → Q () s₂) :
    lives R H A (await f) Q s := h

/-- A command on a component, with a frame `F`: the environment of the component is part of the one of the whole. -/
theorem lives_zoom {get : τ → σ} {put : σ → τ → τ} {S G : τ → τ → Prop} {F : τ → Prop}
    (hget : ∀ s w, get (put s w) = s) (hput : ∀ s w, F w → F (put s w))
    (hS : ∀ w w', F w → S w w' → F w' ∧ R (get w) (get w'))
    (hlift : ∀ w s, F w → H (get w) s → ∃ w', G w w' ∧ get w' = s) {w : τ} (hF : F w)
    (h : lives R H A c Q (get w)) : lives S G A (c.zoom get put) (fun a w => F w ∧ Q a (get w)) w := by
  induction c generalizing w with
  | ret a => exact ⟨hF, h⟩
  | abort => exact trivial
  | ask q k ih => exact ⟨h.1, fun n hn => ih n hF (h.2 n hn)⟩
  | loc f k ih => exact ih _ (hput _ _ hF) (by rw [hget]; exact h)
  | act f torn k ih =>
    intro w₁ hw
    obtain ⟨hF₁, hR⟩ := hS w w₁ hF hw
    obtain ⟨⟨s₂, s₃, hr, hf⟩, hnext⟩ := h _ hR
    obtain ⟨w₂, hw₂, rfl⟩ := hlift w₁ s₂ hF₁ hr
    refine ⟨⟨w₂, put s₃ w₂, hw₂, congrArg (Option.map fun s => put s w₂) hf⟩, fun w₃ hw₃ => ?_⟩
    obtain ⟨s₄, hs₄, rfl⟩ := Option.map_eq_some_iff.mp hw₃
    exact ih _ (hput _ _ hF₁) (by rw [hget]; exact hnext s₄ hs₄)

end

/-! ## Invariants -/

section
variable (R H : σ → σ → Prop) (A : κ → Nat → Prop) (I : σ → Prop)

/-- The command lives and keeps `I`. -/
def Stays (c : Cmd κ σ α) : Prop := ∀ s, I s → lives R H A c (fun _ t => I t) s

variable {R H A I} {c : Cmd κ σ α}

theorem stays_bind {g : α → Cmd κ σ β} (hc : c.Stays R H A I) (hg : ∀ a, (g a).Stays R H A I) : (c >>= g).Stays R H A I :=
  fun s hs => lives_bind (lives_conseq (hc s hs) fun a t ht => hg a t ht)

theorem stays_pure (a : α) : (pure a : Cmd κ σ α).Stays R H A I := fun _ hs => hs

theorem stays_ite {p : Prop} [Decidable p] {d : Cmd κ σ α} (hc : c.Stays R H A I) (hd : d.Stays R H A I) :
    (if p then c else d).Stays R H A I := by
  split_ifs
  · exact hc
  · exact hd

theorem stays_get (f : σ → α) : (get f : Cmd κ σ α).Stays R H A I := fun _ hs => hs

theorem stays_modify {f : σ → σ} (h : ∀ s, I s → I (f s)) : (modify f : Cmd κ σ Unit).Stays R H A I := h

theorem stays_succeeds {q : κ} (hq : ∃ n, A q n) : (succeeds q : Cmd κ σ Bool).Stays R H A I :=
  fun _ hs => lives_succeeds hq fun _ _ => hs

theorem stays_check (p : Prop) [Decidable p] : (check p : Cmd κ σ Unit).Stays R H A I :=
  fun _ hs => lives_check fun _ => hs

theorem stays_step (hH : ∀ s, H s s) (hI : ∀ s t, I s → R s t → I t) {f : σ → σ} (h : ∀ s, I s → I (f s)) :
    (step f : Cmd κ σ Unit).Stays R H A I :=
  fun s hs => lives_step hH fun s₁ hr => h s₁ (hI s s₁ hs hr)

theorem stays_stepGet (hH : ∀ s, H s s) (hI : ∀ s t, I s → R s t → I t) {f : σ → α × σ} (h : ∀ s, I s → I (f s).2) :
    (stepGet f : Cmd κ σ α).Stays R H A I :=
  fun s hs => lives_stepGet hH fun s₁ hr => h s₁ (hI s s₁ hs hr)

theorem stays_pieces (hH : ∀ s, H s s) (hI : ∀ s t, I s → R s t → I t) {f : (Nat → Bool) → σ → σ}
    (h : ∀ s, I s → I (f (fun _ => true) s)) : (pieces f : Cmd κ σ Unit).Stays R H A I :=
  fun s hs => lives_pieces hH fun s₁ hr => h s₁ (hI s s₁ hs hr)

end

end Cmd

end PmemProgram.Lib
