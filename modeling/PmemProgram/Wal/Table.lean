import Mathlib
import PmemProgram.Wal.World
import PmemProgram.Wal.Crash

/-!
# The descriptor table

`table_invariant` : over any calls that open, close, unlink and rename, an entry of `fd_table` has a guard exactly if its
name matches the pattern, the table keeps its entries when it grows, and no assertion fails, as long as no rename takes
a descriptor whose NVM file is gone out of the pattern (`stale_guard`).
-/

namespace PmemProgram.Wal
open PmemProgram.Lib

/-! ## The invariant -/

/-- An entry `k` has a guard exactly if it has a name `p` with `M k p`. Entries beyond the table and of closed descriptors
are blank, and the threads of the guards have not returned. -/
structure Steady (M : Nat → String → Prop) (w : World) : Prop where
  pos : 0 < w.tables.capacity
  beyond : ∀ k, w.tables.capacity ≤ k → w.tables.fdTable k = .blank
  closed : ∀ k, w.tables.fds k = none → w.tables.fdTable k = .blank
  pairs : ∀ k, (w.tables.fdTable k).aofguard.isSome ↔ ∃ p, (w.tables.fdTable k).name = some p ∧ M k p
  running : ∀ k, (w.tables.fdTable k).aofguard.isSome → (w.guards (some k)).thread ≠ .exited

section
variable {M M' : Nat → String → Prop} {w w' : World} {cfg : Config} {I : World → Prop}

/-- The table has not changed. -/
theorem Steady.congr (h : Steady M w) (htable : w'.tables.fdTable = w.tables.fdTable)
    (hcap : w'.tables.capacity = w.tables.capacity)
    (hfds : ∀ k, w'.tables.fds k = none → w.tables.fds k = none ∨ w.tables.fdTable k = .blank)
    (hrun : ∀ k, (w.tables.fdTable k).aofguard.isSome → (w'.guards (some k)).thread ≠ .exited) : Steady M w' := by
  constructor
  · rw [hcap]
    exact h.pos
  · rw [hcap, htable]
    exact h.beyond
  · intro k hk
    rw [htable]
    exact (hfds k hk).elim (h.closed k) id
  · rw [htable]
    exact h.pairs
  · rw [htable]
    exact hrun

theorem Steady.env (h : Steady M w) (ht : WTicks w w') : Steady M w' := by
  have htables := ht.tables
  refine h.congr (by rw [htables]) (by rw [htables]) (fun k hk => ?_) fun k hk => ht.not_exited (h.running k hk)
  rw [htables] at hk
  exact Or.inl hk

/-- Only the directories have changed. -/
theorem Steady.setTables {T : Tables} (h : Steady M w) (htable : T.fdTable = w.tables.fdTable)
    (hcap : T.capacity = w.tables.capacity) (hfds : T.fds = w.tables.fds) : Steady M { w with tables := T } :=
  h.congr htable hcap (fun k hk => Or.inl (by rwa [← hfds])) h.running

/-- Only the names in the table matter. -/
theorem Steady.names (h : Steady M w) (hM : ∀ k p, (w.tables.fdTable k).name = some p → (M' k p ↔ M k p)) :
    Steady M' w := by
  refine ⟨h.pos, h.beyond, h.closed, fun k => (h.pairs k).trans ?_, h.running⟩
  apply exists_congr
  intro p
  constructor
  · rintro ⟨hp, hm⟩
    exact ⟨hp, (hM k p hp).mpr hm⟩
  · rintro ⟨hp, hm⟩
    exact ⟨hp, (hM k p hp).mp hm⟩

theorem Steady.lt (h : Steady M w) {k : Nat} {p : String} (hp : (w.tables.fdTable k).name = some p) :
    k < w.tables.capacity := by
  by_contra hk
  rw [h.beyond k (Nat.le_of_not_lt hk)] at hp
  cases hp

theorem Steady.grow (h : Steady M w) (fd : Nat) : (w.tables.grow fd).fdTable = w.tables.fdTable := by
  funext k
  simp only [Tables.grow]
  split_ifs with hk
  · rw [h.beyond k hk.1]
  · rfl

/-- An entry that is registered has a guard exactly if its name asks for one. -/
theorem Steady.registered {fd : Nat} {file : String} {guard : Option NvmIno} (h : Steady M w)
    (hopen : w.tables.fds fd ≠ none) (hM : guard.isSome ↔ M fd file)
    (hrun : guard.isSome → (w.guards none).thread ≠ .exited) : Steady M (w.registered fd file guard) := by
  have htable : (w.registered fd file guard).tables.fdTable = Function.update w.tables.fdTable fd ⟨some file, guard⟩ := by
    simp only [World.registered, Tables.setEntry, h.grow]
  have hlt : fd < (w.registered fd file guard).tables.capacity := lt_newCapacity h.pos (by omega)
  constructor
  · omega
  · intro k hk
    have hne : k ≠ fd := by omega
    rw [htable, Function.update_of_ne hne]
    exact h.beyond k ((le_newCapacity fd (fd + 1) _).trans hk)
  · intro k hk
    have hne : k ≠ fd := by
      rintro rfl
      exact hopen hk
    rw [htable, Function.update_of_ne hne]
    exact h.closed k hk
  · intro k
    rw [htable, Function.update_apply]
    split_ifs with hk
    · subst hk
      simpa using hM
    · exact h.pairs k
  · intro k
    rw [htable, Function.update_apply]
    simp only [World.registered]
    split_ifs with hk hg
    · subst hk
      intro hguard
      rw [Function.update_self]
      exact hrun hguard
    · exact fun hguard => absurd hguard hg
    · intro hguard
      rw [Function.update_of_ne (by simpa using hk)]
      exact h.running k hguard
    · exact h.running k

/-- Without its guard, an entry must not ask for one. -/
theorem Steady.dropped {fd : Nat} (h : Steady M w) (hM : ∀ k p, k ≠ fd → (M' k p ↔ M k p))
    (hfd : ∀ p, (w.tables.fdTable fd).name = some p → ¬ M' fd p) : Steady M' (w.dropped fd) := by
  have htable : (w.dropped fd).tables.fdTable =
      Function.update w.tables.fdTable fd { w.tables.fdTable fd with aofguard := none } := rfl
  constructor
  · exact h.pos
  · intro k hk
    rw [htable, Function.update_apply]
    split_ifs with hne
    · subst hne
      rw [h.beyond k hk]
      rfl
    · exact h.beyond k hk
  · intro k hk
    rw [htable, Function.update_apply]
    split_ifs with hne
    · subst hne
      rw [h.closed k hk]
      rfl
    · exact h.closed k hk
  · intro k
    rw [htable, Function.update_apply]
    split_ifs with hne
    · subst hne
      simpa using hfd
    · rw [h.pairs]
      simp only [hM k _ hne]
  · intro k
    rw [htable, Function.update_apply]
    split_ifs with hne
    · simp
    · intro hk
      simp only [World.dropped]
      rw [Function.update_of_ne (by simpa using hne)]
      exact h.running k hk

/-- A blank entry asks for nothing. -/
theorem Steady.blanked {fd : Nat} (h : Steady M w) (htable : w'.tables.fdTable = Function.update w.tables.fdTable fd .blank)
    (hcap : w'.tables.capacity = w.tables.capacity) (hfds : ∀ k, k ≠ fd → w'.tables.fds k = w.tables.fds k)
    (hrun : ∀ k, k ≠ fd → (w.tables.fdTable k).aofguard.isSome → (w'.guards (some k)).thread ≠ .exited) :
    Steady M w' := by
  have hentry : ∀ k, w'.tables.fdTable k = if k = fd then .blank else w.tables.fdTable k := by
    intro k
    rw [htable, Function.update_apply]
  constructor
  · rw [hcap]
    exact h.pos
  · intro k hk
    rw [hentry]
    split_ifs with hne
    · rfl
    · exact h.beyond k (hcap ▸ hk)
  · intro k hk
    rw [hentry]
    split_ifs with hne
    · rfl
    · exact h.closed k (hfds k hne ▸ hk)
  · intro k
    rw [hentry]
    split_ifs with hne
    · simp [Filedes.blank]
    · exact h.pairs k
  · intro k
    rw [hentry]
    split_ifs with hne
    · simp [Filedes.blank]
    · exact hrun k hne

/-- The paths that ask for a guard. -/
def Asks (cfg : Config) (_ : Nat) (p : String) : Prop := cfg.needNvm p = true

theorem Steady.renamed {old new : String}
    (h : Steady (fun _ p => if p = old then cfg.needNvm new = true else cfg.needNvm p = true) w) :
    Steady (Asks cfg) { w with tables := w.tables.renamed old new } := by
  constructor
  · exact h.pos
  · intro k hk
    simp only [Tables.renamed]
    rw [if_neg (by change w.tables.capacity ≤ k at hk; omega)]
    exact h.beyond k hk
  · intro k hk
    have hblank := h.closed k hk
    simp only [Tables.renamed]
    rw [if_neg (by rw [hblank]; simp [Filedes.blank])]
    exact hblank
  · intro k
    simp only [Tables.renamed]
    split_ifs with hk
    · simpa [hk.2, Asks] using h.pairs k
    · rw [h.pairs]
      apply exists_congr
      intro p
      apply and_congr_right
      intro hp
      have hne : p ≠ old := by
        rintro rfl
        exact hk ⟨h.lt hp, hp⟩
      rw [if_neg hne, Asks]
  · intro k hk
    apply h.running k
    simp only [Tables.renamed] at hk
    split_ifs at hk
    · exact hk
    · exact hk

/-! ## The calls -/

theorem newGuard_steady {file : String} {fd : Nat} (h : Steady M w) :
    wwp (fun _ => True) (newGuard cfg file fd) (fun r w' => w'.tables = w.tables ∧ Steady M w' ∧
      ∀ guard, r = some guard → (guard.isSome ↔ cfg.needNvm file = true) ∧
        (guard.isSome → (w'.guards none).thread ≠ .exited)) w := by
  unfold newGuard
  simp only [wwp, Cmd.wp_ite, Cmd.wp_pure]
  constructor
  · intro hneed
    simp only [Cmd.wp_bind, wwp_succeeds, if_true, Cmd.wp_modify, Cmd.wp_get, Cmd.wp_pure]
    have h₁ : Steady M { w with guards := Function.update w.guards none .blank } :=
      h.congr rfl rfl (fun _ => Or.inl) fun k hk => by simpa using h.running k hk
    refine Cmd.wp_conseq (wp_port (R := Drift) (F := fun w' => w'.tables = w.tables ∧ Steady M w')
      ?_ ?_ (fun _ _ _ => trivial) ⟨rfl, h₁⟩ aofguardInit_idle) ?_
    · rintro s w' ⟨htables, h'⟩
      refine ⟨htables, h'.congr rfl rfl (fun _ => Or.inl) fun k hk => ?_⟩
      simpa [Port.put, Tables.port] using h'.running k hk
    · rintro w₁ w₂ ⟨htables, h'⟩ ht
      exact ⟨⟨ht.tables.trans htables, h'.env ht⟩, ht.drift _⟩
    · rintro ok w' ⟨⟨htables, h'⟩, hidle⟩
      refine ⟨htables, h', fun guard hguard => ?_⟩
      cases ok with
      | false => simp at hguard
      | true =>
        simp only [if_true, Option.some.injEq] at hguard
        subst hguard
        refine ⟨by simp [hneed], fun _ => ?_⟩
        have hth : (w'.guards none).thread = .idle := hidle rfl
        rw [hth]
        decide
  · intro hneed
    refine ⟨trivial, h, fun guard hguard => ?_⟩
    cases hguard
    simp [hneed]

/-- The entries other than `fd` are kept, also when the table grows. -/
def KeepsEntries (fd : Nat) (w w' : World) : Prop :=
  w.tables.capacity ≤ w'.tables.capacity ∧ ∀ k, k ≠ fd → w'.tables.fdTable k = w.tables.fdTable k

theorem openAt_steady {place file : String} {flags : Flags} {fd : Nat} (h : Steady (Asks cfg) w)
    (hfd : w.tables.fds fd = none) :
    wwp (fun _ => True) (openAt cfg place file flags fd)
      (fun _ w' => Steady (Asks cfg) w' ∧ KeepsEntries fd w w') w := by
  have hrest : ∀ w₁, Steady (Asks cfg) w₁ → w₁.tables.fdTable = w.tables.fdTable →
      w₁.tables.capacity = w.tables.capacity → w₁.tables.fds fd ≠ none →
      wwp (fun _ => True) (handleOpen cfg file fd) (fun ok w' => wwp (fun _ => True)
        (if ok = true then pure (fd : Int) else do let _ ← syscallClose fd; pure (-1))
        (fun _ w' => Steady (Asks cfg) w' ∧ KeepsEntries fd w w') w') w₁ := by
    intro w₁ h₁ htable hcap hopen
    apply wwp_handleOpen
    refine Cmd.wp_conseq (newGuard_steady h₁) ?_
    rintro (_ | guard) w₂ ⟨htables, h₂, hguard⟩
    · simp only [wwp, Bool.false_eq_true, if_false, Cmd.wp_bind, Cmd.wp_pure]
      have hkeep : KeepsEntries fd w w₂ := ⟨by rw [htables, hcap], fun k _ => by rw [htables, htable]⟩
      refine wwp_syscallClose (fun _ => ⟨h₂, hkeep⟩) fun w₃ i _ ht => ⟨trivial, ?_⟩
      have h₃ := h₂.env ht
      refine ⟨h₃.congr rfl rfl (fun k hk => ?_) h₃.running, ?_⟩
      · by_cases hne : k = fd
        · subst hne
          rw [ht.tables, htables, htable]
          exact Or.inr (h.closed k hfd)
        · exact Or.inl (by simpa [hne] using hk)
      · simpa [KeepsEntries, ht.tables] using hkeep
    · obtain ⟨hM, hrun⟩ := hguard guard rfl
      refine ⟨h₂.pos, ?_, ?_⟩
      · rw [h₂.grow, htables, htable]
        exact h.closed fd hfd
      · simp only [wwp, if_true, Cmd.wp_pure]
        refine ⟨h₂.registered (by rwa [htables]) hM hrun, ?_, fun k hk => ?_⟩
        · have hle := le_newCapacity fd (fd + 1) w₂.tables.capacity
          rw [htables, hcap] at hle
          simpa [World.registered, Tables.setEntry, Tables.grow, htables, hcap] using hle
        · simp only [World.registered, Tables.setEntry, Function.update_of_ne hk]
          rw [h₂.grow, htables, htable]
  unfold openAt
  simp only [wwp, Cmd.wp_bind]
  refine wwp_syscallOpen fun w₁ ht => ⟨trivial, fun i _ => ?_, fun _ _ => ?_, fun _ _ => ?_⟩
  · have h₁ := h.env ht
    rw [if_pos rfl]
    refine (Cmd.wp_bind ..).mpr (hrest _ (h₁.congr rfl rfl (fun k hk => ?_) h₁.running) ?_ ?_ ?_)
    · by_cases hne : k = fd
      · simp [hne, World.opened] at hk
      · exact Or.inl (by simpa [hne, World.opened] using hk)
    · simp [World.opened, ht.tables]
    · simp [World.opened, ht.tables]
    · simp [World.opened]
  · have h₁ := h.env ht
    rw [if_pos rfl]
    refine (Cmd.wp_bind ..).mpr (hrest _ (h₁.congr rfl rfl (fun k hk => ?_) h₁.running) ?_ ?_ ?_)
    · by_cases hne : k = fd
      · simp [hne, World.opened] at hk
      · exact Or.inl (by simpa [hne, World.opened, World.created] using hk)
    · simp [World.opened, World.created, ht.tables]
    · simp [World.opened, World.created, ht.tables]
    · simp [World.opened]
  · simp only [Bool.false_eq_true, if_false, Cmd.wp_pure]
    exact ⟨h.env ht, by rw [KeepsEntries, ht.tables]; exact ⟨le_rfl, fun _ _ => rfl⟩⟩

theorem close_steady {fd : Nat} (h : Steady M w) :
    wwp (fun _ => True) (close fd) (fun _ w' => Steady M w') w := by
  have hclose : ∀ w₁, Steady M w₁ → w₁.tables.fdTable fd = .blank →
      wwp (fun _ => True) (syscallClose fd) (fun _ w' => Steady M w') w₁ := by
    intro w₁ h₁ hblank
    refine wwp_syscallClose (fun _ => h₁) fun w₂ i _ ht => ⟨trivial, ?_⟩
    have h₂ := h₁.env ht
    refine h₂.congr rfl rfl (fun k hk => ?_) h₂.running
    by_cases hne : k = fd
    · subst hne
      rw [ht.tables]
      exact Or.inr hblank
    · exact Or.inl (by simpa [hne] using hk)
  unfold close
  simp only [wwp, Cmd.wp_bind, Cmd.wp_get, Cmd.wp_ite, wwp_setTables]
  constructor
  · intro hlt
    refine wwp_dropGuard ?_ ?_ ?_
    · simpa [Tables.setEntry] using h.running fd
    · intro hg
      have hblank : (⟨none, (w.tables.fdTable fd).aofguard⟩ : Filedes) = .blank := by
        simpa [Tables.setEntry, Filedes.blank] using hg
      simp only [true_implies, not_true_eq_false, false_implies, and_true]
      have htable : (w.tables.setEntry fd ⟨none, (w.tables.fdTable fd).aofguard⟩).fdTable =
          Function.update w.tables.fdTable fd .blank := by
        rw [hblank]
        rfl
      refine hclose _ (h.blanked htable rfl (fun _ _ => rfl) fun k _ => h.running k) ?_
      simp [Tables.setEntry, hblank]
    · intro n w₁ _ ht
      refine ⟨trivial, ?_⟩
      simp only [true_implies, not_true_eq_false, false_implies, and_true]
      have htable : (w₁.dropped fd).tables.fdTable = Function.update w.tables.fdTable fd .blank := by
        simp [World.dropped, Tables.setEntry, ht.tables, Filedes.blank]
      refine hclose _ (h.blanked htable ?_ ?_ fun k hne hk => ?_) ?_
      · simp [World.dropped, Tables.setEntry, ht.tables]
      · simp [World.dropped, Tables.setEntry, ht.tables]
      · simp only [World.dropped]
        rw [Function.update_of_ne (by simpa using hne)]
        exact ht.not_exited (h.running k hk)
      · rw [htable, Function.update_self]
  · intro hge
    exact hclose w h (h.beyond fd (Nat.le_of_not_lt hge))

theorem unlink_steady {file : String} (h : Steady M w) :
    wwp (fun _ => True) (unlink cfg file) (fun _ w' => Steady M w') w := by
  unfold unlink
  simp only [wwp, Cmd.wp_bind]
  refine wwp_syscallUnlink fun w₁ ht => ⟨trivial, ?_⟩
  have h₁ : Steady M { w₁ with tables := { w₁.tables with dir := Function.update w₁.tables.dir file none } } :=
    (h.env ht).setTables rfl rfl rfl
  simp only [Cmd.wp_ite, Cmd.wp_pure, Cmd.wp_bind, wwp_nvmExists]
  refine ⟨fun _ => ⟨fun _ => ⟨fun _ => ?_, fun _ => h₁⟩, fun _ => h₁⟩, fun _ => h₁⟩
  exact wwp_unlinkatNvm fun w₂ ht₂ => ⟨trivial, (h₁.env ht₂).setTables rfl rfl rfl⟩

/-- The NVM file named `q`, if there is one, has the right size. -/
def FitsNvm (cfg : Config) (q : String) (w : World) : Prop :=
  ∀ x, w.nvms (w.tables.nvmDir q) = some x → x.size = 128 + capOf cfg.nvmSize

/-- `aofguard_init` succeeds for the guards that a rename attaches. -/
def Attachable (cfg : Config) (old new : String) (w : World) : Prop :=
  cfg.needNvm old = false → cfg.needNvm new = true → (∃ k, (w.tables.fdTable k).name = some old) →
    SizeOk cfg.nvmSize ∧ FitsNvm cfg (cfg.nvmFileName new) w

theorem detach_steady {old : String} {fd : Nat} {fds : List Nat}
    (h : Steady (fun k p => cfg.needNvm p = true ∧ (p = old → k ∈ fd :: fds)) w) (hfd : fd ∉ fds)
    (hold : cfg.needNvm old = true) (hname : (w.tables.fdTable fd).name = some old) :
    wwp (fun _ => True) (detachGuard fd)
      (fun ok w' => ok = true ∧ Steady (fun k p => cfg.needNvm p = true ∧ (p = old → k ∈ fds)) w') w := by
  have hguard : (w.tables.fdTable fd).aofguard.isSome :=
    (h.pairs fd).mpr ⟨old, hname, hold, fun _ => List.mem_cons_self⟩
  unfold detachGuard
  simp only [wwp, Cmd.wp_bind, Cmd.wp_get, Cmd.wp_check]
  refine ⟨Option.isSome_iff_ne_none.mp hguard, wwp_dropGuard (h.running fd) ?_ ?_⟩
  · intro hnone
    simp [hnone] at hguard
  · intro n w₁ _ ht
    refine ⟨trivial, rfl, (h.env ht).dropped ?_ ?_⟩
    · intro k p hne
      simp [hne]
    · intro p hp
      rw [ht.tables, hname] at hp
      cases hp
      simp [hfd]

theorem removeNvm_steady {old : String} (h : Steady (Asks cfg) w) (hold : cfg.needNvm old = true)
    (hkeep : (∃ k, (w.tables.fdTable k).name = some old) →
      (w.nvms (w.tables.nvmDir (cfg.nvmFileName old))).isSome) :
    wwp (fun _ => True) (removeNvm cfg old)
      (fun ok w' => ok = true ∧ Steady (fun _ p => cfg.needNvm p = true ∧ p ≠ old) w') w := by
  unfold removeNvm
  simp only [wwp, Cmd.wp_bind, wwp_nvmExists, Cmd.wp_ite, Cmd.wp_pure]
  constructor
  · intro _
    refine wwp_unlinkatNvm fun w₁ ht => ⟨trivial, ?_⟩
    simp only [Cmd.wp_get, true_implies, not_true_eq_false, false_implies, and_true]
    have h₁ : Steady (fun k p => cfg.needNvm p = true ∧ (p = old → k ∈ List.range w₁.tables.capacity))
        { w₁ with tables := w₁.tables.dropNvm (cfg.nvmFileName old) } := by
      have h₀ := h.env ht
      refine Steady.names (h₀.setTables rfl rfl rfl) fun k p hp => ?_
      have hlt := h₀.lt hp
      simp [Asks, hlt]
    refine Cmd.wp_conseq (wwp_forEntries (P := fun fds w' => fds.Nodup ∧
      Steady (fun k p => cfg.needNvm p = true ∧ (p = old → k ∈ fds)) w') ?_ ?_ ⟨List.nodup_range, h₁⟩) ?_
    · rintro fd fds w' ⟨hnodup, h'⟩ hname
      obtain ⟨hfd, hnodup⟩ := List.nodup_cons.mp hnodup
      exact Cmd.wp_conseq (detach_steady h' hfd hold hname) fun ok w'' h => ⟨h.1, hnodup, h.2⟩
    · rintro fd fds w' ⟨hnodup, h'⟩ hname
      refine ⟨(List.nodup_cons.mp hnodup).2, h'.names fun k p hp => ?_⟩
      have hne : p = old → k ≠ fd := by
        rintro rfl rfl
        exact hname hp
      simp only [List.mem_cons]
      grind
    · rintro ok w' ⟨rfl, -, h'⟩
      exact ⟨rfl, h'.names fun k p _ => by simp⟩
  · intro hnone
    refine ⟨trivial, h.names fun k p hp => ?_⟩
    have hne : p ≠ old := by
      rintro rfl
      exact hnone (hkeep ⟨k, hp⟩)
    simp [Asks, hne]

theorem moveNvm_steady {old new : String} (h : Steady M w) :
    wwp (fun _ => True) (moveNvm cfg old new) (fun ok w' => ok = true ∧ Steady M w') w := by
  unfold moveNvm
  simp only [wwp, Cmd.wp_bind, wwp_nvmExists, Cmd.wp_ite, Cmd.wp_pure]
  refine ⟨fun _ => wwp_renameatNvm fun w₁ ht => ?_, fun _ => ⟨fun _ => wwp_unlinkatNvm fun w₁ ht => ?_, fun _ => ?_⟩⟩
  · refine ⟨trivial, rfl, (h.env ht).setTables ?_ ?_ ?_⟩
    all_goals
      unfold Tables.moveNvm
      split_ifs <;> rfl
  · exact ⟨trivial, rfl, (h.env ht).setTables rfl rfl rfl⟩
  · exact ⟨trivial, h⟩

theorem attach_steady {old new : String} {fd : Nat} {fds : List Nat}
    (h : Steady (fun k p => cfg.needNvm p = true ∨ p = old ∧ k ∉ fd :: fds) w) (hfd : fd ∉ fds)
    (hold : cfg.needNvm old = false) (hname : (w.tables.fdTable fd).name = some old) (hn : SizeOk cfg.nvmSize)
    (hfit : FitsNvm cfg (cfg.nvmFileName new) w) :
    wwp (fun _ => True) (attachGuard cfg new fd) (fun ok w' => ok = true ∧
      Steady (fun k p => cfg.needNvm p = true ∨ p = old ∧ k ∉ fds) w' ∧ FitsNvm cfg (cfg.nvmFileName new) w') w := by
  have hnone : (w.tables.fdTable fd).aofguard = none := by
    rw [← Option.not_isSome_iff_eq_none, h.pairs]
    rintro ⟨p, hp, hm⟩
    rw [hname] at hp
    cases hp
    simp [hold] at hm
  unfold attachGuard
  simp only [wwp, Cmd.wp_bind, Cmd.wp_get, Cmd.wp_check, wwp_succeeds, Cmd.wp_modify, if_true]
  refine ⟨hnone, ?_⟩
  generalize hnvm : w.tables.nvmDir (cfg.nvmFileName new) = n
  generalize hw₁ : ({ w with
    tables := w.tables.setEntry fd { w.tables.fdTable fd with aofguard := some n }
    guards := Function.update w.guards (some fd) .blank } : World) = w₁
  have htable : w₁.tables.fdTable = Function.update w.tables.fdTable fd { w.tables.fdTable fd with aofguard := some n } := by
    rw [← hw₁]
    rfl
  -- the entry asks for a guard from here on, under its new name
  have h₁ : Steady (fun k p => cfg.needNvm p = true ∨ p = old ∧ k ∉ fds) w₁ := by
    subst hw₁
    constructor
    · exact h.pos
    · intro k hk
      rw [htable, Function.update_of_ne (by have := h.lt hname; change w.tables.capacity ≤ k at hk; omega)]
      exact h.beyond k hk
    · intro k hk
      have hne : k ≠ fd := by
        rintro rfl
        have := h.closed k hk
        rw [this] at hname
        cases hname
      rw [htable, Function.update_of_ne hne]
      exact h.closed k hk
    · intro k
      rw [htable, Function.update_apply]
      split_ifs with hk
      · subst hk
        simp [hname, hfd]
      · rw [h.pairs]
        simp [hk]
    · intro k
      rw [htable, Function.update_apply]
      split_ifs with hk
      · subst hk
        simp [Aofguard.blank]
      · intro hs
        simpa [hk] using h.running k hs
  have hsize : ∀ x, ((w₁.tables.port fd n (some fd)).view w₁).nvm = some x → x.size = 128 + capOf cfg.nvmSize := by
    subst hw₁ hnvm
    exact hfit
  have hdir : w₁.tables.nvmDir (cfg.nvmFileName new) = n := by
    rw [← hnvm, ← hw₁]
    rfl
  refine Cmd.wp_conseq (wp_port (R := Drift) (F := fun w' => w'.tables = w₁.tables ∧
    ∀ k, k ≠ fd → (w₁.tables.fdTable k).aofguard.isSome → (w'.guards (some k)).thread ≠ .exited)
    ?_ ?_ (fun _ _ _ => trivial) ⟨rfl, fun k _ => h₁.running k⟩ (aofguardInit_reset hn hsize)) ?_
  · rintro s w' ⟨htables, hrun⟩
    refine ⟨htables, fun k hne hk => ?_⟩
    simpa [Port.put, Tables.port, hne] using hrun k hne hk
  · rintro w₂ w₃ ⟨htables, hrun⟩ ht
    exact ⟨⟨ht.tables.trans htables, fun k hne hk => ht.not_exited (hrun k hne hk)⟩, ht.drift _⟩
  · rintro ok w' ⟨⟨htables, hrun⟩, rfl, hidle, y, hy, hysize⟩
    refine ⟨rfl, h₁.congr (by rw [htables]) (by rw [htables]) (fun k hk => Or.inl (by rwa [← htables])) fun k hk => ?_, ?_⟩
    · by_cases hne : k = fd
      · subst hne
        have hth : (w'.guards (some k)).thread = .idle := hidle
        rw [hth]
        decide
      · exact hrun k hne hk
    · intro x hx
      rw [htables, hdir] at hx
      have hy' : w'.nvms n = some y := hy
      rw [hy'] at hx
      cases hx
      exact hysize

theorem attachAll_steady {old new : String} (h : Steady (Asks cfg) w) (hold : cfg.needNvm old = false)
    (hfit : (∃ k, (w.tables.fdTable k).name = some old) → SizeOk cfg.nvmSize ∧ FitsNvm cfg (cfg.nvmFileName new) w) :
    wwp (fun _ => True) (forEntries old (attachGuard cfg new) (List.range w.tables.capacity))
      (fun ok w' => ok = true ∧ Steady (fun _ p => cfg.needNvm p = true ∨ p = old) w') w := by
  by_cases hsome : ∃ k, (w.tables.fdTable k).name = some old
  · obtain ⟨hn, hfits⟩ := hfit hsome
    have hP : Steady (fun k p => cfg.needNvm p = true ∨ p = old ∧ k ∉ List.range w.tables.capacity) w := by
      refine h.names fun k p hp => ?_
      have hlt := h.lt hp
      simp only [Asks, List.mem_range, hlt, not_true_eq_false, and_false, or_false]
    refine Cmd.wp_conseq (wwp_forEntries (P := fun fds w' => fds.Nodup ∧
      Steady (fun k p => cfg.needNvm p = true ∨ p = old ∧ k ∉ fds) w' ∧ FitsNvm cfg (cfg.nvmFileName new) w')
      ?_ ?_ ⟨List.nodup_range, hP, hfits⟩) ?_
    · rintro fd fds w' ⟨hnodup, h', hfit'⟩ hname
      obtain ⟨hfd, hnodup⟩ := List.nodup_cons.mp hnodup
      exact Cmd.wp_conseq (attach_steady h' hfd hold hname hn hfit') fun ok w'' h => ⟨h.1, hnodup, h.2⟩
    · rintro fd fds w' ⟨hnodup, h', hfit'⟩ hname
      refine ⟨(List.nodup_cons.mp hnodup).2, h'.names fun k p hp => ?_, hfit'⟩
      have hne : p = old → k ≠ fd := by
        rintro rfl rfl
        exact hname hp
      simp only [List.mem_cons]
      grind
    · rintro ok w' ⟨rfl, -, h', -⟩
      exact ⟨rfl, h'.names fun k p _ => by simp⟩
  · refine Cmd.wp_conseq (wwp_forEntries (P := fun _ w' => w' = w) ?_ ?_ rfl) ?_
    · rintro fd fds _ rfl hname
      exact absurd ⟨fd, hname⟩ hsome
    · rintro fd fds _ rfl _
      rfl
    · rintro ok _ ⟨rfl, rfl⟩
      refine ⟨rfl, h.names fun k p hp => ?_⟩
      have hne : p ≠ old := by
        rintro rfl
        exact hsome ⟨k, hp⟩
      simp [hne, Asks]

theorem rename_steady {old new : String} (h : Steady (Asks cfg) w) (hkeep : KeepsNvm cfg old new w)
    (hfit : Attachable cfg old new w) :
    wwp (fun _ => True) (rename cfg old new) (fun _ w' => Steady (Asks cfg) w') w := by
  unfold rename
  simp only [wwp, Cmd.wp_bind]
  refine wwp_syscallRename fun w₁ ht => ⟨trivial, ?_⟩
  obtain ⟨htable, hcap, hfds, hdir⟩ := w₁.tables.moveFile_rest old new
  have h₁ : Steady (Asks cfg) { w₁ with tables := w₁.tables.moveFile old new } :=
    (h.env ht).setTables htable hcap hfds
  have hnvms : w₁.nvms = w.nvms := funext ht.nvms
  generalize w₁.tables.moveFile old new = T at *
  rw [ht.tables] at htable hdir
  have hrename : ∀ w₂, Steady (fun _ p => if p = old then cfg.needNvm new = true else cfg.needNvm p = true) w₂ →
      wwp (fun _ => True) (renameEntries old new) (fun _ w' => Steady (Asks cfg) w') w₂ :=
    fun w₂ h₂ => wwp_renameEntries h₂.renamed
  simp only [Cmd.wp_ite, Cmd.wp_pure, Cmd.wp_bind, Cmd.wp_get]
  refine ⟨fun hfound => ⟨fun hnew => ⟨fun hold => ?_, fun hold => ?_⟩, fun hnew => ⟨fun hold => ?_, fun hold => ?_⟩⟩,
    fun _ => h₁⟩
  · refine Cmd.wp_conseq (moveNvm_steady h₁) ?_
    rintro ok w₂ ⟨rfl, h₂⟩
    refine ⟨fun _ => hrename w₂ (h₂.names fun k p _ => ?_), by simp⟩
    by_cases hp : p = old
    · simp [hp, hnew, hold, Asks]
    · simp [hp, Asks]
  · have hold' : cfg.needNvm old = false := by simpa using hold
    refine Cmd.wp_conseq (attachAll_steady h₁ hold' fun hk => ?_) ?_
    · change ∃ k, (T.fdTable k).name = some old at hk
      rw [htable] at hk
      obtain ⟨hn, hfits⟩ := hfit hold' hnew hk
      refine ⟨hn, fun x hx => hfits x ?_⟩
      change w₁.nvms (T.nvmDir _) = _ at hx
      rwa [hdir, hnvms] at hx
    · rintro ok w₂ ⟨rfl, h₂⟩
      refine ⟨fun _ => hrename w₂ (h₂.names fun k p _ => ?_), by simp⟩
      by_cases hp : p = old
      · simp [hp, hnew]
      · simp [hp]
  · have hnew' : cfg.needNvm new = false := by simpa using hnew
    have hkeep' : (∃ k, (T.fdTable k).name = some old) → (w₁.nvms (T.nvmDir (cfg.nvmFileName old))).isSome := by
      intro hk
      rw [htable] at hk
      rw [hdir, hnvms]
      refine hkeep ?_ hold hnew' hk
      rw [← ht.tables]
      exact Option.isSome_iff_ne_none.mp hfound
    refine Cmd.wp_conseq (removeNvm_steady h₁ hold hkeep') ?_
    rintro ok w₂ ⟨rfl, h₂⟩
    refine ⟨fun _ => hrename w₂ (h₂.names fun k p _ => ?_), by simp⟩
    by_cases hp : p = old
    · simp [hp, hnew']
    · simp [hp]
  · have hnew' : cfg.needNvm new = false := by simpa using hnew
    have hold' : cfg.needNvm old = false := by simpa using hold
    refine hrename _ (h₁.names fun k p _ => ?_)
    by_cases hp : p = old
    · simp [hp, hnew', hold', Asks]
    · simp [hp, Asks]

end

/-! ## Every run -/

/-- After `init`: an empty table. -/
def Started (w : World) : Prop := w.tables.capacity = 16 ∧ w.tables.fdTable = fun _ => .blank

/-- The kernel opens a descriptor that is not in use, and `aofguard_init` succeeds where a rename calls it; writes and
syncs do not concern the table. -/
def Call.Assumed (cfg : Config) (w : World) : Call → Prop
  | openAt _ _ _ fd => w.tables.fds fd = none
  | write _ _ => False
  | fsync _ => False
  | fdatasync _ => False
  | close _ => True
  | unlink _ => True
  | rename oldpath newpath => Attachable cfg oldpath newpath w

/-- No rename leaves a guard without its NVM file under a name that does not match. -/
def Call.NotStale (cfg : Config) (w : World) : Call → Prop
  | rename oldpath newpath => KeepsNvm cfg oldpath newpath w
  | _ => True

/-- A named entry has a guard exactly if its name matches, and an entry without a name has none. -/
def Paired (cfg : Config) (w : World) : Prop :=
  ∀ k, (∀ p, (w.tables.entry k).name = some p → ((w.tables.entry k).aofguard ≠ none ↔ cfg.needNvm p = true)) ∧
    ((w.tables.entry k).name = none → (w.tables.entry k).aofguard = none)

section
variable {cfg : Config} {w w₀ : World} {c : Call}

theorem Started.steady (h : Started w) : Steady (Asks cfg) w := by
  obtain ⟨hcap, htable⟩ := h
  constructor
  · omega
  · simp [htable]
  · simp [htable]
  · simp [htable, Filedes.blank]
  · simp [htable, Filedes.blank]

theorem Steady.paired (h : Steady (Asks cfg) w) : Paired cfg w := by
  have hentry : ∀ k, w.tables.entry k = w.tables.fdTable k := by
    intro k
    unfold Tables.entry
    split_ifs with hk
    · rfl
    · exact (h.beyond k (Nat.le_of_not_lt hk)).symm
  intro k
  rw [hentry]
  have hpairs := h.pairs k
  constructor
  · intro p hp
    rw [← Option.isSome_iff_ne_none, hpairs, hp]
    simp [Asks]
  · intro hnone
    rw [← Option.not_isSome_iff_eq_none, hpairs, hnone]
    simp

theorem Call.steady (h : Steady (Asks cfg) w) (ha : c.Assumed cfg w) (hs : c.NotStale cfg w) :
    wwp (fun _ => True) (c.cmd cfg) (fun _ w' => Steady (Asks cfg) w' ∧
      ∀ place file flags fd, c = .openAt place file flags fd → KeepsEntries fd w w') w := by
  cases c with
  | openAt place file flags fd =>
    refine Cmd.wp_conseq (openAt_steady h ha) fun _ w' h' => ⟨h'.1, ?_⟩
    rintro _ _ _ _ ⟨⟩
    exact h'.2
  | write fd data => exact ha.elim
  | fsync fd => exact ha.elim
  | fdatasync fd => exact ha.elim
  | close fd => exact Cmd.wp_conseq (close_steady h) fun _ _ h' => ⟨h', by simp⟩
  | unlink file => exact Cmd.wp_conseq (unlink_steady h) fun _ _ h' => ⟨h', by simp⟩
  | rename old new => exact Cmd.wp_conseq (rename_steady h hs ha) fun _ _ h' => ⟨h', by simp⟩

/-- **The descriptor table.** As long as no rename takes a descriptor whose NVM file is gone out of the pattern, guards
and matching names go together, no assertion fails, and a growing table keeps its entries. -/
theorem table_invariant (h₀ : Started w₀)
    (h : Relation.ReflTransGen (CallStep cfg fun c w => c.Assumed cfg w ∧ c.NotStale cfg w) w₀ w) :
    Paired cfg w ∧ ∀ c : Call, c.Assumed cfg w → c.NotStale cfg w →
      ¬ Cmd.Aborts WTicks (fun _ k => k = 0) (c.cmd cfg) w ∧
        ∀ r w', Cmd.Run WTicks (fun _ k => k = 0) (c.cmd cfg) w r w' → Paired cfg w' ∧
          ∀ place file flags fd, c = .openAt place file flags fd → KeepsEntries fd w w' := by
  have hsteady : Steady (Asks cfg) w := by
    induction h with
    | refl => exact h₀.steady
    | tail _ hstep ih =>
      cases hstep with
      | thread ht => exact ih.env (.single ht)
      | call hok hr => exact (Cmd.wp_run (Call.steady ih hok.1 hok.2) hr).1
  refine ⟨hsteady.paired, fun c ha hs => ⟨Cmd.wp_not_aborts (Call.steady hsteady ha hs), fun r w' hr => ?_⟩⟩
  obtain ⟨h', hkeep⟩ := Cmd.wp_run (Call.steady hsteady ha hs) hr
  exact ⟨h'.paired, hkeep⟩

end

/-! ### A stale guard -/

/-- The logs are `a.log` and `m.log`. -/
def logConfig : Config := ⟨fun p => p == "a.log" || p == "m.log", fun p => p ++ ".ag", twoBlocks, false⟩

/-- A new process that finds an empty `a.log` and no NVM files. -/
def logWorld : World where
  tables := ⟨fun p => if p = "a.log" then some 0 else none, fun q => (q, 0), fun _ => none, fun _ => .blank, 16, 1, 0⟩
  files _ := .durable []
  nvms _ := none
  descs _ := ⟨true, true, 0⟩
  guards _ := .blank

def createLog : Call := .openAt "m.log" "m.log" ⟨true, false, true, true⟩ 3

theorem started_logWorld : Started logWorld := ⟨rfl, rfl⟩

/-- A log and another file are open, and the log gets a name that matches too. -/
theorem table_invariant_renamed : ∃ w,
    Relation.ReflTransGen (CallStep logConfig fun c w => c.Assumed logConfig w ∧ c.NotStale logConfig w) logWorld w ∧
      Paired logConfig w ∧ (w.tables.entry 3).name = some "a.log" ∧ (w.tables.entry 3).aofguard ≠ none ∧
      (w.tables.entry 4).name = some "x" := by
  have hexec : ((createLog.cmd logConfig).exec logWorld).any (fun r₁ => decide (r₁.2.tables.fds 4 = none) &&
      ((Call.cmd logConfig (.openAt "x" "x" ⟨true, false, true, true⟩ 4)).exec r₁.2).any fun r₂ =>
        ((Call.cmd logConfig (.rename "m.log" "a.log")).exec r₂.2).any fun r₃ =>
          (r₃.2.tables.entry 3).aofguard.isSome && decide ((r₃.2.tables.entry 3).name = some "a.log") &&
          decide ((r₃.2.tables.entry 4).name = some "x")) = true := by decide +kernel
  obtain ⟨⟨r₁, w₁⟩, h₁, htest⟩ := (Option.any_eq_true _ _).mp hexec
  simp only [Bool.and_eq_true, decide_eq_true_eq] at htest
  obtain ⟨hunused, htest⟩ := htest
  obtain ⟨⟨r₂, w₂⟩, h₂, htest⟩ := (Option.any_eq_true _ _).mp htest
  obtain ⟨⟨r₃, w₃⟩, h₃, htest⟩ := (Option.any_eq_true _ _).mp htest
  simp only [Bool.and_eq_true, decide_eq_true_eq] at htest
  obtain ⟨⟨hguard, hname⟩, hother⟩ := htest
  have hmatch : logConfig.needNvm "m.log" = true ∧ logConfig.needNvm "a.log" = true := by decide
  -- both names of the rename match
  have hsteps : Relation.ReflTransGen (CallStep logConfig fun c w => c.Assumed logConfig w ∧ c.NotStale logConfig w)
      logWorld w₃ :=
    .head (.call (c := createLog) ⟨rfl, trivial⟩ (exec_calls h₁))
      (.head (.call (c := .openAt "x" "x" ⟨true, false, true, true⟩ 4) ⟨hunused, trivial⟩ (exec_calls h₂))
        (.single (.call (c := .rename "m.log" "a.log")
          ⟨fun hold => absurd hold (by simp [hmatch.1]), fun _ _ hnew => absurd hnew (by simp [hmatch.2])⟩
          (exec_calls h₃))))
  exact ⟨w₃, hsteps, (table_invariant started_logWorld hsteps).1, hname, Option.isSome_iff_ne_none.mp hguard, hother⟩

/-- `a.log` replaces the open `m.log`, whose NVM file goes; then the name leaves the pattern and the guard stays. The
next rename into the pattern fails its assertion. -/
theorem stale_guard : ∃ w,
    Relation.ReflTransGen (CallStep logConfig fun c w => c.Assumed logConfig w) logWorld w ∧ ¬ Paired logConfig w ∧
      (Call.rename "old" "m.log").Assumed logConfig w ∧
      Cmd.Aborts WTicks (fun _ k => k = 0) ((Call.rename "old" "m.log").cmd logConfig) w := by
  have hcreate : ((createLog.cmd logConfig).exec logWorld).any (fun r =>
      (execCalls logConfig [.rename "a.log" "m.log", .rename "m.log" "old"] r.2).any fun w =>
        (w.tables.entry 3).aofguard.isSome && (w.tables.entry 3).name == some "old" &&
          (w.nvms (w.tables.nvmDir "m.log.ag")).isNone &&
          ((Call.rename "old" "m.log").cmd logConfig).fails w) = true := by decide +kernel
  obtain ⟨⟨r, w₁⟩, hr, hrest⟩ := (Option.any_eq_true _ _).mp hcreate
  obtain ⟨w, hw, htest⟩ := (Option.any_eq_true _ _).mp hrest
  simp only [Bool.and_eq_true, beq_iff_eq, Option.isNone_iff_eq_none] at htest
  obtain ⟨⟨⟨hguard, hname⟩, hnvm⟩, hfails⟩ := htest
  refine ⟨w, ?_, fun hpaired => ?_, fun _ _ _ => ⟨sizeOk_twoBlocks, fun x hx => ?_⟩, ?_⟩
  · refine .head (.call (c := createLog) rfl (exec_calls hr)) (execCalls_steps ?_ hw)
    have hmatch : logConfig.needNvm "a.log" ≠ false ∧ logConfig.needNvm "m.log" ≠ false := by decide +kernel
    simp only [List.mem_cons, List.not_mem_nil, or_false]
    rintro c (rfl | rfl) w'
    · exact fun h => absurd h hmatch.1
    · exact fun h => absurd h hmatch.2
  · have hne := Option.isSome_iff_ne_none.mp hguard
    have hold : logConfig.needNvm "old" = false := by decide +kernel
    have := ((hpaired 3).1 "old" hname).mp hne
    rw [hold] at this
    cases this
  · have hname : logConfig.nvmFileName "m.log" = "m.log.ag" := by decide +kernel
    rw [hname, hnvm] at hx
    cases hx
  · exact Cmd.fails_aborts (R := WTicks) (A := fun _ k => k = 0) (fun _ => Relation.ReflTransGen.refl) (fun _ => rfl) hfails

end PmemProgram.Wal
