import PmemProgram.Wal.Calls

/-!
# Names that move

What `rename` and its helpers do to the tables, and that the content stays:

* `renamed_log_to_log`, `renamed_plain`, `renamed_out`, `renamed_into` : the four cases of the pattern, once the NVM file
  has moved (`NvmMoved`), is gone (`NvmDropped`) or is set up again;
* `detachGuards_sound`, `attachGuard_sound` : the guards that come off and on.
-/

namespace PmemProgram.Wal
open PmemProgram.Lib PmemProgram.Lib.Ring

section
variable {cfg : Config} {P : String → Prop} {dur : Prop} {T T' : Tables} {C : Nat → List Byte} {w w' : World}
  {I : World → Prop} {old new : String} {i : Nat}

/-! ## Names move -/

theorem Linked.moved (h : Linked cfg P T) (hdir : T.dir old = some i) (hnew : P new)
    (hd : T'.dir = Function.update (Function.update T.dir new (some i)) old none) (hfds : T'.fds = T.fds)
    (hinos : T'.inos = T.inos) (hcap : T'.capacity = T.capacity)
    (hname : ∀ k, (T'.fdTable k).name = if (T.fdTable k).name = some old then some new else (T.fdTable k).name)
    (hother : ∀ k, (T.fdTable k).name ≠ some old → (T'.fdTable k).aofguard = (T.fdTable k).aofguard)
    (hguard : ∀ k, (T.fdTable k).name = some old → ((T'.fdTable k).aofguard.isSome ↔ cfg.needNvm new = true))
    (nvm_le : ∀ q, (T'.nvmDir q).2 ≤ T'.nvmInos) (nvm_inj : ∀ q q', T'.nvmDir q = T'.nvmDir q' → q = q')
    (guard_le : ∀ k n, (T'.fdTable k).aofguard = some n → n.2 ≤ T'.nvmInos)
    (alone : ∀ k k' n i, T'.Guards k n i → T'.fds k' = some i → k' = k)
    (apart : ∀ k k' n, (T'.fdTable k).aofguard = some n → (T'.fdTable k').aofguard = some n → k' = k)
    (link : ∀ k n i q, T'.Guards k n i → Logs cfg P q → (T'.dir q = some i ↔ T'.nvmDir (cfg.nvmFileName q) = n)) :
    Linked cfg P T' := by
  have hblank : ∀ k, T.fdTable k = .blank → T'.fdTable k = .blank := by
    intro k hk
    have hnone : (T.fdTable k).name = none := by rw [hk]; rfl
    apply Filedes.ext
    · rw [hname, hnone]
      simp [Filedes.blank]
    · rw [hother k (by simp [hnone]), hk]
  obtain ⟨h₁, h₂, h₃, h₄, h₅, h₆, h₇, h₈, h₉, h₁₀, h₁₁, h₁₂, -, -, -⟩ := h
  refine ⟨?_, ?_, ?_, nvm_le, nvm_inj, guard_le, ?_, ?_, ?_, ?_, ?_, ?_, alone, apart, link⟩
  · rw [hd, hinos]
    simp only [Function.update_apply]
    grind
  · rw [hfds, hinos]
    exact h₂
  · rw [hd]
    simp only [Function.update_apply]
    grind
  · rw [hcap]
    exact h₇
  · intro k hk
    exact hblank k (h₈ k (hcap ▸ hk))
  · intro k hk
    exact hblank k (h₉ k (hfds ▸ hk))
  · intro k p
    rw [hname]
    split_ifs
    · rintro ⟨⟩
      exact hnew
    · exact h₁₀ k p
  · rw [hfds, hd]
    simp only [Function.update_apply]
    grind
  · intro k
    by_cases hk : (T.fdTable k).name = some old
    · rw [hguard k hk, hname, if_pos hk]
      simp
    · rw [hother k hk, hname, if_neg hk]
      exact h₁₂ k

/-- The same when no guard is added. -/
theorem Linked.moved_guards (h : Linked cfg P T) (hdir : T.dir old = some i) (hnew : P new)
    (hd : T'.dir = Function.update (Function.update T.dir new (some i)) old none) (hfds : T'.fds = T.fds)
    (hinos : T'.inos = T.inos) (hcap : T'.capacity = T.capacity)
    (hname : ∀ k, (T'.fdTable k).name = if (T.fdTable k).name = some old then some new else (T.fdTable k).name)
    (hother : ∀ k, (T.fdTable k).name ≠ some old → (T'.fdTable k).aofguard = (T.fdTable k).aofguard)
    (hguard : ∀ k, (T.fdTable k).name = some old → ((T'.fdTable k).aofguard.isSome ↔ cfg.needNvm new = true))
    (hsub : ∀ k n, (T'.fdTable k).aofguard = some n → (T.fdTable k).aofguard = some n)
    (hnvmInos : T.nvmInos ≤ T'.nvmInos) (nvm_le : ∀ q, (T'.nvmDir q).2 ≤ T'.nvmInos)
    (nvm_inj : ∀ q q', T'.nvmDir q = T'.nvmDir q' → q = q')
    (link : ∀ k n i q, T.Guards k n i → (T'.fdTable k).aofguard = some n → Logs cfg P q →
      (T'.dir q = some i ↔ T'.nvmDir (cfg.nvmFileName q) = n)) :
    Linked cfg P T' := by
  have hguards : ∀ k n j, T'.Guards k n j → T.Guards k n j := fun k n j hg => ⟨hsub k n hg.1, hfds ▸ hg.2⟩
  refine h.moved hdir hnew hd hfds hinos hcap hname hother hguard nvm_le nvm_inj ?_ ?_ ?_ ?_
  · intro k n hg
    exact (h.guard_le k n (hsub k n hg)).trans hnvmInos
  · intro k k' n j hg hj
    exact h.alone k k' n j (hguards k n j hg) (hfds ▸ hj)
  · intro k k' n hg hg'
    exact h.apart k k' n (hsub k n hg) (hsub k' n hg')
  · intro k n j q hg hq
    exact link k n j q (hguards k n j hg) hg.1 hq

theorem Keeps.moved (hk : Keeps cfg P dur none T C w) (hdir : T.dir old = some i)
    (hd : T'.dir = Function.update (Function.update T.dir new (some i)) old none) (hfds : T'.fds = T.fds)
    (hinos : T.nvmInos ≤ T'.nvmInos)
    (hguard : ∀ k n j, T'.Guards k n j →
      Guard False True dur (capOf cfg.nvmSize) (C j) ((T'.port k n (some k)).view w))
    (hbare : ∀ k j, T'.fds k = some j → (T'.fdTable k).aofguard = none → (w.files j).data = C j)
    (hsame : ∀ q, Logs cfg P q → q ≠ old → q ≠ new → w.nvms (T'.nvmDir (cfg.nvmFileName q)) =
      w.nvms (T.nvmDir (cfg.nvmFileName q)))
    (hrest : Logs cfg P new → (∀ k, T.fds k ≠ some i) →
      Rest dur (capOf cfg.nvmSize) (C i) (w.files i) (w.nvms (T'.nvmDir (cfg.nvmFileName new))))
    (hplain : cfg.needNvm new = false → (w.files i).data = C i)
    (hvacant : Logs cfg P old → w.nvms (T'.nvmDir (cfg.nvmFileName old)) = none)
    (hsmall : Logs cfg P new → (C i).length < 2 ^ 48) (hguards : ∀ k n j, T'.Guards k n j → (C j).length < 2 ^ 48) :
    Keeps cfg P dur none T' C w := by
  have hmoved : ∀ q, q ≠ old → T'.dir q = if q = new then some i else T.dir q := by
    intro q hq
    rw [hd, Function.update_of_ne hq, Function.update_apply]
  have hgone : T'.dir old = none := by rw [hd, Function.update_self]
  constructor
  · exact fun k n j hg _ => hguard k n j hg
  · intro q j hq hj hopen hx
    have hqo : q ≠ old := by
      rintro rfl
      rw [hgone] at hj
      cases hj
    rw [hmoved q hqo] at hj
    split_ifs at hj with hqn
    · subst hqn
      cases hj
      exact hrest hq (hfds ▸ hopen)
    · rw [hsame q hq hqo hqn]
      exact hk.rest q j hq hj (hfds ▸ hopen) hx
  · exact fun k j hj hg _ => hbare k j hj hg
  · intro q j hq hj hx
    have hqo : q ≠ old := by
      rintro rfl
      rw [hgone] at hj
      cases hj
    rw [hmoved q hqo] at hj
    split_ifs at hj with hqn
    · subst hqn
      cases hj
      exact hplain hq
    · exact hk.plain q j hq hj hx
  · intro q hq hj
    by_cases hqo : q = old
    · subst hqo
      exact hvacant hq
    · rw [hmoved q hqo] at hj
      split_ifs at hj with hqn
      rw [hsame q hq hqo hqn]
      exact hk.vacant q hq hj
  · exact fun n hn => hk.fresh n (hinos.trans_lt hn)
  · rintro j (⟨q, hq, hj⟩ | ⟨k, n, hg⟩)
    · have hqo : q ≠ old := by
        rintro rfl
        rw [hgone] at hj
        cases hj
      rw [hmoved q hqo] at hj
      split_ifs at hj with hqn
      · subst hqn
        cases hj
        exact hsmall hq
      · exact hk.small j (Or.inl ⟨q, hq, hj⟩)
    · exact hguards k n j hg

/-! ## NVM names move -/

/-- The NVM name `q` has no file any more. -/
structure NvmDropped (nvms : NvmIno → Option NvmFile) (T T' : Tables) (q : String) : Prop where
  inos : T.nvmInos ≤ T'.nvmInos
  le : ∀ q', (T'.nvmDir q').2 ≤ T'.nvmInos
  inj : ∀ q₁ q₂, T'.nvmDir q₁ = T'.nvmDir q₂ → q₁ = q₂
  same : ∀ q', q' ≠ q → T'.nvmDir q' = T.nvmDir q'
  gone : nvms (T'.nvmDir q) = none

/-- The NVM file named `q`, or that there is none, has the name `r`. -/
structure NvmMoved (nvms : NvmIno → Option NvmFile) (T T' : Tables) (q r : String) : Prop where
  inos : T.nvmInos ≤ T'.nvmInos
  le : ∀ q', (T'.nvmDir q').2 ≤ T'.nvmInos
  inj : ∀ q₁ q₂, T'.nvmDir q₁ = T'.nvmDir q₂ → q₁ = q₂
  same : ∀ q', q' ≠ q → q' ≠ r → T'.nvmDir q' = T.nvmDir q'
  gone : nvms (T'.nvmDir q) = none
  moved : T'.nvmDir r = T.nvmDir q ∨ nvms (T'.nvmDir r) = none ∧ nvms (T.nvmDir q) = none

section
variable {q r : String} (h : Linked cfg P T) (hk : Keeps cfg P dur none T C w)
include h hk

theorem nvmDropped_drop : NvmDropped w.nvms T (T.dropNvm q) q where
  inos := Nat.le_succ _
  le := by
    intro q'
    have := h.nvm_le q'
    simp only [Tables.dropNvm, Function.update_apply]
    split_ifs
    · exact le_rfl
    · omega
  inj := by
    have hle := h.nvm_le
    have hinj := h.nvm_inj
    simp only [Tables.dropNvm, Function.update_apply]
    grind
  same := fun q' hq => Function.update_of_ne hq _ _
  gone := by
    apply hk.fresh
    simp [Tables.dropNvm]

theorem nvmMoved_move (hne : q ≠ r) : NvmMoved w.nvms T (T.moveNvm q r) q r := by
  have hmove : T.moveNvm q r = { T with
      nvmDir := Function.update (Function.update T.nvmDir r (T.nvmDir q)) q (q, T.nvmInos + 1)
      nvmInos := T.nvmInos + 1 } := by
    rw [Tables.moveNvm, if_neg hne]
    rfl
  have hle := h.nvm_le
  have hinj := h.nvm_inj
  rw [hmove]
  constructor
  · exact Nat.le_succ _
  · simp only [Function.update_apply]
    grind
  · simp only [Function.update_apply]
    grind
  · simp only [Function.update_apply]
    grind
  · apply hk.fresh
    simp
  · left
    simp [Function.update_of_ne (Ne.symm hne)]

theorem nvmMoved_drop (hne : q ≠ r) (hnone : w.nvms (T.nvmDir q) = none) : NvmMoved w.nvms T (T.dropNvm r) q r := by
  have hdrop := nvmDropped_drop (q := r) h hk
  refine ⟨hdrop.inos, hdrop.le, hdrop.inj, fun q' _ hr => hdrop.same q' hr, ?_, Or.inr ⟨hdrop.gone, hnone⟩⟩
  rw [hdrop.same q hne]
  exact hnone

/-- A guard maps an NVM file that is there. -/
theorem Linked.mapped_some {k : Nat} {n : NvmIno} (hg : (T.fdTable k).aofguard = some n) : w.nvms n ≠ none := by
  obtain ⟨j, hj⟩ := h.guards hg
  have hguard := hk.guard k n j hj (by simp)
  rw [hj.port] at hguard
  exact hguard.mapped

end

theorem nvmDropped_none {q : String} (h : Linked cfg P T) (hnone : w.nvms (T.nvmDir q) = none) : NvmDropped w.nvms T T q :=
  ⟨le_rfl, h.nvm_le, h.nvm_inj, fun _ _ => rfl, hnone⟩

theorem nvmMoved_none {q r : String} (h : Linked cfg P T) (hq : w.nvms (T.nvmDir q) = none)
    (hr : w.nvms (T.nvmDir r) = none) : NvmMoved w.nvms T T q r :=
  ⟨le_rfl, h.nvm_le, h.nvm_inj, fun _ _ _ => rfl, hq, Or.inr ⟨hr, hq⟩⟩

theorem NvmDropped.congr {q : String} {T'' : Tables} (h : NvmDropped w.nvms T T' q) (hdir : T''.nvmDir = T'.nvmDir)
    (hinos : T''.nvmInos = T'.nvmInos) : NvmDropped w.nvms T T'' q := by
  obtain ⟨h₁, h₂, h₃, h₄, h₅⟩ := h
  rw [← hinos] at h₁ h₂
  rw [← hdir] at h₂ h₃ h₄ h₅
  exact ⟨h₁, h₂, h₃, h₄, h₅⟩

theorem NvmMoved.congr {q r : String} {T'' : Tables} (h : NvmMoved w.nvms T T' q r) (hdir : T''.nvmDir = T'.nvmDir)
    (hinos : T''.nvmInos = T'.nvmInos) : NvmMoved w.nvms T T'' q r := by
  obtain ⟨h₁, h₂, h₃, h₄, h₅, h₆⟩ := h
  rw [← hinos] at h₁ h₂
  rw [← hdir] at h₂ h₃ h₄ h₅ h₆
  exact ⟨h₁, h₂, h₃, h₄, h₅, h₆⟩

/-! ## `rename`, case by case -/

/-- The tables `T'` are `T` with the file `i` moved from `old` to `new`. -/
structure FileMoved (T T' : Tables) (old new : String) (i : Nat) : Prop where
  dir : T'.dir = Function.update (Function.update T.dir new (some i)) old none
  fds : T'.fds = T.fds
  inos : T'.inos = T.inos
  capacity : T'.capacity = T.capacity

theorem FileMoved.dir_to (h : FileMoved T T' old new i) (hne : old ≠ new) : T'.dir new = some i := by
  rw [h.dir, Function.update_of_ne (Ne.symm hne), Function.update_self]

theorem Linked.renamed_entry (h : Linked cfg P T) (htable : T'.fdTable = T.fdTable) (hcap : T'.capacity = T.capacity)
    (old new : String) (k : Nat) : ((T'.renamed old new).fdTable k).name =
        (if (T.fdTable k).name = some old then some new else (T.fdTable k).name) ∧
      ((T'.renamed old new).fdTable k).aofguard = (T.fdTable k).aofguard := by
  have hlt : (T.fdTable k).name = some old → k < T.capacity := by
    intro hk
    by_contra hge
    rw [h.beyond k (Nat.le_of_not_lt hge)] at hk
    cases hk
  simp only [Tables.renamed, htable, hcap]
  by_cases hk : (T.fdTable k).name = some old
  · rw [if_pos ⟨hlt hk, hk⟩, if_pos hk]
    exact ⟨rfl, rfl⟩
  · rw [if_neg (fun h => hk h.2), if_neg hk]
    exact ⟨rfl, rfl⟩

/-- Both names are in the pattern: the NVM file moves with the file. -/
theorem renamed_log_to_log (h : Linked cfg P T) (hk : Keeps cfg P dur none T C w) (hnames : NoCollision cfg P)
    (hold : Logs cfg P old) (hnew : Logs cfg P new) (hne : old ≠ new) (hdir : T.dir old = some i)
    (hmoved : FileMoved T T' old new i) (htable : T'.fdTable = T.fdTable)
    (hnvm : NvmMoved w.nvms T T' (cfg.nvmFileName old) (cfg.nvmFileName new)) :
    Linked cfg P (T'.renamed old new) ∧ Keeps cfg P dur none (T'.renamed old new) C w := by
  have hentry := h.renamed_entry htable hmoved.capacity old new
  have hguards : ∀ k n j, (T'.renamed old new).Guards k n j ↔ T.Guards k n j := by
    intro k n j
    unfold Tables.Guards
    rw [(hentry k).2, show (T'.renamed old new).fds = T.fds from hmoved.fds]
  have hmap : ∀ k n, (T.fdTable k).aofguard = some n → w.nvms n ≠ none := fun k n hg => h.mapped_some hk hg
  have hother : ∀ q, Logs cfg P q → q ≠ old → q ≠ new → T'.nvmDir (cfg.nvmFileName q) = T.nvmDir (cfg.nvmFileName q) :=
    fun q hq hqo hqn => hnvm.same _ (fun heq => hqo (hnames q old hq.1 hold.1 heq))
      fun heq => hqn (hnames q new hq.1 hnew.1 heq)
  constructor
  · refine h.moved_guards hdir hnew.1 hmoved.dir hmoved.fds hmoved.inos hmoved.capacity (fun k => (hentry k).1)
      (fun k _ => (hentry k).2) (fun k hkold => ?_) (fun k n hg => (hentry k).2 ▸ hg) hnvm.inos hnvm.le hnvm.inj ?_
    · rw [(hentry k).2, h.paired]
      exact iff_of_true ⟨old, hkold, hold.2⟩ hnew.2
    · intro k n j q hg _ hq
      have hfile := hmap k n hg.1
      have hlinkOld := h.link k n j old hg hold
      change T'.dir q = some j ↔ T'.nvmDir (cfg.nvmFileName q) = n
      rw [hmoved.dir]
      by_cases hqo : q = old
      · subst hqo
        rw [Function.update_self]
        refine iff_of_false (by simp) fun heq => hfile (heq ▸ hnvm.gone)
      · rw [Function.update_of_ne hqo]
        by_cases hqn : q = new
        · subst hqn
          rw [Function.update_self]
          rw [hdir] at hlinkOld
          rcases hnvm.moved with heq | ⟨hnone, hnone'⟩
          · rw [heq]
            exact hlinkOld
          · refine iff_of_false (fun hij => ?_) fun heq => hfile (heq ▸ hnone)
            exact hfile (hlinkOld.mp hij ▸ hnone')
        · rw [Function.update_of_ne hqn, hother q hq hqo hqn]
          exact h.link k n j q hg hq
  · refine hk.moved hdir hmoved.dir hmoved.fds hnvm.inos (fun k n j hg => ?_) (fun k j hj hg => ?_)
      (fun q hq hqo hqn => ?_) (fun _ hopen => ?_) (fun hplain => ?_) (fun _ => hnvm.gone)
      (fun _ => hk.small i (Or.inl ⟨old, hold, hdir⟩))
      fun k n j hg => hk.small j (Or.inr ⟨k, n, (hguards k n j).mp hg⟩)
    · have hg' := (hguards k n j).mp hg
      rw [hg.port, ← hg'.port]
      exact hk.guard k n j hg' (by simp)
    · rw [(hentry k).2] at hg
      exact hk.bare k j (hmoved.fds ▸ hj) hg (by simp)
    · change w.nvms (T'.nvmDir _) = _
      rw [hother q hq hqo hqn]
    · have hrest := hk.rest old i hold hdir hopen (by simp)
      change Rest _ _ _ _ (w.nvms (T'.nvmDir _))
      rcases hnvm.moved with heq | ⟨hnone, hnone'⟩
      · rwa [heq]
      · rw [hnone]
        rwa [hnone'] at hrest
    · rw [hnew.2] at hplain
      cases hplain

/-- The old name is not in the pattern, and no descriptor comes into it: nothing happens to the guards. -/
theorem renamed_plain (h : Linked cfg P T) (hk : Keeps cfg P dur none T C w) (hold : cfg.needNvm old = false)
    (hnew : P new) (hdir : T.dir old = some i) (hmoved : FileMoved T T' old new i) (htable : T'.fdTable = T.fdTable)
    (hnvmDir : T'.nvmDir = T.nvmDir) (hinos : T'.nvmInos = T.nvmInos)
    (hinto : cfg.needNvm new = true → (∀ k, (T.fdTable k).name ≠ some old) ∧
      w.nvms (T.nvmDir (cfg.nvmFileName new)) = none ∧ (dur → (w.files i).OnDisk (w.files i).data) ∧
      (w.files i).data.length < 2 ^ 48) :
    Linked cfg P (T'.renamed old new) ∧ Keeps cfg P dur none (T'.renamed old new) C w := by
  have hentry := h.renamed_entry htable hmoved.capacity old new
  have hguards : ∀ k n j, (T'.renamed old new).Guards k n j ↔ T.Guards k n j := by
    intro k n j
    unfold Tables.Guards
    rw [(hentry k).2, show (T'.renamed old new).fds = T.fds from hmoved.fds]
  have hlogs : ∀ q, Logs cfg P q → q ≠ old := fun q hq => needNvm_ne hq.2 hold
  have hdata := hk.plain old i hold hdir (by simp)
  constructor
  · refine h.moved_guards hdir hnew hmoved.dir hmoved.fds hmoved.inos hmoved.capacity (fun k => (hentry k).1)
      (fun k _ => (hentry k).2) (fun k hkold => ?_) (fun k n hg => (hentry k).2 ▸ hg) hinos.ge ?_ ?_ ?_
    · rw [(hentry k).2, h.paired, hkold]
      cases hneed : cfg.needNvm new with
      | false => simp [hold]
      | true => exact absurd hkold ((hinto hneed).1 k)
    · change ∀ q, (T'.nvmDir q).2 ≤ T'.nvmInos
      rw [hnvmDir, hinos]
      exact h.nvm_le
    · change ∀ q q', T'.nvmDir q = T'.nvmDir q' → q = q'
      rw [hnvmDir]
      exact h.nvm_inj
    · intro k n j q hg _ hq
      change T'.dir q = some j ↔ T'.nvmDir (cfg.nvmFileName q) = n
      rw [hmoved.dir, hnvmDir, Function.update_of_ne (hlogs q hq)]
      by_cases hqn : q = new
      · subst hqn
        obtain ⟨hnone, hgone, -⟩ := hinto hq.2
        rw [Function.update_self]
        refine iff_of_false ?_ fun heq => h.mapped_some hk hg.1 (heq ▸ hgone)
        rintro ⟨⟩
        exact hnone k (h.named k old _ hg.2 hdir)
      · rw [Function.update_of_ne hqn]
        exact h.link k n j q hg hq
  · refine hk.moved hdir hmoved.dir hmoved.fds hinos.ge (fun k n j hg => ?_) (fun k j hj hg => ?_)
      (fun q hq hqo hqn => ?_) (fun hnew hopen => ?_) (fun _ => hdata) (fun hq => absurd rfl (hlogs old hq))
      (fun hnew => hdata ▸ (hinto hnew.2).2.2.2) fun k n j hg => hk.small j (Or.inr ⟨k, n, (hguards k n j).mp hg⟩)
    · have hg' := (hguards k n j).mp hg
      rw [hg.port, ← hg'.port]
      exact hk.guard k n j hg' (by simp)
    · rw [(hentry k).2] at hg
      exact hk.bare k j (hmoved.fds ▸ hj) hg (by simp)
    · change w.nvms (T'.nvmDir _) = _
      rw [hnvmDir]
    · obtain ⟨-, hgone, hsync, -⟩ := hinto hnew.2
      change Rest _ _ _ _ (w.nvms (T'.nvmDir _))
      rw [hnvmDir]
      exact Or.inl ⟨hgone, hdata, fun hd => hdata ▸ hsync hd⟩

/-! ## Leaving the pattern -/

/-- The entries named `old` that the loop over `fds` has passed have no guard. -/
def Tables.disarmed (T : Tables) (old : String) (fds : List Nat) : Tables :=
  { T with
    fdTable := fun k =>
      if (T.fdTable k).name = some old ∧ k ∉ fds then { T.fdTable k with aofguard := none } else T.fdTable k }

section
variable {fd : Nat} {fds : List Nat}

theorem Linked.disarmed_range (h : Linked cfg P T) (old : String) : T.disarmed old (List.range T.capacity) = T := by
  ext1 <;> try rfl
  funext k
  simp only [Tables.disarmed, List.mem_range]
  rw [if_neg]
  rintro ⟨hname, hlt⟩
  rw [h.beyond k (Nat.le_of_not_lt hlt)] at hname
  cases hname

theorem Tables.disarmed_none (h : ∀ k, (T.fdTable k).name ≠ some old) (fds : List Nat) : T.disarmed old fds = T := by
  ext1 <;> try rfl
  funext k
  simp only [Tables.disarmed]
  rw [if_neg fun hk => h k hk.1]

theorem Tables.disarmed_head : (T.disarmed old (fd :: fds)).fdTable fd = T.fdTable fd := by
  simp [Tables.disarmed]

theorem Tables.disarmed_name (k : Nat) : ((T.disarmed old fds).fdTable k).name = (T.fdTable k).name := by
  simp only [Tables.disarmed]
  split_ifs
  · rfl
  · rfl

theorem Tables.disarmed_pass (h : fd ∉ fds) (hname : (T.fdTable fd).name = some old) :
    (T.disarmed old (fd :: fds)).setEntry fd { T.fdTable fd with aofguard := none } = T.disarmed old fds := by
  ext1 <;> try rfl
  funext k
  simp only [Tables.setEntry, Tables.disarmed, Function.update_apply, List.mem_cons]
  grind

theorem Tables.disarmed_skip (hname : (T.fdTable fd).name ≠ some old) :
    T.disarmed old (fd :: fds) = T.disarmed old fds := by
  ext1 <;> try rfl
  funext k
  simp only [Tables.disarmed, List.mem_cons]
  grind

theorem Tables.disarmed_guard {k : Nat} {n : NvmIno} (h : ((T.disarmed old fds).fdTable k).aofguard = some n) :
    (T.fdTable k).aofguard = some n := by
  simp only [Tables.disarmed] at h
  split_ifs at h
  exact h

/-- Without its guard, a descriptor reads what it has written. -/
theorem Keeps.disarm (hk : Keeps cfg P dur none T C w) :
    Keeps cfg P dur none (T.setEntry fd { T.fdTable fd with aofguard := none }) C (w.dropped fd) := by
  have hentry : ∀ k, k ≠ fd → (T.setEntry fd { T.fdTable fd with aofguard := none }).fdTable k = T.fdTable k :=
    fun k hkfd => Function.update_of_ne hkfd _ _
  have hfd : ((T.setEntry fd { T.fdTable fd with aofguard := none }).fdTable fd).aofguard = none := by
    simp [Tables.setEntry]
  have hguards : ∀ k n j, (T.setEntry fd { T.fdTable fd with aofguard := none }).Guards k n j → k ≠ fd ∧ T.Guards k n j := by
    rintro k n j ⟨hg, hj⟩
    have hkfd : k ≠ fd := by
      rintro rfl
      rw [hfd] at hg
      cases hg
    rw [hentry k hkfd] at hg
    exact ⟨hkfd, hg, hj⟩
  constructor
  · intro k n j hg hx
    obtain ⟨hkfd, hgT⟩ := hguards k n j hg
    have hview : (Tables.port (T.setEntry fd { T.fdTable fd with aofguard := none }) k n (some k)).view (w.dropped fd) =
        (T.port k n (some k)).view w := by
      rw [hg.port, hgT.port]
      simp [Port.view, World.dropped, hkfd]
    rw [hview]
    exact hk.guard k n j hgT hx
  · exact hk.rest
  · intro k j hj hg hx
    by_cases hkfd : k = fd
    · subst hkfd
      cases hg' : (T.fdTable k).aofguard with
      | none => exact hk.bare k j hj hg' hx
      | some n =>
        have hgT : T.Guards k n j := ⟨hg', hj⟩
        have hguard := hk.guard k n j hgT hx
        rw [hgT.port] at hguard
        exact hguard.data
    · rw [hentry k hkfd] at hg
      exact hk.bare k j hj hg hx
  · exact hk.plain
  · exact hk.vacant
  · exact hk.fresh
  · rintro j (hlog | ⟨k, n, hg⟩)
    · exact hk.small j (Or.inl hlog)
    · exact hk.small j (Or.inr ⟨k, n, (hguards k n j hg).2⟩)

/-- The loop of `rename` that takes the guards off the descriptors named `old`. -/
theorem detachGuards_sound {T₂ : Tables} (hl : Linked cfg P T) (hk : Keeps cfg P dur none T C w)
    (hold : cfg.needNvm old = true) (htables : w.tables = T₂) (htable : T₂.fdTable = T.fdTable) (hfds : T₂.fds = T.fds)
    (hI : ∀ w' fds, w'.tables = T₂.disarmed old fds → Keeps cfg P dur none (T.disarmed old fds) C w' →
      WrittenBack w w' → I w') :
    wwp I (forEntries old detachGuard (List.range T.capacity)) (fun ok w' => ok = true ∧
      w'.tables = T₂.disarmed old [] ∧ Keeps cfg P dur none (T.disarmed old []) C w' ∧ WrittenBack w w') w := by
  have hentry : ∀ fds k, (T₂.disarmed old fds).fdTable k = (T.disarmed old fds).fdTable k := by
    intro fds k
    simp only [Tables.disarmed, htable]
  have hguards : ∀ fds k n j, (T.disarmed old fds).Guards k n j → (T₂.disarmed old fds).Guards k n j := by
    rintro fds k n j ⟨hg, hj⟩
    refine ⟨by rw [hentry, hg], ?_⟩
    change T₂.fds k = some j
    rw [hfds]
    exact hj
  have hrange : T₂.disarmed old (List.range T.capacity) = T₂ := by
    have h₁ := congrArg Tables.fdTable (hl.disarmed_range old)
    ext1 <;> try rfl
    funext k
    rw [hentry, h₁, htable]
  refine Cmd.wp_conseq (wwp_forEntries (P := fun fds w' => fds.Nodup ∧ w'.tables = T₂.disarmed old fds ∧
    Keeps cfg P dur none (T.disarmed old fds) C w' ∧ WrittenBack w w') ?_ ?_
      ⟨List.nodup_range, ?_, ?_, .refl w⟩) fun ok w' h => ⟨h.1, h.2.2⟩
  · rintro fd fds w' ⟨hnodup, htables', hk', hback⟩ hname
    obtain ⟨hfd, hnodup⟩ := List.nodup_cons.mp hnodup
    have hhead : w'.tables.fdTable fd = T.fdTable fd := by rw [htables', hentry, Tables.disarmed_head]
    rw [hhead] at hname
    have hsome : (T.fdTable fd).aofguard.isSome := (hl.paired fd).mpr ⟨old, hname, hold⟩
    unfold detachGuard
    simp only [wwp, Cmd.wp_bind, Cmd.wp_get, Cmd.wp_check, hhead]
    refine ⟨Option.isSome_iff_ne_none.mp hsome, wwp_dropGuard (fun _ => ?_) (fun hnone => ?_) fun n w₁ _ ht => ?_⟩
    · obtain ⟨n, hn⟩ := Option.isSome_iff_exists.mp hsome
      obtain ⟨j, hj⟩ := hl.guards hn
      have hg : (T.disarmed old (fd :: fds)).Guards fd n j := ⟨by rw [Tables.disarmed_head, hn], hj.2⟩
      exact (hk'.guard fd n j hg (by simp)).not_exited
    · rw [hhead] at hnone
      rw [hnone] at hsome
      cases hsome
    · have hk₁ := hk'.env (fun k n j hg _ => by rw [htables']; exact hguards _ k n j hg) ht
      have ht₁ := ht.tables.trans htables'
      have hback₁ := hback.trans (.ticks ht)
      refine ⟨hI w₁ _ ht₁ hk₁ hback₁, rfl, hnodup, ?_, ?_, hback₁.trans (.dropped w₁ fd)⟩
      · simp only [World.dropped, ht₁, hentry, Tables.disarmed_head]
        rw [← htable] at hname ⊢
        exact Tables.disarmed_pass hfd hname
      · have hdisarm : Keeps cfg P dur none (_ : Tables) C (w₁.dropped fd) := hk₁.disarm
        rwa [Tables.disarmed_head, Tables.disarmed_pass hfd hname] at hdisarm
  · rintro fd fds w' ⟨hnodup, htables', hk', hback⟩ hname
    obtain ⟨hfd, hnodup⟩ := List.nodup_cons.mp hnodup
    rw [htables', hentry, Tables.disarmed_head] at hname
    have hname₂ : (T₂.fdTable fd).name ≠ some old := by rwa [htable]
    refine ⟨hnodup, ?_, ?_, hback⟩
    · rw [htables', Tables.disarmed_skip hname₂]
    · rwa [Tables.disarmed_skip hname] at hk'
  · rw [hrange, htables]
  · rwa [hl.disarmed_range]

end

/-- Only the old name is in the pattern: its NVM file and its guards are gone. -/
theorem renamed_out (h : Linked cfg P T) (hk : Keeps cfg P dur none (T.disarmed old []) C w) (hnames : NoCollision cfg P)
    (hold : Logs cfg P old) (hnew : P new) (hneed : cfg.needNvm new = false) (hdir : T.dir old = some i)
    (hmoved : FileMoved T T' old new i) (htable : T'.fdTable = (T.disarmed old []).fdTable)
    (hnvm : NvmDropped w.nvms T T' (cfg.nvmFileName old)) (hdata : (w.files i).data = C i) :
    Linked cfg P (T'.renamed old new) ∧ Keeps cfg P dur none (T'.renamed old new) C w := by
  have hentry : ∀ k, ((T'.renamed old new).fdTable k).name =
        (if (T.fdTable k).name = some old then some new else (T.fdTable k).name) ∧
      ((T'.renamed old new).fdTable k).aofguard = ((T.disarmed old []).fdTable k).aofguard := by
    intro k
    have hlt : (T.fdTable k).name = some old → k < T'.capacity := by
      intro hname
      by_contra hge
      rw [hmoved.capacity] at hge
      rw [h.beyond k (Nat.le_of_not_lt hge)] at hname
      cases hname
    simp only [Tables.renamed, htable, Tables.disarmed_name]
    by_cases hname : (T.fdTable k).name = some old
    · rw [if_pos ⟨hlt hname, hname⟩, if_pos hname]
      exact ⟨rfl, rfl⟩
    · rw [if_neg (fun h => hname h.2), if_neg hname, Tables.disarmed_name]
      exact ⟨rfl, rfl⟩
  have hother : ∀ k, (T.fdTable k).name ≠ some old →
      ((T.disarmed old []).fdTable k).aofguard = (T.fdTable k).aofguard := by
    intro k hname
    simp [Tables.disarmed, hname]
  have hgone : ∀ k, (T.fdTable k).name = some old → ((T.disarmed old []).fdTable k).aofguard = none := by
    intro k hname
    simp [Tables.disarmed, hname]
  have hguards : ∀ k n j, (T'.renamed old new).Guards k n j → (T.disarmed old []).Guards k n j := by
    rintro k n j ⟨hg, hj⟩
    rw [(hentry k).2] at hg
    exact ⟨hg, hmoved.fds ▸ hj⟩
  have hlogs : ∀ q, Logs cfg P q → q ≠ new := fun q hq => needNvm_ne hq.2 hneed
  have hsame : ∀ q, Logs cfg P q → q ≠ old → T'.nvmDir (cfg.nvmFileName q) = T.nvmDir (cfg.nvmFileName q) :=
    fun q hq hqo => hnvm.same _ fun heq => hqo (hnames q old hq.1 hold.1 heq)
  constructor
  · refine h.moved_guards hdir hnew hmoved.dir hmoved.fds hmoved.inos hmoved.capacity (fun k => (hentry k).1)
      (fun k hname => (hentry k).2.trans (hother k hname)) (fun k hname => ?_)
      (fun k n hg => Tables.disarmed_guard ((hentry k).2 ▸ hg)) hnvm.inos hnvm.le hnvm.inj ?_
    · rw [(hentry k).2, hgone k hname, hneed]
      simp
    · intro k n j q hg hg' hq
      rw [(hentry k).2] at hg'
      have hmapped : w.nvms n ≠ none := by
        have hgd : (T.disarmed old []).Guards k n j := ⟨hg', hg.2⟩
        have hguard := hk.guard k n j hgd (by simp)
        rw [hgd.port] at hguard
        exact hguard.mapped
      change T'.dir q = some j ↔ T'.nvmDir (cfg.nvmFileName q) = n
      rw [hmoved.dir]
      by_cases hqo : q = old
      · subst hqo
        rw [Function.update_self]
        exact iff_of_false (by simp) fun heq => hmapped (heq ▸ hnvm.gone)
      · rw [Function.update_of_ne hqo, Function.update_of_ne (hlogs q hq), hsame q hq hqo]
        exact h.link k n j q hg hq
  · refine hk.moved hdir hmoved.dir hmoved.fds hnvm.inos (fun k n j hg => ?_) (fun k j hj hg => ?_)
      (fun q hq hqo _ => ?_) (fun hq => absurd rfl (hlogs new hq)) (fun _ => hdata) (fun _ => hnvm.gone)
      (fun hq => absurd rfl (hlogs new hq)) fun k n j hg => hk.small j (Or.inr ⟨k, n, hguards k n j hg⟩)
    · have hg' := hguards k n j hg
      rw [hg.port, ← hg'.port]
      exact hk.guard k n j hg' (by simp)
    · rw [(hentry k).2] at hg
      exact hk.bare k j (hmoved.fds ▸ hj) hg (by simp)
    · change w.nvms (T'.nvmDir _) = w.nvms (T.nvmDir _)
      rw [hsame q hq hqo]

/-! ## Coming into the pattern -/

/-- While `i` gets a guard, all other inodes keep their content. -/
theorem Keeps.moved_except (hk : Keeps cfg P dur none T C w) (hold : cfg.needNvm old = false)
    (hd : T'.dir = Function.update (Function.update T.dir new (some i)) old none) (hfds : T'.fds = T.fds)
    (htable : T'.fdTable = T.fdTable) (hnvmDir : T'.nvmDir = T.nvmDir) (hinos : T'.nvmInos = T.nvmInos)
    (hsmall : (C i).length < 2 ^ 48) : Keeps cfg P dur (some i) T' C w := by
  have hguards : ∀ k n j, T'.Guards k n j → T.Guards k n j := by
    rintro k n j ⟨hg, hj⟩
    exact ⟨htable ▸ hg, hfds ▸ hj⟩
  have hdir : ∀ q j, T'.dir q = some j → some j ≠ some i → T.dir q = some j := by
    intro q j hj hne
    rw [hd] at hj
    simp only [Function.update_apply] at hj
    split_ifs at hj with hqo hqn
    · exact absurd hj.symm hne
    · exact hj
  constructor
  · intro k n j hg _
    have hg' := hguards k n j hg
    rw [hg.port, ← hg'.port]
    exact hk.guard k n j hg' (by simp)
  · intro q j hq hj hopen hx
    rw [hnvmDir]
    exact hk.rest q j hq (hdir q j hj hx) (hfds ▸ hopen) (by simp)
  · intro k j hj hg _
    exact hk.bare k j (hfds ▸ hj) (htable ▸ hg) (by simp)
  · intro q j hq hj hx
    exact hk.plain q j hq (hdir q j hj hx) (by simp)
  · intro q hq hj
    have hqo : q ≠ old := needNvm_ne hq.2 hold
    rw [hd, Function.update_of_ne hqo, Function.update_apply] at hj
    split_ifs at hj
    rw [hnvmDir]
    exact hk.vacant q hq hj
  · rw [hinos]
    exact hk.fresh
  · intro j hj
    by_cases hji : j = i
    · rwa [hji]
    · apply hk.small j
      rcases hj with ⟨q, hq, hdirq⟩ | ⟨k, n, hg⟩
      · exact Or.inl ⟨q, hq, hdir q j hdirq (by simpa using hji)⟩
      · exact Or.inr ⟨k, n, hguards k n j hg⟩

/-- The descriptor `k` is the only one named `old`; it appends to the file `i`, and no guard maps the NVM file of `new`. -/
structure Sole (cfg : Config) (old new : String) (w : World) (i k : Nat) : Prop where
  opened : w.tables.fds k = some i
  only : ∀ k', (w.tables.fdTable k').name = some old → k' = k
  append : (w.descs k).append = true
  writable : (w.descs k).writable = true
  free : ∀ k', (w.tables.fdTable k').aofguard ≠ some (w.tables.nvmDir (cfg.nvmFileName new))

/-- The tables `T` after the kernel's rename, with the guard that `rename` gives to `k`. -/
def Tables.armed (T : Tables) (k : Nat) (n : NvmIno) : Tables :=
  T.setEntry k { T.fdTable k with aofguard := some n }

section
variable {k : Nat} {n : NvmIno}

theorem Tables.armed_name (k' : Nat) : ((T.armed k n).fdTable k').name = (T.fdTable k').name := by
  simp only [Tables.armed, Tables.setEntry, Function.update_apply]
  split_ifs with hk
  · rw [hk]
  · rfl

theorem Tables.armed_self : ((T.armed k n).fdTable k).aofguard = some n := by
  simp [Tables.armed, Tables.setEntry]

theorem Tables.armed_ne {k' : Nat} (h : k' ≠ k) : (T.armed k n).fdTable k' = T.fdTable k' :=
  Function.update_of_ne h _ _

/-- A file without a matching name has no guard. -/
theorem Linked.unguarded_plain (h : Linked cfg P T) (hold : cfg.needNvm old = false) (hdir : T.dir old = some i) {k' : Nat}
    {n' : NvmIno} {j : Nat} (hg : T.Guards k' n' j) : j ≠ i := by
  rintro rfl
  exact h.not_plain hg hold hdir

/-- The port of the file that gets a guard. -/
theorem Linked.apart_attach (h : Linked cfg P T) (hnames : NoCollision cfg P) (hold : cfg.needNvm old = false)
    (hnew : Logs cfg P new) (hdir : T.dir old = some i) (hmoved : FileMoved T T' old new i)
    (htable : T'.fdTable = T.fdTable) (hnvmDir : T'.nvmDir = T.nvmDir) (hinos : T'.nvmInos = T.nvmInos)
    (hk : T.fds k = some i) (hn : n = T.nvmDir (cfg.nvmFileName new)) (hfree : ∀ k', (T.fdTable k').aofguard ≠ some n) :
    Apart cfg P T' (T'.armed k n) ⟨i, n, k, some k⟩ := by
  have hguards : ∀ k' n' j, T'.Guards k' n' j → T.Guards k' n' j ∧ k' ≠ k ∧ j ≠ i := by
    rintro k' n' j ⟨hg, hj⟩
    have hgT : T.Guards k' n' j := ⟨htable ▸ hg, hmoved.fds ▸ hj⟩
    have hji := h.unguarded_plain hold hdir hgT
    refine ⟨hgT, ?_, hji⟩
    rintro rfl
    have := hgT.2
    rw [hk] at this
    cases this
    exact hji rfl
  have hother : ∀ q, Logs cfg P q → T'.nvmDir (cfg.nvmFileName q) = n → q = new := by
    intro q hq heq
    rw [hnvmDir, hn] at heq
    exact hnames q new hq.1 hnew.1 (h.nvm_inj _ _ heq)
  have hqo : new ≠ old := needNvm_ne hnew.2 hold
  have hto : T'.dir new = some i := hmoved.dir_to (Ne.symm hqo)
  constructor
  · intro k' n' j hg _
    obtain ⟨hgT, hne, -⟩ := hguards k' n' j hg
    refine ⟨⟨by rw [Tables.armed_ne hne, hg.1], hg.2⟩, hne, ?_, by simpa using Ne.symm hne⟩
    rintro rfl
    exact hfree k' hgT.1
  · intro k' n' hg
    by_cases hne : k' = k
    · subst hne
      rw [Tables.armed_self] at hg
      cases hg
      left
      have hfds : (T'.armed k' n).fds k' = some i := by
        change T'.fds k' = some i
        rw [hmoved.fds, hk]
      rw [Tables.port, hfds]
      rfl
    · rw [Tables.armed_ne hne, htable] at hg
      obtain ⟨j, hj⟩ := h.guards hg
      have hgT' : (T'.armed k n).Guards k' n' j := by
        refine ⟨by rw [Tables.armed_ne hne, htable, hg], ?_⟩
        change T'.fds k' = some j
        rw [hmoved.fds, hj.2]
      rw [hgT'.port]
      exact Or.inr ⟨h.unguarded_plain hold hdir hj, hne, by simpa using Ne.symm hne⟩
  · intro q j hq hj hne heq
    obtain rfl := hother q hq heq
    rw [hto] at hj
    cases hj
    exact hne rfl
  · intro q hq hnone heq
    obtain rfl := hother q hq heq
    rw [hto] at hnone
    cases hnone
  · change n.2 ≤ T'.nvmInos
    rw [hinos, hn]
    exact h.nvm_le _

/-- `rename` gives the descriptor of the moved file a guard with an empty ring. -/
theorem attachGuard_sound (hsize : SizeOk cfg.nvmSize) (h : Linked cfg P T) (hnames : NoCollision cfg P)
    (hkeep : Keeps cfg P dur none T C w) (hold : cfg.needNvm old = false) (hnew : Logs cfg P new)
    (hdir : T.dir old = some i) (hmoved : FileMoved T w.tables old new i) (htable : w.tables.fdTable = T.fdTable)
    (hnvmDir : w.tables.nvmDir = T.nvmDir) (hinos : w.tables.nvmInos = T.nvmInos) (hk : T.fds k = some i)
    (hn : n = T.nvmDir (cfg.nvmFileName new)) (hfree : ∀ k', (T.fdTable k').aofguard ≠ some n)
    (happ : (w.descs k).append = true) (hw : (w.descs k).writable = true)
    (hsync : dur → (w.files i).OnDisk (w.files i).data) (hsmall : (w.files i).data.length < 2 ^ 48)
    (hfit : ∀ x, w.nvms n = some x → x.size = 128 + capOf cfg.nvmSize) :
    wwp (fun w' => w'.tables = w.tables.armed k n ∧ Keeps cfg P dur (some i) w.tables C w' ∧
      Beside ⟨i, n, k, some k⟩ w w' ∧
      AtStage (capOf cfg.nvmSize) (w.files i) (w.nvms n) (Port.view ⟨i, n, k, some k⟩ w')) (attachGuard cfg new k)
      (fun ok w' => ok = true ∧ w'.tables = w.tables.armed k n ∧
      Keeps cfg P dur (some i) w.tables C w' ∧ Beside ⟨i, n, k, some k⟩ w w' ∧ (w'.guards (some k)).len = 0 ∧
      Guard False True dur (capOf cfg.nvmSize) (C i) (Port.view ⟨i, n, k, some k⟩ w')) w := by
  have hdata := hkeep.plain old i hold hdir (by simp)
  have hbare : (w.tables.fdTable k).aofguard = none := by
    rw [htable, ← Option.not_isSome_iff_eq_none, h.paired, h.named k old i hk hdir]
    simp [hold]
  have hport : (w.tables.armed k n).port k n (some k) = ⟨i, n, k, some k⟩ := by
    have hfds : (w.tables.armed k n).fds k = some i := by
      change w.tables.fds k = some i
      rw [hmoved.fds, hk]
    rw [Tables.port, hfds]
    rfl
  have hkeep' : Keeps cfg P dur (some i) w.tables C { w with
      tables := w.tables.armed k n, guards := Function.update w.guards (some k) .blank } := by
    have hexcept : Keeps cfg P dur (some i) w.tables C w :=
      hkeep.moved_except hold hmoved.dir hmoved.fds htable hnvmDir hinos (hdata ▸ hsmall)
    refine hexcept.congr rfl rfl fun k' n' j hg => ⟨rfl, ?_⟩
    have hne : k' ≠ k := by
      rintro rfl
      have := hg.1
      rw [hbare] at this
      cases this
    simp [hne]
  have hfile : True → (dur → (w.files i).synced = (w.files i).data.length) ∧ (w.descs k).append = true :=
    fun _ => ⟨fun hd => (hsync hd).synced, happ⟩
  have hinit := aofguardInit_fresh hsize (Or.inr rfl : w.nvms n = none ∨ true = true) hw hfile
  unfold attachGuard
  simp only [wwp, Cmd.wp_bind, Cmd.wp_get, Cmd.wp_check, wwp_succeeds, if_true, Cmd.wp_modify, hnvmDir, ← hn]
  refine ⟨hbare, ?_⟩
  change wwp _ (Port.run ((w.tables.armed k n).port k n (some k)) _) _ { w with
    tables := w.tables.armed k n, guards := Function.update w.guards (some k) .blank }
  rw [hport]
  have hlens : ∀ w', Beside ⟨i, n, k, some k⟩ { w with
      tables := w.tables.armed k n, guards := Function.update w.guards (some k) .blank } w' →
      Beside ⟨i, n, k, some k⟩ w w' := by
    rintro w' ⟨hspares, hlens⟩
    refine ⟨hspares, fun key hkey => ?_⟩
    rw [hlens key hkey]
    exact congrArg Aofguard.len (Function.update_of_ne hkey _ _)
  refine Cmd.wp_conseq (wwp_alone (I := AtStage (capOf cfg.nvmSize) (w.files i) (w.nvms n)) hkeep'
    (h.apart_attach hnames hold hnew hdir hmoved htable hnvmDir hinos hk hn hfree)
    (fun w' ht hk' hbeside hstage => ⟨ht, hk', hlens w' hbeside, hstage⟩) (Q := fun ok t => ok = true ∧
      Guard False True dur (capOf cfg.nvmSize) (C i) t ∧ t.guard.len = 0) ?_) ?_
  · have hview : Port.view ⟨i, n, k, some k⟩ { w with
        tables := w.tables.armed k n, guards := Function.update w.guards (some k) .blank } =
          .boot (w.files i) (w.nvms n) (w.descs k) := by
      simp [Port.view, Sys.boot]
    rw [hview]
    refine Cmd.wp_conseq hinit ?_
    rintro ok t ⟨hok, hguard⟩
    have hsized : (base (capOf cfg.nvmSize) (w.nvms n)).size = 128 + capOf cfg.nvmSize := by
      unfold base
      cases hx : w.nvms n with
      | none => rfl
      | some x => exact hfit x hx
    rw [← hdata]
    exact ⟨hok hsized, hguard (hok hsized)⟩
  · rintro ok w' ⟨⟨htables, hkeep'', hbeside⟩, hok, hguard, hlen⟩
    exact ⟨hok, htables, hkeep'', hlens w' hbeside, hlen, hguard⟩

end

/-- Only the new name is in the pattern, and the one descriptor named `old` has got a guard. -/
theorem renamed_into {k : Nat} {n : NvmIno} (h : Linked cfg P T) (hk : Keeps cfg P dur (some i) T' C w)
    (hnames : NoCollision cfg P) (hold : cfg.needNvm old = false) (hnew : Logs cfg P new) (hdir : T.dir old = some i)
    (hmoved : FileMoved T T' old new i) (htable : T'.fdTable = T.fdTable) (hnvmDir : T'.nvmDir = T.nvmDir)
    (hinos : T'.nvmInos = T.nvmInos) (hopen : T.fds k = some i) (honly : ∀ k', (T.fdTable k').name = some old → k' = k)
    (hn : n = T.nvmDir (cfg.nvmFileName new)) (hfree : ∀ k', (T.fdTable k').aofguard ≠ some n)
    (hguard : Guard False True dur (capOf cfg.nvmSize) (C i) (Port.view ⟨i, n, k, some k⟩ w)) :
    Linked cfg P ((T'.armed k n).renamed old new) ∧ Keeps cfg P dur none ((T'.armed k n).renamed old new) C w := by
  have hkold := h.named k old i hopen hdir
  have hentry : ∀ k', (((T'.armed k n).renamed old new).fdTable k').name =
        (if (T.fdTable k').name = some old then some new else (T.fdTable k').name) ∧
      (((T'.armed k n).renamed old new).fdTable k').aofguard = ((T'.armed k n).fdTable k').aofguard := by
    intro k'
    have hlt : (T.fdTable k').name = some old → k' < T'.capacity := by
      intro hname
      by_contra hge
      rw [hmoved.capacity] at hge
      rw [h.beyond k' (Nat.le_of_not_lt hge)] at hname
      cases hname
    have hcap : (T'.armed k n).capacity = T'.capacity := rfl
    simp only [Tables.renamed, Tables.armed_name, htable, hcap]
    by_cases hname : (T.fdTable k').name = some old
    · rw [if_pos ⟨hlt hname, hname⟩, if_pos hname]
      exact ⟨rfl, rfl⟩
    · rw [if_neg (fun h => hname h.2), if_neg hname, Tables.armed_name, htable]
      exact ⟨rfl, rfl⟩
  have hself : (((T'.armed k n).renamed old new).fdTable k).aofguard = some n := by
    rw [(hentry k).2, Tables.armed_self]
  have hother : ∀ k', k' ≠ k → (((T'.armed k n).renamed old new).fdTable k').aofguard = (T.fdTable k').aofguard := by
    intro k' hne
    rw [(hentry k').2, Tables.armed_ne hne, htable]
  -- a guard is the new one, or it was there before on another inode
  have hguards : ∀ k' n' j, ((T'.armed k n).renamed old new).Guards k' n' j →
      (k' = k ∧ n' = n ∧ j = i) ∨ (k' ≠ k ∧ T.Guards k' n' j ∧ j ≠ i) := by
    rintro k' n' j ⟨hg, hj⟩
    have hj' : T.fds k' = some j := hmoved.fds ▸ hj
    by_cases hne : k' = k
    · subst hne
      rw [hself] at hg
      rw [hopen] at hj'
      cases hg
      cases hj'
      exact Or.inl ⟨rfl, rfl, rfl⟩
    · rw [hother k' hne] at hg
      exact Or.inr ⟨hne, ⟨hg, hj'⟩, h.unguarded_plain hold hdir ⟨hg, hj'⟩⟩
  have hlogs : ∀ q, Logs cfg P q → q ≠ old := fun q hq => needNvm_ne hq.2 hold
  have hto : T'.dir new = some i := hmoved.dir_to (hlogs new hnew).symm
  have hdirs : ∀ q, Logs cfg P q → q ≠ new → T'.dir q = T.dir q := by
    intro q hq hqn
    rw [hmoved.dir, Function.update_of_ne (hlogs q hq), Function.update_of_ne hqn]
  constructor
  · refine h.moved hdir hnew.1 hmoved.dir hmoved.fds hmoved.inos hmoved.capacity (fun k' => (hentry k').1)
      (fun k' hname => ?_) (fun k' hname => ?_) ?_ ?_ ?_ ?_ ?_ ?_
    · refine hother k' ?_
      rintro rfl
      exact hname hkold
    · obtain rfl := honly k' hname
      rw [hself]
      simp [hnew.2]
    · change ∀ q, (T'.nvmDir q).2 ≤ T'.nvmInos
      rw [hnvmDir, hinos]
      exact h.nvm_le
    · change ∀ q q', T'.nvmDir q = T'.nvmDir q' → q = q'
      rw [hnvmDir]
      exact h.nvm_inj
    · intro k' n' hg
      change n'.2 ≤ T'.nvmInos
      rw [hinos]
      by_cases hne : k' = k
      · subst hne
        rw [hself] at hg
        cases hg
        rw [hn]
        exact h.nvm_le _
      · rw [hother k' hne] at hg
        exact h.guard_le k' n' hg
    · intro k' k'' n' j hg hj
      have hj' : T.fds k'' = some j := hmoved.fds ▸ hj
      obtain ⟨rfl, rfl, rfl⟩ | ⟨-, hgT, -⟩ := hguards k' n' j hg
      · exact honly k'' (h.named k'' old j hj' hdir)
      · exact h.alone k' k'' n' j hgT hj'
    · intro k' k'' n' hg hg'
      by_cases hne : k' = k
      · subst hne
        rw [hself] at hg
        cases hg
        by_contra hne'
        rw [hother k'' hne'] at hg'
        exact hfree k'' hg'
      · rw [hother k' hne] at hg
        by_cases hne' : k'' = k
        · subst hne'
          rw [hself] at hg'
          cases hg'
          exact absurd hg (hfree k')
        · rw [hother k'' hne'] at hg'
          exact h.apart k' k'' n' hg hg'
    · intro k' n' j q hg hq
      change T'.dir q = some j ↔ T'.nvmDir (cfg.nvmFileName q) = n'
      rw [hnvmDir]
      by_cases hqn : q = new
      · subst hqn
        rw [hto, ← hn]
        obtain ⟨rfl, rfl, rfl⟩ | ⟨-, hgT, hji⟩ := hguards k' n' j hg
        · exact iff_of_true rfl rfl
        · refine iff_of_false (fun heq => hji (Option.some.inj heq).symm) fun heq => ?_
          exact hfree k' (heq ▸ hgT.1)
      · rw [hdirs q hq hqn]
        obtain ⟨rfl, rfl, rfl⟩ | ⟨-, hgT, -⟩ := hguards k' n' j hg
        · refine iff_of_false (fun heq => hlogs q hq (h.dir_inj q old _ heq hdir)) fun heq => hqn ?_
          rw [hn] at heq
          exact hnames q new hq.1 hnew.1 (h.nvm_inj _ _ heq)
        · exact h.link k' n' j q hgT hq
  · constructor
    · intro k' n' j hg _
      obtain ⟨rfl, rfl, rfl⟩ | ⟨-, hgT, hji⟩ := hguards k' n' j hg
      · rw [hg.port]
        exact hguard
      · have hg' : T'.Guards k' n' j := ⟨htable ▸ hgT.1, hmoved.fds ▸ hgT.2⟩
        rw [hg.port, ← hg'.port]
        exact hk.guard k' n' j hg' (by simpa using hji)
    · intro q j hq hj hclosed _
      refine hk.rest q j hq hj hclosed ?_
      rintro ⟨⟩
      exact hclosed k (hmoved.fds ▸ hopen)
    · intro k' j hj hg _
      have hj' : T.fds k' = some j := hmoved.fds ▸ hj
      have hne : k' ≠ k := by
        rintro rfl
        rw [hself] at hg
        cases hg
      rw [hother k' hne] at hg
      refine hk.bare k' j hj (htable ▸ hg) ?_
      rintro ⟨⟩
      exact hne (honly k' (h.named k' old _ hj' hdir))
    · intro q j hq hj _
      refine hk.plain q j hq hj ?_
      rintro ⟨⟩
      have hjd : T'.dir q = some i := hj
      rw [hmoved.dir] at hjd
      simp only [Function.update_apply] at hjd
      split_ifs at hjd with hqo hqn
      · rw [hqn, hnew.2] at hq
        cases hq
      · exact hqo (h.dir_inj q old _ hjd hdir)
    · exact hk.vacant
    · exact hk.fresh
    · rintro j (hlog | ⟨k', n', hg⟩)
      · exact hk.small j (Or.inl hlog)
      · obtain ⟨rfl, rfl, rfl⟩ | ⟨-, hgT, -⟩ := hguards k' n' j hg
        · exact hk.small j (Or.inl ⟨new, hnew, hto⟩)
        · exact hk.small j (Or.inr ⟨k', n', htable ▸ hgT.1, hmoved.fds ▸ hgT.2⟩)

end

end PmemProgram.Wal
