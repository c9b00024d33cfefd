import PmemProgram.Wal.Lengths
import PmemProgram.Wal.Table

/-!
# A guard that cannot be attached (`inject.c`, `rename`)

`rename` into the pattern makes a guard for each descriptor of the old name, publishes it in `fd_table` before
`aofguard_init` and updates the names last. `RenameStage` is how far it gets (`rename_eq`).

* `AttachFails` : the runs in which a guard cannot be attached, whatever else fails;
* `Handled` : what such a call should leave;
* `attach_failure` : it never does: the call returns 0, and a descriptor keeps the old name and has no guard or one that
  is not set up; `attach_failure_unreported` : so it is after an open and a `rename` to a log whose NVM file has another
  size.
-/

namespace PmemProgram.Wal
open PmemProgram.Lib PmemProgram.Lib.Ring

/-- How far a `rename` gets: the kernel refuses it, the NVM file cannot be moved or removed, a guard cannot be attached, or
only the names are left to update. -/
inductive RenameStage
  | refused
  | nvm
  | attach
  | names
deriving DecidableEq

/-- `rename` up to its last loop. -/
def renameFiles (cfg : Config) (oldpath newpath : String) : Cmd Syscall World RenameStage := do
  let ok ← syscallRename oldpath newpath
  if ok then
    if cfg.needNvm newpath then
      if cfg.needNvm oldpath then
        let ok ← moveNvm cfg oldpath newpath
        pure (if ok then .names else .nvm)
      else
        let capacity ← Cmd.get (·.tables.capacity)
        let ok ← forEntries oldpath (attachGuard cfg newpath) (List.range capacity)
        pure (if ok then .names else .attach)
    else if cfg.needNvm oldpath then
      let ok ← removeNvm cfg oldpath
      pure (if ok then .names else .nvm)
    else pure .names
  else pure .refused

/-- The last loop, or the result of the failure. -/
def finishRename (oldpath newpath : String) : RenameStage → Cmd Syscall World Int
  | .refused => pure (-1)
  | .nvm => pure (-1)
  | .attach => pure 0
  | .names => renameEntries oldpath newpath

theorem rename_eq (cfg : Config) (oldpath newpath : String) :
    rename cfg oldpath newpath = renameFiles cfg oldpath newpath >>= finishRename oldpath newpath := by
  have hite : ∀ {α β : Type} (p : Prop) [Decidable p] (c d : Cmd Syscall World α) (g : α → Cmd Syscall World β),
      (if p then c else d).bind g = if p then c.bind g else d.bind g := by
    intro α β p _ c d g
    split_ifs <;> rfl
  unfold rename renameFiles
  simp only [Cmd.bind_def, Cmd.bind_assoc, hite, Cmd.pure_def, Cmd.ret_bind]
  congr 1
  funext ok
  cases ok
  · rfl
  cases cfg.needNvm newpath <;> cases cfg.needNvm oldpath
  · rfl
  · simp only [Bool.false_eq_true, if_false, if_true]
    congr 1
    funext ok
    cases ok <;> rfl
  · simp only [Bool.false_eq_true, if_false, if_true]
    congr 1
    funext capacity
    congr 1
    funext ok
    cases ok <;> rfl
  · simp only [if_true]
    congr 1
    funext ok
    cases ok <;> rfl

/-! ## Runs in which anything may fail -/

/-- A step of the thread of some guard, whose calls may fail. -/
inductive AnyTick : World → World → Prop
  | mk {w : World} {fd : Nat} {n : NvmIno} {s : Sys} : (w.tables.fdTable fd).aofguard = some n →
      Tick AnyReply ((w.tables.port fd n (some fd)).view w) s → AnyTick w ((w.tables.port fd n (some fd)).put s w)

/-- A run of a call beside the threads, where any system call may fail. -/
abbrev AnyRun {α : Type} (c : Cmd Syscall World α) (w : World) (a : α) (w' : World) : Prop :=
  Cmd.Run (Relation.ReflTransGen AnyTick) AnyReply c w a w'

/-- The runs of `rename` that the kernel accepts and in which a guard cannot be attached to some descriptor. -/
def AttachFails (cfg : Config) (old new : String) (w : World) (r : Int) (w' : World) : Prop :=
  ∃ w₁, AnyRun (renameFiles cfg old new) w .attach w₁ ∧ AnyRun (finishRename old new .attach) w₁ r w'

theorem AttachFails.run {cfg : Config} {old new : String} {w w' : World} {r : Int} (h : AttachFails cfg old new w r w') :
    AnyRun (rename cfg old new) w r w' := by
  obtain ⟨w₁, hfiles, hfinish⟩ := h
  rw [rename_eq]
  exact Cmd.run_bind_iff.mpr ⟨_, w₁, hfiles, hfinish⟩

/-- The call reports the failure, and the guards in the table are those of `aofguard_init`: their threads run, and their
rings are good for any write. -/
structure Handled (cfg : Config) (r : Int) (w : World) : Prop where
  reported : r = -1
  running : ∀ fd n, (w.tables.entry fd).aofguard = some n → (w.guards (some fd)).thread ≠ .none
  ring : ∀ fd n, (w.tables.entry fd).aofguard = some n →
    InRing (capOf cfg.nvmSize) ((w.tables.port fd n (some fd)).view w)

/-- The entry of `fd` has the old name, and no guard or one that is not set up. -/
def Unattached (old : String) (w : World) (fd : Nat) : Prop :=
  (w.tables.entry fd).name = some old ∧
    ∀ n, (w.tables.entry fd).aofguard = some n → (w.guards (some fd)).thread = .none

section
variable {cfg : Config} {old new : String} {w w' : World} {r : Int} {fd : Nat} {fds : List Nat}

/-- A guard whose thread does not run stays as it is. -/
theorem AnyTick.still (h : AnyTick w w') :
    w'.tables = w.tables ∧ ∀ key, (w.guards key).thread = .none → (w'.guards key).thread = .none := by
  obtain ⟨_, ht⟩ := h
  refine ⟨rfl, fun key hkey => ?_⟩
  simp only [Port.put, Function.update_apply]
  split_ifs with hk
  · rw [hk] at hkey
    cases ht with
    | wait _ hidle _ => exact absurd (hkey.symm.trans hidle) (by decide)
    | sync _ hsyncing => exact absurd (hkey.symm.trans hsyncing) (by simp)
    | post _ hsynced => exact absurd (hkey.symm.trans hsynced) (by decide)
  · exact hkey

theorem anyTicks_still (h : Relation.ReflTransGen AnyTick w w') :
    w'.tables = w.tables ∧ ∀ key, (w.guards key).thread = .none → (w'.guards key).thread = .none := by
  induction h with
  | refl => exact ⟨rfl, fun _ h => h⟩
  | tail _ hstep ih =>
    obtain ⟨htables, hstill⟩ := hstep.still
    exact ⟨htables.trans ih.1, fun key hkey => hstill key (ih.2 key hkey)⟩

/-- A thread that does not run has not been started. -/
def Dormant (s t : Sys) : Prop := s.guard.thread = .none → t.guard.thread = .none

/-- `aofguard_init` starts the thread last. -/
theorem aofguardInit_fails {A : Syscall → Nat → Prop} {nvmSize : Nat} {s : Sys} (hs : s.guard.thread = .none) :
    Cmd.wp Dormant A (fun _ => True) (aofguardInit nvmSize true) (fun ok t => ok = false → t.guard.thread = .none) s := by
  have hsetUp : ∀ cap t, t.guard.thread = .none →
      Cmd.wp Dormant A (fun _ => True) (setUp cap false) (fun ok u => ok = false → u.guard.thread = .none) t := by
    intro cap t ht
    simp only [setUp, resetMeta, startThread, setGuard, nvmSet64, Cmd.wp_bind, Cmd.wp_get, Cmd.wp_modify, Cmd.wp_ite,
      Cmd.wp_pure, Cmd.wp_succeeds, Bool.false_eq_true, if_false]
    refine Cmd.wp_step fun u hu => ⟨trivial, Cmd.wp_step fun v hv => ⟨trivial, ?_⟩⟩
    have hu' : u.guard.thread = .none := hu ht
    have hv' : v.guard.thread = .none := hv hu'
    refine ⟨fun _ _ _ _ _ _ _ => ⟨fun _ hf => ?_, fun _ _ => hv'⟩, fun hf => absurd trivial hf⟩
    cases hf
  have hopen : ∀ n, Cmd.wp Dormant A (fun _ => True) (openNvm n) (fun _ t => t.guard.thread = .none) s := by
    intro n
    unfold openNvm
    simp only [Cmd.wp_bind, Cmd.wp_get]
    cases s.nvm with
    | some x =>
      simp only [Cmd.wp_bind, Cmd.wp_succeeds, Cmd.wp_pure]
      exact fun _ _ _ _ => hs
    | none =>
      simp only [Cmd.wp_bind, Cmd.wp_ite, Cmd.wp_succeeds, Cmd.wp_pure]
      refine fun _ _ => ⟨fun _ => Cmd.wp_step fun t ht => ⟨trivial, ?_⟩, fun _ => hs⟩
      have ht' : t.guard.thread = .none := ht hs
      refine fun _ _ => ⟨fun _ => Cmd.wp_step fun u hu => ⟨trivial, ?_⟩, fun _ => ht'⟩
      have hu' : u.guard.thread = .none := hu ht'
      exact hu'
  unfold aofguardInit
  simp only [Cmd.wp_bind, Cmd.wp_get, Cmd.wp_ite, Cmd.wp_succeeds, Cmd.wp_pure]
  refine ⟨fun _ _ => hs, fun _ => ⟨fun _ _ => hs, fun _ => Cmd.wp_conseq (hopen _) fun opened t ht => ⟨fun _ => ?_, ?_⟩⟩⟩
  · refine fun _ _ _ _ => ⟨fun _ => ?_, fun _ _ => ht⟩
    rw [Bool.not_true, Bool.and_false]
    exact hsetUp _ t ht
  · exact fun _ _ => ht

theorem port_aofguardInit_fails (v : Port) (hs : (w.guards v.key).thread = .none) :
    Cmd.wp (Relation.ReflTransGen AnyTick) AnyReply (fun _ => True) (v.run (aofguardInit cfg.nvmSize true))
      (fun ok w' => w'.tables = w.tables ∧ (ok = false → (w'.guards v.key).thread = .none)) w := by
  refine Cmd.wp_zoom (R := Dormant) (I := fun _ => True) (F := fun w' : World => w'.tables = w.tables)
    (Q := fun ok t => ok = false → t.guard.thread = .none) ?_ ?_ ?_ ?_ rfl ?_
  · exact fun s w' _ => v.view_put s w'
  · exact fun s w' h => h
  · intro w₁ w₂ h ht
    obtain ⟨htables, hstill⟩ := anyTicks_still ht
    exact ⟨htables.trans h, hstill v.key⟩
  · exact fun _ _ _ => trivial
  · exact aofguardInit_fails hs

/-- An attempt to attach a guard keeps the names, and one that fails leaves no guard or one whose thread does not run. -/
structure Attempted (fd : Nat) (ok : Bool) (w w' : World) : Prop where
  capacity : w'.tables.capacity = w.tables.capacity
  names : ∀ k, (w'.tables.fdTable k).name = (w.tables.fdTable k).name
  still : ok = false → ∀ n, (w'.tables.fdTable fd).aofguard = some n → (w'.guards (some fd)).thread = .none

theorem attachGuard_attempted {ok : Bool} (h : AnyRun (attachGuard cfg new fd) w ok w') : Attempted fd ok w w' := by
  unfold attachGuard at h
  obtain ⟨e, w₁, hget, hrest⟩ := Cmd.run_bind_iff.mp h
  obtain ⟨rfl, rfl⟩ := Cmd.run_get_iff.mp hget
  obtain ⟨_, w₂, hcheck, hattach⟩ := Cmd.run_bind_iff.mp hrest
  obtain ⟨hnone, rfl⟩ := Cmd.run_check_iff.mp hcheck
  refine Cmd.wp_run (I := fun _ => True) (Q := fun ok w' => Attempted fd ok w₂ w') ?_ hattach
  simp only [Cmd.wp_bind, Cmd.wp_succeeds, Cmd.wp_ite, Cmd.wp_get, Cmd.wp_modify, Cmd.wp_pure]
  refine fun _ _ => ⟨fun _ => ?_, fun _ => ⟨rfl, fun _ => rfl, fun _ n hn => absurd (hnone.symm.trans hn) (by simp)⟩⟩
  -- the guard is in the table before it is set up
  refine Cmd.wp_conseq (port_aofguardInit_fails _ ?_) fun ok w₃ h₃ => ?_
  · show (Function.update w₂.guards (some fd) Aofguard.blank (some fd)).thread = .none
    rw [Function.update_self]
    rfl
  · obtain ⟨htables, hstill⟩ := h₃
    refine ⟨by rw [htables]; rfl, fun k => ?_, fun hok _ _ => hstill hok⟩
    rw [htables]
    show (Function.update w₂.tables.fdTable fd _ k).name = _
    rw [Function.update_apply]
    split_ifs with hk
    · rw [hk]
    · rfl

/-- The loop fails at a descriptor of the old name. -/
theorem forEntries_fails (h : AnyRun (forEntries old (attachGuard cfg new) fds) w false w') :
    w'.tables.capacity = w.tables.capacity ∧ ∃ fd ∈ fds, (w'.tables.fdTable fd).name = some old ∧
      ∀ n, (w'.tables.fdTable fd).aofguard = some n → (w'.guards (some fd)).thread = .none := by
  induction fds generalizing w with
  | nil =>
    obtain ⟨hf, -⟩ := Cmd.run_pure_iff.mp h
    cases hf
  | cons fd fds ih =>
    unfold forEntries at h
    obtain ⟨e, w₁, hget, hrest⟩ := Cmd.run_bind_iff.mp h
    obtain ⟨rfl, rfl⟩ := Cmd.run_get_iff.mp hget
    split_ifs at hrest with hname
    · obtain ⟨ok, w₂, hattach, hloop⟩ := Cmd.run_bind_iff.mp hrest
      have hattempt := attachGuard_attempted hattach
      cases ok with
      | true =>
        obtain ⟨hcap, k, hk, hleft⟩ := ih hloop
        exact ⟨hcap.trans hattempt.capacity, k, List.mem_cons_of_mem _ hk, hleft⟩
      | false =>
        obtain ⟨-, rfl⟩ := Cmd.run_pure_iff.mp hloop
        exact ⟨hattempt.capacity, fd, List.mem_cons_self, (hattempt.names fd).trans hname, hattempt.still rfl⟩
    · obtain ⟨hcap, k, hk, hleft⟩ := ih hrest
      exact ⟨hcap, k, List.mem_cons_of_mem _ hk, hleft⟩

theorem renameFiles_fails (h : AnyRun (renameFiles cfg old new) w .attach w') : ∃ fd, Unattached old w' fd := by
  unfold renameFiles at h
  obtain ⟨ok, w₁, -, hrest⟩ := Cmd.run_bind_iff.mp h
  split_ifs at hrest with hok hnew hold hold
  · obtain ⟨moved, w₂, -, hend⟩ := Cmd.run_bind_iff.mp hrest
    obtain ⟨hstage, -⟩ := Cmd.run_pure_iff.mp hend
    split_ifs at hstage
  · obtain ⟨capacity, w₂, hget, hloop⟩ := Cmd.run_bind_iff.mp hrest
    obtain ⟨rfl, rfl⟩ := Cmd.run_get_iff.mp hget
    obtain ⟨attached, w₃, hattach, hend⟩ := Cmd.run_bind_iff.mp hloop
    obtain ⟨hstage, rfl⟩ := Cmd.run_pure_iff.mp hend
    cases attached with
    | true => cases hstage
    | false =>
      obtain ⟨hcap, fd, hfd, hname, hleft⟩ := forEntries_fails hattach
      have hlt : fd < w'.tables.capacity := hcap.symm ▸ List.mem_range.mp hfd
      refine ⟨fd, ?_, fun n => ?_⟩
      · rw [Tables.entry, if_pos hlt]
        exact hname
      · rw [Tables.entry, if_pos hlt]
        exact hleft n
  · obtain ⟨removed, w₂, -, hend⟩ := Cmd.run_bind_iff.mp hrest
    obtain ⟨hstage, -⟩ := Cmd.run_pure_iff.mp hend
    split_ifs at hstage
  · cases (Cmd.run_pure_iff.mp hrest).1
  · cases (Cmd.run_pure_iff.mp hrest).1

/-- The call returns 0. -/
theorem AttachFails.result (h : AttachFails cfg old new w r w') : r = 0 := by
  obtain ⟨w₁, -, hfinish⟩ := h
  exact (Cmd.run_pure_iff.mp hfinish).1

theorem AttachFails.unattached (h : AttachFails cfg old new w r w') : ∃ fd, Unattached old w' fd := by
  obtain ⟨w₁, hfiles, hfinish⟩ := h
  obtain ⟨-, rfl⟩ := Cmd.run_pure_iff.mp hfinish
  exact renameFiles_fails hfiles

end

/-- **A guard that cannot be attached.** The call never reports it, and a descriptor keeps the old name and has no guard or
one that is not set up. -/
theorem attach_failure {cfg : Config} {old new : String} {w w' : World} {r : Int}
    (h : AttachFails cfg old new w r w') : ¬ Handled cfg r w' ∧ r = 0 ∧ ∃ fd, Unattached old w' fd := by
  have hresult := h.result
  refine ⟨fun hhandled => ?_, hresult, h.unattached⟩
  have hreported := hhandled.reported
  omega

/-- A new process that finds an NVM file of another size for `m.log`. -/
def resizedWorld : World :=
  { logWorld with nvms := fun n => if n = ("m.log.ag", 0) then some ⟨128, 0, 0, fun _ => 0⟩ else none }

theorem attachFails_resized : ∃ w w',
    Relation.ReflTransGen (CallStep logConfig fun c w => c.unused w = true) resizedWorld w ∧
      AttachFails logConfig "x" "m.log" w 0 w' ∧ (w'.tables.entry 3).aofguard ≠ none ∧
      (w'.guards (some 3)).thread = .none := by
  have hexec : ((runCalls logConfig (fun c w => c.unused w) [.openAt "x" "x" ⟨true, false, true, true⟩ 3] resizedWorld).any
      fun w => ((renameFiles logConfig "x" "m.log").exec w).any fun r => r.1 == .attach &&
        (r.2.tables.entry 3).aofguard.isSome && decide ((r.2.guards (some 3)).thread = .none)) = true := by decide +kernel
  obtain ⟨w, hw, hstage⟩ := (Option.any_eq_true _ _).mp hexec
  obtain ⟨⟨stage, w'⟩, hr, hstage⟩ := (Option.any_eq_true _ _).mp hstage
  obtain ⟨⟨rfl, hguard⟩, hthread⟩ : (stage = .attach ∧ (w'.tables.entry 3).aofguard.isSome) ∧
    (w'.guards (some 3)).thread = .none := by simpa using hstage
  have hrun : AnyRun (renameFiles logConfig "x" "m.log") w .attach w' :=
    Cmd.exec_run (fun _ => .refl) (fun _ => trivial) hr
  exact ⟨w, w', runCalls_steps hw, ⟨w', hrun, Cmd.run_pure_iff.mpr ⟨rfl, rfl⟩⟩, Option.isSome_iff_ne_none.mp hguard, hthread⟩

theorem attach_failure_resized : ∃ w w', AttachFails logConfig "x" "m.log" w 0 w' ∧ ¬ Handled logConfig 0 w' ∧
    ∃ fd, Unattached "x" w' fd := by
  obtain ⟨w, w', -, h, -⟩ := attachFails_resized
  obtain ⟨hnot, -, hleft⟩ := attach_failure h
  exact ⟨w, w', h, hnot, hleft⟩

/-- A plain file is renamed to the log whose NVM file has another size: the call returns 0, and the table has a guard
that is not set up. -/
theorem attach_failure_unreported : ¬ ∀ cfg old new w₀ w w' r, Started w₀ →
    Relation.ReflTransGen (CallStep cfg fun c w => c.unused w = true) w₀ w → AttachFails cfg old new w r w' →
      Handled cfg r w' := by
  intro hall
  obtain ⟨w, w', hreach, h, hguard, hthread⟩ := attachFails_resized
  obtain ⟨n, hn⟩ := Option.ne_none_iff_exists'.mp hguard
  have hhandled := hall logConfig "x" "m.log" resizedWorld w w' 0 started_logWorld hreach h
  exact hhandled.running 3 n hn hthread

end PmemProgram.Wal
