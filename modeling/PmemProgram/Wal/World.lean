import PmemProgram.Wal.Inject
import PmemProgram.Wal.Recovery

/-!
# Rules for the intercepted calls

* `Drift s t` : what the threads of all guards can do to one port (`WTicks.drift`); with no thread of its own a port
  is `Silent`;
* `wwp` : weakest preconditions beside the threads, with system calls that succeed, and one rule for each step of
  `inject.c`;
* `World.registered`, `World.dropped`, `Tables.renamed` : what `handle_open`, `aofguard_deinit` and the last loop of
  `rename` leave;
* `aofguardInit_idle`, `aofguardInit_reset` : `aofguard_init` beside any other guards;
* `CallStep` : a step of a run of calls.
-/

namespace PmemProgram.Wal
open PmemProgram.Lib

/-! ## The threads of all guards -/

/-- `g` is the file `f` with more of it on the disk. -/
structure File.Flushed (f g : File) : Prop where
  data : g.data = f.data
  synced : f.synced ≤ g.synced
  limit : g.limit ≤ f.limit
  changes : g.changes = f.changes

theorem File.Flushed.refl (f : File) : f.Flushed f := ⟨rfl, le_rfl, le_rfl, rfl⟩

theorem File.Flushed.trans {f g h : File} (hf : f.Flushed g) (hg : g.Flushed h) : f.Flushed h :=
  ⟨hg.data.trans hf.data, hf.synced.trans hg.synced, hg.limit.trans hf.limit, hg.changes.trans hf.changes⟩

/-- All files but those in `S` are as before, up to what is on the disk. -/
def Spares (S : Nat → Prop) (w w' : World) : Prop := ∀ i, ¬ S i → (w.files i).Flushed (w'.files i)

theorem Spares.refl (S : Nat → Prop) (w : World) : Spares S w w := fun _ _ => .refl _

theorem Spares.trans {S : Nat → Prop} {w₁ w₂ w₃ : World} (h : Spares S w₁ w₂) (h' : Spares S w₂ w₃) : Spares S w₁ w₃ :=
  fun i hi => (h i hi).trans (h' i hi)

/-- The file may be written back, and a guard with a thread may step. -/
structure Drift (s t : Sys) : Prop where
  nvm : t.nvm = s.nvm
  desc : t.desc = s.desc
  data : t.file.data = s.file.data
  synced : s.file.synced ≤ t.file.synced
  limit : t.file.limit ≤ s.file.limit
  changes : t.file.changes = s.file.changes
  len : t.guard.len = s.guard.len
  exited : t.guard.thread = .exited → s.guard.thread = .exited
  still : s.guard.thread = .none → t.guard = s.guard

theorem Drift.refl (s : Sys) : Drift s s := ⟨rfl, rfl, rfl, le_rfl, le_rfl, rfl, rfl, id, fun _ => rfl⟩

theorem Drift.trans {s t u : Sys} (h : Drift s t) (h' : Drift t u) : Drift s u where
  nvm := h'.nvm.trans h.nvm
  desc := h'.desc.trans h.desc
  data := h'.data.trans h.data
  synced := h.synced.trans h'.synced
  limit := h'.limit.trans h.limit
  changes := h'.changes.trans h.changes
  len := h'.len.trans h.len
  exited := fun he => h.exited (h'.exited he)
  still := by
    intro hs
    have ht := h.still hs
    rw [h'.still (by rw [ht, hs]), ht]

theorem silent_drift : Silent Drift := by
  intro s t hs h
  have hguard := h.still hs
  obtain ⟨file, desc, nvm, guard⟩ := t
  obtain rfl : nvm = s.nvm := h.nvm
  obtain rfl : desc = s.desc := h.desc
  obtain rfl : guard = s.guard := hguard
  exact ⟨file, rfl, h.data, h.synced⟩

section
variable {w w' : World} {s t : Sys}

@[simp] theorem Port.view_put (v : Port) (s : Sys) (w : World) : v.view (v.put s w) = s := by
  simp [Port.view, Port.put]

/-- Only the guard changes. -/
theorem Port.put_guard (v : Port) (w : World) (g : Aofguard) :
    v.put { v.view w with guard := g } w = { w with guards := Function.update w.guards v.key g } := by
  simp [Port.view, Port.put]

theorem Port.put_view (v : Port) (w : World) : v.put (v.view w) w = w := by
  simp [Port.view, Port.put]

@[simp] theorem Port.put_tables (v : Port) (s : Sys) (w : World) : (v.put s w).tables = w.tables := rfl

theorem File.limit_sync_le (f : File) (n c : Nat) : (f.sync n c).limit ≤ f.limit := by
  unfold File.sync
  dsimp only
  split_ifs
  · exact f.le_limit
  · exact le_rfl

theorem Tick.limit (h : Tick (fun _ k => k = 0) s t) : t.file.limit ≤ s.file.limit := by
  cases h with
  | wait => exact le_rfl
  | sync =>
    split_ifs
    exact s.file.limit_sync_le _ _
  | post => exact le_rfl

theorem Tick.changes (h : Tick (fun _ k => k = 0) s t) : t.file.changes = s.file.changes := by
  cases h with
  | wait => rfl
  | sync => split_ifs; rfl
  | post => rfl

theorem Tick.drift (h : Tick (fun _ k => k = 0) s t) : Drift s t := by
  obtain ⟨hdata, hnvm, hdesc, hlen⟩ := tick_keeps h
  refine ⟨hnvm, hdesc, hdata, ticks_synced (.single h), h.limit, h.changes, hlen, fun he => ?_, fun hn => ?_⟩
  · obtain ⟨q, k, hk, hne⟩ := h.counts.2.2 he
    exact absurd hk hne
  · rw [ticks_none (.single h) hn]

/-- A step of one port drifts every port. -/
theorem Drift.put {p : Port} (h : Drift (p.view w) s) (v : Port) : Drift (v.view w) (v.view (p.put s w)) := by
  obtain ⟨hnvm, hdesc, hdata, hsynced, hlimit, hchanges, hlen, hexited, hstill⟩ := h
  simp only [Port.view] at hnvm hdesc hdata hsynced hlimit hchanges hlen hexited hstill
  constructor
  · simp only [Port.view, Port.put, Function.update_apply]
    split_ifs with hv
    · rw [hv, hnvm]
    · rfl
  · simp only [Port.view, Port.put, Function.update_apply]
    split_ifs with hv
    · rw [hv, hdesc]
    · rfl
  · simp only [Port.view, Port.put, Function.update_apply]
    split_ifs with hv
    · rw [hv, hdata]
    · rfl
  · simp only [Port.view, Port.put, Function.update_apply]
    split_ifs with hv
    · rw [hv]
      exact hsynced
    · exact le_rfl
  · simp only [Port.view, Port.put, Function.update_apply]
    split_ifs with hv
    · rw [hv]
      exact hlimit
    · exact le_rfl
  · simp only [Port.view, Port.put, Function.update_apply]
    split_ifs with hv
    · rw [hv, hchanges]
    · rfl
  · simp only [Port.view, Port.put, Function.update_apply]
    split_ifs with hv
    · rw [hv, hlen]
    · rfl
  · simp only [Port.view, Port.put, Function.update_apply]
    split_ifs with hv
    · rw [hv]
      exact hexited
    · exact id
  · simp only [Port.view, Port.put, Function.update_apply]
    split_ifs with hv
    · rw [hv]
      exact hstill
    · exact fun _ => rfl

theorem WTick.drift (h : WTick w w') (v : Port) : Drift (v.view w) (v.view w') := by
  obtain ⟨-, ht⟩ := h
  exact ht.drift.put v

theorem WTicks.drift (h : WTicks w w') (v : Port) : Drift (v.view w) (v.view w') := by
  induction h with
  | refl => exact .refl _
  | tail _ hstep ih => exact ih.trans (hstep.drift v)

theorem WTicks.tables (h : WTicks w w') : w'.tables = w.tables := by
  induction h with
  | refl => rfl
  | tail _ hstep ih =>
    rw [← ih]
    cases hstep
    rfl

theorem WTicks.nvms (h : WTicks w w') (n : NvmIno) : w'.nvms n = w.nvms n := (h.drift ⟨0, n, 0, none⟩).nvm

theorem WTicks.data (h : WTicks w w') (i : Nat) : (w'.files i).data = (w.files i).data :=
  (h.drift ⟨i, ("", 0), 0, none⟩).data

theorem WTicks.synced (h : WTicks w w') (i : Nat) : (w.files i).synced ≤ (w'.files i).synced :=
  (h.drift ⟨i, ("", 0), 0, none⟩).synced

theorem WTicks.limit (h : WTicks w w') (i : Nat) : (w'.files i).limit ≤ (w.files i).limit :=
  (h.drift ⟨i, ("", 0), 0, none⟩).limit

theorem WTicks.changes (h : WTicks w w') (i : Nat) : (w'.files i).changes = (w.files i).changes :=
  (h.drift ⟨i, ("", 0), 0, none⟩).changes

/-- The threads write files back. -/
theorem WTicks.flushed (h : WTicks w w') (i : Nat) : (w.files i).Flushed (w'.files i) :=
  ⟨h.data i, h.synced i, h.limit i, h.changes i⟩

theorem WTicks.descs (h : WTicks w w') (fd : Nat) : w'.descs fd = w.descs fd := (h.drift ⟨0, ("", 0), fd, none⟩).desc

theorem WTicks.len (h : WTicks w w') (key : Option Nat) : (w'.guards key).len = (w.guards key).len :=
  (h.drift ⟨0, ("", 0), 0, key⟩).len

/-- The NVM files, descriptors and rings are as before, and so are the files up to what is on the disk. -/
structure WrittenBack (w w' : World) : Prop where
  nvms : w'.nvms = w.nvms
  descs : w'.descs = w.descs
  files : ∀ i, (w.files i).Flushed (w'.files i)
  len : ∀ key, (w'.guards key).len = (w.guards key).len

theorem WrittenBack.refl (w : World) : WrittenBack w w := ⟨rfl, rfl, fun _ => .refl _, fun _ => rfl⟩

theorem WrittenBack.trans {w₁ w₂ w₃ : World} (h : WrittenBack w₁ w₂) (h' : WrittenBack w₂ w₃) : WrittenBack w₁ w₃ :=
  ⟨h'.nvms.trans h.nvms, h'.descs.trans h.descs, fun i => (h.files i).trans (h'.files i),
    fun key => (h'.len key).trans (h.len key)⟩

theorem WrittenBack.ticks (h : WTicks w w') : WrittenBack w w' := ⟨funext h.nvms, funext h.descs, h.flushed, h.len⟩

theorem WrittenBack.setTables (h : WrittenBack w w') (T : Tables) : WrittenBack w { w' with tables := T } :=
  ⟨h.nvms, h.descs, h.files, h.len⟩

/-- No ring is exactly full. -/
def RoomLeft (cfg : Config) (w : World) : Prop :=
  ∀ k, (w.tables.fdTable k).aofguard.isSome → (w.guards (some k)).len ≠ capOf cfg.nvmSize

/-- Guards that stay keep their room. -/
theorem WrittenBack.roomLeft {cfg : Config} (h : WrittenBack w w')
    (hsub : ∀ k, (w'.tables.fdTable k).aofguard.isSome → (w.tables.fdTable k).aofguard.isSome) (hroom : RoomLeft cfg w) :
    RoomLeft cfg w' := by
  intro k hk
  rw [h.len]
  exact hroom k (hsub k hk)

theorem WTicks.not_exited (h : WTicks w w') {key : Option Nat} (he : (w.guards key).thread ≠ .exited) :
    (w'.guards key).thread ≠ .exited :=
  fun he' => he ((h.drift ⟨0, ("", 0), 0, key⟩).exited he')

end

/-! ## Weakest preconditions -/

/-- Weakest precondition beside the threads of all guards, when every system call succeeds. -/
abbrev wwp {α : Type} (I : World → Prop) (c : Cmd Syscall World α) (Q : α → World → Prop) (w : World) : Prop :=
  Cmd.wp WTicks (fun _ k => k = 0) I c Q w

/-- The calls on a port, with a frame `F` that is kept off the port. -/
theorem wp_port {α : Type} {v : Port} {R : Sys → Sys → Prop} {I : Sys → Prop} {J F : World → Prop}
    {c : Cmd Syscall Sys α} {Q : α → Sys → Prop} {w : World} (hput : ∀ s w, F w → F (v.put s w))
    (hR : ∀ w w', F w → WTicks w w' → F w' ∧ R (v.view w) (v.view w')) (hJ : ∀ w, F w → I (v.view w) → J w) (hF : F w)
    (h : Cmd.wp R (fun _ k => k = 0) I c Q (v.view w)) :
    wwp J (v.run c) (fun a w' => F w' ∧ Q a (v.view w')) w :=
  Cmd.wp_zoom (fun s w _ => v.view_put s w) hput hR hJ hF h

/-- The entries named `old` have the name `new`. -/
def Tables.renamed (T : Tables) (old new : String) : Tables :=
  { T with
    fdTable := fun k =>
      if k < T.capacity ∧ (T.fdTable k).name = some old then { T.fdTable k with name := some new } else T.fdTable k }

/-- The file `file` is in the table as `fd`, with the guard that was set up for it. -/
def World.registered (w : World) (fd : Nat) (file : String) (guard : Option NvmIno) : World :=
  { w with
    tables := (w.tables.grow fd).setEntry fd ⟨some file, guard⟩
    guards := if guard.isSome then Function.update w.guards (some fd) (w.guards none) else w.guards }

/-- The guard of `fd` is gone. -/
def World.dropped (w : World) (fd : Nat) : World :=
  { w with
    tables := w.tables.setEntry fd { w.tables.fdTable fd with aofguard := none }
    guards := Function.update w.guards (some fd) { w.guards (some fd) with thread := .none } }

theorem WrittenBack.dropped (w : World) (fd : Nat) : WrittenBack w (w.dropped fd) := by
  refine ⟨rfl, rfl, fun _ => .refl _, fun key => ?_⟩
  simp only [World.dropped, Function.update_apply]
  split_ifs with hkey
  · rw [hkey]
  · rfl

section
variable {I : World → Prop} {w : World}

@[simp] theorem wwp_succeeds {q : Syscall} {Q : Bool → World → Prop} : wwp I (Cmd.succeeds q) Q w ↔ Q true w := by
  simp [wwp]

@[simp] theorem wwp_setTables {f : Tables → Tables} {Q : Unit → World → Prop} :
    wwp I (setTables f) Q w ↔ Q () { w with tables := f w.tables } := Iff.rfl

theorem wwp_stepTables {f : Tables → Tables} {Q : Unit → World → Prop}
    (h : ∀ w₁, WTicks w w₁ → I w₁ ∧ Q () { w₁ with tables := f w₁.tables }) : wwp I (stepTables f) Q w :=
  Cmd.wp_step h

@[simp] theorem wwp_nvmExists {q : String} {Q : Bool → World → Prop} :
    wwp I (nvmExists q) Q w ↔ Q (w.nvms (w.tables.nvmDir q)).isSome w := by
  simp [wwp, nvmExists]

theorem wwp_unlinkatNvm {q : String} {Q : Bool → World → Prop}
    (h : ∀ w₁, WTicks w w₁ → I w₁ ∧ Q true { w₁ with tables := w₁.tables.dropNvm q }) : wwp I (unlinkatNvm q) Q w := by
  unfold unlinkatNvm
  simp only [wwp, Cmd.wp_bind, wwp_succeeds, if_true, Cmd.wp_pure]
  exact wwp_stepTables h

theorem wwp_renameatNvm {q r : String} {Q : Bool → World → Prop}
    (h : ∀ w₁, WTicks w w₁ → I w₁ ∧ Q true { w₁ with tables := w₁.tables.moveNvm q r }) :
    wwp I (renameatNvm q r) Q w := by
  unfold renameatNvm
  simp only [wwp, Cmd.wp_bind, wwp_succeeds, if_true, Cmd.wp_pure]
  exact wwp_stepTables h

theorem wwp_syscallOpen {place : String} {flags : Flags} {fd : Nat} {Q : Bool → World → Prop}
    (h : ∀ w₁, WTicks w w₁ → I w₁ ∧ (∀ i, w₁.tables.dir place = some i → Q true (w₁.opened flags fd i)) ∧
      (w₁.tables.dir place = none → flags.creat = true → Q true ((w₁.created place).opened flags fd w₁.tables.inos)) ∧
      (w₁.tables.dir place = none → flags.creat = false → Q false w₁)) :
    wwp I (syscallOpen place flags fd) Q w := by
  unfold syscallOpen
  simp only [wwp, Cmd.wp_bind, wwp_succeeds, if_true]
  apply Cmd.wp_stepGet
  intro w₁ hw
  obtain ⟨hI, hfound, hnew, hmissing⟩ := h w₁ hw
  refine ⟨hI, ?_⟩
  cases hdir : w₁.tables.dir place with
  | some i => exact hfound i hdir
  | none =>
    dsimp only
    split_ifs with hc
    · exact hnew hdir hc
    · exact hmissing hdir (by simpa using hc)

theorem wwp_syscallClose {fd : Nat} {Q : Int → World → Prop} (h₀ : w.tables.fds fd = none → Q (-1) w)
    (h : ∀ w₁ i, w.tables.fds fd = some i → WTicks w w₁ → I w₁ ∧
      Q 0 { w₁ with tables := { w₁.tables with fds := Function.update w₁.tables.fds fd none } }) :
    wwp I (syscallClose fd) Q w := by
  unfold syscallClose
  simp only [wwp, Cmd.wp_bind, wwp_succeeds, Cmd.wp_get, Cmd.wp_ite, Cmd.wp_pure, Bool.true_and]
  constructor
  · intro hi
    obtain ⟨i, hi⟩ := Option.isSome_iff_exists.mp hi
    exact wwp_stepTables fun w₁ hw => h w₁ i hi hw
  · intro hi
    exact h₀ (by simpa using hi)

theorem wwp_syscallUnlink {path : String} {Q : Bool → World → Prop}
    (h : ∀ w₁, WTicks w w₁ → I w₁ ∧ Q (w₁.tables.dir path).isSome
      { w₁ with tables := { w₁.tables with dir := Function.update w₁.tables.dir path none } }) :
    wwp I (syscallUnlink path) Q w := by
  unfold syscallUnlink
  simp only [wwp, Cmd.wp_bind, wwp_succeeds, if_true]
  exact Cmd.wp_stepGet h

theorem wwp_syscallRename {old new : String} {Q : Bool → World → Prop}
    (h : ∀ w₁, WTicks w w₁ → I w₁ ∧ Q (w₁.tables.dir old).isSome { w₁ with tables := w₁.tables.moveFile old new }) :
    wwp I (syscallRename old new) Q w := by
  unfold syscallRename
  simp only [wwp, Cmd.wp_bind, wwp_succeeds, if_true]
  exact Cmd.wp_stepGet h

theorem Tables.moveFile_rest (T : Tables) (old new : String) : (T.moveFile old new).fdTable = T.fdTable ∧
    (T.moveFile old new).capacity = T.capacity ∧ (T.moveFile old new).fds = T.fds ∧
    (T.moveFile old new).nvmDir = T.nvmDir := by
  unfold Tables.moveFile
  split_ifs
  · exact ⟨rfl, rfl, rfl, rfl⟩
  · exact ⟨rfl, rfl, rfl, rfl⟩

/-- A rename leaves no guard without its NVM file under a name that does not match. -/
def KeepsNvm (cfg : Config) (old new : String) (w : World) : Prop :=
  w.tables.dir old ≠ none → cfg.needNvm old = true → cfg.needNvm new = false →
    (∃ k, (w.tables.fdTable k).name = some old) → (w.nvms (w.tables.nvmDir (cfg.nvmFileName old))).isSome

/-! ## Growing the table -/

theorem newCapacity_of_lt {fd capacity : Nat} (h : fd < capacity) (fuel : Nat) :
    newCapacity fd fuel capacity = capacity := by
  cases fuel with
  | zero => rfl
  | succ fuel => rw [newCapacity, if_neg (Nat.not_le.mpr h)]

theorem le_newCapacity (fd fuel capacity : Nat) : capacity ≤ newCapacity fd fuel capacity := by
  induction fuel generalizing capacity with
  | zero => exact le_rfl
  | succ fuel ih =>
    rw [newCapacity]
    split_ifs
    · exact le_trans (by omega) (ih (capacity * 2))
    · exact le_rfl

/-- Doubling goes far enough. -/
theorem lt_newCapacity {fd fuel capacity : Nat} (hpos : 0 < capacity) (h : fd < capacity + fuel) :
    fd < newCapacity fd fuel capacity := by
  induction fuel generalizing capacity with
  | zero => exact h
  | succ fuel ih =>
    rw [newCapacity]
    split_ifs with hle
    · exact ih (by omega) (by omega)
    · omega

theorem Tables.grow_of_lt {T : Tables} {fd : Nat} (h : fd < T.capacity) : T.grow fd = T := by
  have hcap := newCapacity_of_lt h (fd + 1)
  cases T
  simp only [Tables.grow] at hcap ⊢
  rw [hcap]
  congr 1
  ext1 k
  rw [if_neg (by omega)]

theorem wwp_growTable {fd : Nat} {Q : Bool → World → Prop} :
    wwp I (growTable fd) Q w ↔ Q true { w with tables := w.tables.grow fd } := by
  unfold growTable
  simp only [wwp, Cmd.wp_bind, Cmd.wp_get, Cmd.wp_ite, Cmd.wp_pure, wwp_succeeds, wwp_setTables, true_implies,
    not_true_eq_false, false_implies, and_true]
  constructor
  · rintro ⟨hle, hlt⟩
    by_cases h : w.tables.capacity ≤ fd
    · exact hle h
    · rw [Tables.grow_of_lt (Nat.lt_of_not_le h)]
      exact hlt h
  · intro h
    refine ⟨fun _ => h, fun hlt => ?_⟩
    rwa [Tables.grow_of_lt (Nat.lt_of_not_le hlt)] at h

/-! ## The table -/

theorem wwp_setName {fd : Nat} {name : String} {Q : Bool → World → Prop} :
    wwp I (setName fd name) Q w ↔
      Q true { w with tables := w.tables.setEntry fd { w.tables.fdTable fd with name := some name } } := by
  unfold setName
  simp only [wwp, Cmd.wp_bind, wwp_succeeds, wwp_setTables, Cmd.wp_pure, if_true]

/-- The thread is cancelled after any steps of all threads. -/
theorem wwp_aofguardDeinit {v : Port} {Q : Bool → World → Prop} (hrun : (w.guards v.key).thread ≠ .exited)
    (h : ∀ w₁, WTicks w w₁ → I w₁ ∧ Q true
      { w₁ with guards := Function.update w₁.guards v.key { w₁.guards v.key with thread := .none } }) :
    wwp I (v.run aofguardDeinit) Q w := by
  intro a ha b hb
  subst ha hb
  intro w₁ hw
  obtain ⟨hI, hQ⟩ := h w₁ hw
  refine ⟨hI, fun m => ?_, fun w₂ hw₂ => ?_⟩
  · change I (v.put (v.view w₁) w₁)
    rwa [Port.put_view]
  · obtain rfl := Option.some.inj hw₂
    have hne : (w₁.guards v.key).thread ≠ .exited := hw.not_exited hrun
    have hcheck : (Cmd.check ((v.view w₁).guard.thread ≠ .exited) : Cmd Syscall Sys Unit) = .ret () := if_pos hne
    change wwp I (Cmd.zoom v.view v.put ((Cmd.check ((v.view w₁).guard.thread ≠ .exited)).bind fun _ =>
      Cmd.succeeds .other)) Q (v.put { v.view w₁ with guard := { (v.view w₁).guard with thread := .none } } w₁)
    rw [hcheck, Port.put_guard]
    intro c hc
    subst hc
    exact hQ

theorem wwp_syscallWrite {v : Port} {d : List Byte} {Q : Nat → World → Prop}
    (hbad : (w.descs v.fd).writable = false ∨ 2 ^ 63 ≤ d.length → Q (2 ^ 64 - 1) w)
    (h : ∀ w₁, (w.descs v.fd).writable = true → d.length < 2 ^ 63 → WTicks w w₁ →
      I w₁ ∧ Q d.length (v.put ((v.view w₁).write d) w₁)) :
    wwp I (v.run (syscallWrite d)) Q w := by
  intro a ha
  subst ha
  simp only [Cmd.zoom_bind, Cmd.zoom_ite, Cmd.wp_bind, Cmd.wp_ite]
  change ((w.descs v.fd).writable = false ∨ 2 ^ 63 ≤ d.length ∨ 0 = 1 → Q (2 ^ 64 - 1) (v.put (v.view w) w)) ∧
    (¬ ((w.descs v.fd).writable = false ∨ 2 ^ 63 ≤ d.length ∨ 0 = 1) → wwp I (Cmd.zoom v.view v.put
      (Cmd.stepGet fun s => (d.length, s.write (d.take d.length)))) Q (v.put (v.view w) w))
  rw [Port.put_view, List.take_length]
  constructor
  · intro hno
    exact hbad (by simpa using hno)
  · intro hno w₁ hw
    rw [not_or, not_or] at hno
    obtain ⟨hI, hQ⟩ := h w₁ (by simpa using hno.1) (by omega) hw
    refine ⟨hI, fun m => ?_, fun w₂ hw₂ => ?_⟩
    · change I (v.put (v.view w₁) w₁)
      rwa [Port.put_view]
    · obtain rfl := Option.some.inj hw₂
      exact hQ

theorem wwp_dropGuard {fd : Nat} {Q : Bool → World → Prop}
    (hrun : (w.tables.fdTable fd).aofguard.isSome → (w.guards (some fd)).thread ≠ .exited)
    (h₀ : (w.tables.fdTable fd).aofguard = none → Q true w)
    (h : ∀ n w₁, (w.tables.fdTable fd).aofguard = some n → WTicks w w₁ → I w₁ ∧ Q true (w₁.dropped fd)) :
    wwp I (dropGuard fd) Q w := by
  unfold dropGuard
  simp only [wwp, Cmd.wp_bind, Cmd.wp_get]
  cases hg : (w.tables.fdTable fd).aofguard with
  | none => exact h₀ hg
  | some n =>
    simp only [Cmd.wp_bind, Cmd.wp_get]
    refine wwp_aofguardDeinit (hrun (by rw [hg]; rfl)) fun w₁ hw => ⟨(h n w₁ hg hw).1, ?_⟩
    exact (h n w₁ hg hw).2

/-- The rest of `handle_open` once the guard is set up. -/
theorem wwp_handleOpen {cfg : Config} {file : String} {fd : Nat} {Q : Bool → World → Prop}
    (h : wwp I (newGuard cfg file fd) (fun r w' => match r with
      | some guard => 0 < w'.tables.capacity ∧ (w'.tables.grow fd).fdTable fd = .blank ∧
          Q true (w'.registered fd file guard)
      | none => Q false w') w) :
    wwp I (handleOpen cfg file fd) Q w := by
  unfold handleOpen
  simp only [wwp, Cmd.wp_bind, wwp_succeeds, if_true]
  refine Cmd.wp_conseq h ?_
  rintro (_ | guard) w' hw
  · exact hw
  · obtain ⟨hpos, hblank, hQ⟩ := hw
    simp only [Cmd.wp_bind]
    refine wwp_growTable.mpr ?_
    simp only [if_true, Cmd.wp_bind, Cmd.wp_get, Cmd.wp_check]
    refine ⟨lt_newCapacity hpos (by omega), wwp_setName.mpr ?_⟩
    simp only [if_true, Cmd.wp_bind]
    refine wwp_dropGuard ?_ ?_ ?_
    · simp [Tables.setEntry, hblank, Filedes.blank]
    · intro _
      simp only [if_true, Cmd.wp_bind, storeGuard, Cmd.wp_modify, Cmd.wp_pure]
      simpa [Tables.setEntry, World.registered, Function.update_idem] using hQ
    · intro n w₁ hn
      simp [Tables.setEntry, hblank, Filedes.blank] at hn

/-- A loop over entries: `P` of the descriptors to come, of which those named `name` are passed to the body. -/
theorem wwp_forEntries {name : String} {body : Nat → Cmd Syscall World Bool} {P : List Nat → World → Prop}
    (hbody : ∀ fd fds w, P (fd :: fds) w → (w.tables.fdTable fd).name = some name →
      wwp I (body fd) (fun ok w' => ok = true ∧ P fds w') w)
    (hskip : ∀ fd fds w, P (fd :: fds) w → (w.tables.fdTable fd).name ≠ some name → P fds w) {fds : List Nat}
    (h : P fds w) : wwp I (forEntries name body fds) (fun ok w' => ok = true ∧ P [] w') w := by
  induction fds generalizing w with
  | nil => exact ⟨rfl, h⟩
  | cons fd fds ih =>
    simp only [wwp, forEntries, Cmd.wp_bind, Cmd.wp_get, Cmd.wp_ite]
    constructor
    · intro hname
      refine Cmd.wp_conseq (hbody fd fds w h hname) ?_
      rintro ok w' ⟨rfl, h'⟩
      exact ⟨fun _ => ih h', by simp⟩
    · intro hname
      exact ih (hskip fd fds w h hname)

end

/-- The entries named `old` that the loop over `fds` has passed have the name `new`. -/
def Tables.renamedBut (T : Tables) (old new : String) (fds : List Nat) : Tables :=
  { T with
    fdTable := fun k =>
      if (k < T.capacity ∧ k ∉ fds) ∧ (T.fdTable k).name = some old then { T.fdTable k with name := some new }
      else T.fdTable k }

section
variable {T : Tables} {old new : String} {fd : Nat} {fds : List Nat}

theorem Tables.renamedBut_range (T : Tables) (old new : String) :
    T.renamedBut old new (List.range T.capacity) = T := by
  ext1 <;> try rfl
  funext k
  simp only [Tables.renamedBut]
  rw [if_neg]
  simp

theorem Tables.renamedBut_nil (T : Tables) (old new : String) : T.renamedBut old new [] = T.renamed old new := by
  simp [Tables.renamedBut, Tables.renamed]

theorem Tables.renamedBut_head : (T.renamedBut old new (fd :: fds)).fdTable fd = T.fdTable fd := by
  simp [Tables.renamedBut]

theorem Tables.renamedBut_pass (h : fd ∉ fds) (hlt : fd < T.capacity) (hname : (T.fdTable fd).name = some old) :
    (T.renamedBut old new (fd :: fds)).setEntry fd { T.fdTable fd with name := some new } = T.renamedBut old new fds := by
  ext1 <;> try rfl
  funext k
  simp only [Tables.setEntry, Tables.renamedBut, Function.update_apply, List.mem_cons]
  grind

theorem Tables.renamedBut_skip (hname : (T.fdTable fd).name ≠ some old) :
    T.renamedBut old new (fd :: fds) = T.renamedBut old new fds := by
  ext1 <;> try rfl
  funext k
  simp only [Tables.renamedBut, List.mem_cons]
  grind

theorem wwp_renameEntries {I : World → Prop} {w : World} {Q : Int → World → Prop}
    (h : Q 0 { w with tables := w.tables.renamed old new }) : wwp I (renameEntries old new) Q w := by
  have hloop : wwp I (forEntries old (setName · new) (List.range w.tables.capacity))
      (fun ok w' => ok = true ∧ ([] : List Nat).Nodup ∧ (∀ k ∈ ([] : List Nat), k < w.tables.capacity) ∧
        w' = { w with tables := w.tables.renamedBut old new [] }) w := by
    refine wwp_forEntries (P := fun fds w' => fds.Nodup ∧ (∀ k ∈ fds, k < w.tables.capacity) ∧
      w' = { w with tables := w.tables.renamedBut old new fds }) ?_ ?_ ⟨List.nodup_range, by simp, ?_⟩
    · rintro fd fds _ ⟨hnodup, hlt, rfl⟩ hname
      obtain ⟨hfd, hnodup⟩ := List.nodup_cons.mp hnodup
      simp only [Tables.renamedBut_head] at hname
      refine wwp_setName.mpr ⟨rfl, hnodup, fun k hk => hlt k (List.mem_cons_of_mem _ hk), ?_⟩
      simp only [Tables.renamedBut_head, Tables.renamedBut_pass hfd (hlt fd List.mem_cons_self) hname]
    · rintro fd fds _ ⟨hnodup, hlt, rfl⟩ hname
      obtain ⟨hfd, hnodup⟩ := List.nodup_cons.mp hnodup
      simp only [Tables.renamedBut_head] at hname
      refine ⟨hnodup, fun k hk => hlt k (List.mem_cons_of_mem _ hk), ?_⟩
      rw [Tables.renamedBut_skip hname]
    · rw [Tables.renamedBut_range]
  unfold renameEntries
  simp only [wwp, Cmd.wp_bind, Cmd.wp_get, Cmd.wp_pure]
  refine Cmd.wp_conseq hloop ?_
  rintro ok _ ⟨rfl, -, -, rfl⟩
  rwa [Tables.renamedBut_nil]

end

/-! ## Guards beside other guards -/

theorem safe_syscallWrite (d : List Byte) : (syscallWrite d).Safe := by
  intro n
  refine Cmd.safe_bind (fun _ => trivial) fun writable => Cmd.safe_ite trivial fun _ => trivial

theorem safe_recover (size : Nat) : (recover size).Safe := by
  have htail : rewriteTail.Safe := by
    refine Cmd.safe_bind (fun _ => trivial) fun g => Cmd.safe_bind (fun _ => trivial) fun nvm => ?_
    apply Cmd.safe_ite
    · exact Cmd.safe_bind (safe_syscallWrite _) fun _ => trivial
    · refine Cmd.safe_bind (safe_syscallWrite _) fun k => Cmd.safe_ite ?_ trivial
      exact Cmd.safe_bind (safe_syscallWrite _) fun _ => trivial
  have hcut : ∀ n, (syscallFtruncate n).Safe := by
    intro n
    refine Cmd.safe_bind (fun _ => trivial) fun ok => Cmd.safe_bind (fun _ => trivial) fun writable => ?_
    exact Cmd.safe_ite (fun _ => trivial) trivial
  refine Cmd.safe_bind (fun _ => trivial) fun capacity => Cmd.safe_bind (fun _ => trivial) fun nvm => ?_
  refine Cmd.safe_bind (fun _ => trivial) fun _ => Cmd.safe_ite trivial (Cmd.safe_ite trivial ?_)
  refine Cmd.safe_bind (fun _ => trivial) fun _ => Cmd.safe_ite trivial ?_
  refine Cmd.safe_bind (Cmd.safe_ite (hcut _) trivial) fun ok => Cmd.safe_ite htail trivial

theorem safe_openNvm (n : Nat) : (openNvm n).Safe := by
  refine Cmd.safe_bind (fun _ => trivial) fun nvm => ?_
  cases nvm with
  | some x => exact fun _ _ => trivial
  | none =>
    refine Cmd.safe_bind (fun _ => trivial) fun opened => Cmd.safe_ite ?_ trivial
    refine Cmd.safe_bind (fun _ => trivial) fun _ => Cmd.safe_bind (fun _ => trivial) fun ok => ?_
    exact Cmd.safe_ite (fun _ => trivial) trivial

section
variable {R : Sys → Sys → Prop} {nvmSize : Nat} {reset : Bool} {s : Sys}

/-- `startThread` is the last step of `aofguard_init`. -/
theorem startThread_idle : Cmd.wp R (fun _ k => k = 0) (fun _ => True) startThread
    (fun ok t => ok = true ∧ t.guard.thread = .idle ∧ t.nvm = s.nvm) s := by
  simp [startThread, setGuard]

theorem aofguardInit_idle : Cmd.wp R (fun _ k => k = 0) (fun _ => True) (aofguardInit nvmSize reset)
    (fun ok t => ok = true → t.guard.thread = .idle) s := by
  have hsetUp : ∀ capacity trust t, Cmd.wp R (fun _ k => k = 0) (fun _ => True) (setUp capacity trust)
      (fun ok t => ok = true → t.guard.thread = .idle) t := by
    intro capacity trust t
    simp only [setUp, setGuard, Cmd.wp_bind, Cmd.wp_get, Cmd.wp_modify]
    have hsafe : (if trust then recover t.file.data.length else resetMeta t.file.data.length).Safe :=
      Cmd.safe_ite (safe_recover _) fun _ _ _ => trivial
    refine Cmd.wp_conseq (Cmd.wp_safe hsafe _) ?_
    rintro (_ | _) u -
    · simp
    · exact Cmd.wp_conseq startThread_idle fun _ _ h _ => h.2.1
  unfold aofguardInit
  simp only [Cmd.wp_ite, Cmd.wp_pure, Cmd.wp_bind, Cmd.wp_get]
  refine ⟨fun _ => by simp, fun _ => ⟨fun _ => by simp, fun _ => ?_⟩⟩
  refine Cmd.wp_conseq (Cmd.wp_safe (safe_openNvm _) s) ?_
  intro opened t _
  refine ⟨fun _ => ?_, fun _ => by simp⟩
  simp only [Cmd.wp_succeeds]
  intro a _ b _
  exact ⟨fun _ => hsetUp _ _ t, fun _ => by simp⟩

/-- The NVM file is there, with the right size. -/
def Sized (cap : Nat) (s : Sys) : Prop := ∃ x, s.nvm = some x ∧ x.size = 128 + cap

/-- With an NVM file of the right size or none, the reset branch succeeds. -/
theorem aofguardInit_reset (hn : SizeOk nvmSize) (hsize : ∀ x, s.nvm = some x → x.size = 128 + capOf nvmSize) :
    Cmd.wp Drift (fun _ k => k = 0) (fun _ => True) (aofguardInit nvmSize true)
      (fun ok t => ok = true ∧ t.guard.thread = .idle ∧ Sized (capOf nvmSize) t) s := by
  have hsetUp : ∀ t, Sized (capOf nvmSize) t → Cmd.wp Drift (fun _ k => k = 0) (fun _ => True)
      (setUp (capOf nvmSize) false) (fun ok t => ok = true ∧ t.guard.thread = .idle ∧ Sized (capOf nvmSize) t) t := by
    rintro t ⟨x, hx, hsize⟩
    simp only [setUp, setGuard, Cmd.wp_bind, Cmd.wp_get, Cmd.wp_modify, Bool.false_eq_true, if_false, resetMeta,
      Cmd.wp_pure]
    refine Cmd.wp_step fun t₁ h₁ => ⟨trivial, Cmd.wp_step fun t₂ h₂ => ⟨trivial, ?_⟩⟩
    refine Cmd.wp_conseq startThread_idle fun ok u h => ⟨h.1, h.2.1, ?_⟩
    have hx₁ : t₁.nvm = some x := h₁.nvm.trans hx
    have hx₂ : t₂.nvm = some { x with mixed := t.file.data.length } := by
      rw [h₂.nvm]
      simp only [hx₁, Option.map_some]
    exact ⟨{ x with mixed := t.file.data.length, bufEnd := 0 }, by rw [h.2.2]; simp only [hx₂, Option.map_some], hsize⟩
  apply wp_aofguardInit hn
  rw [show (s.nvm.isSome && !true) = false by simp]
  unfold openNvm
  simp only [Cmd.wp_bind, Cmd.wp_get]
  cases hx : s.nvm with
  | some x =>
    simp only [Cmd.wp_bind, Cmd.wp_succeeds, Cmd.wp_pure, hsize x hx]
    intro a ha b hb
    subst ha hb
    rw [if_pos (by simp)]
    exact hsetUp s ⟨x, hx, hsize x hx⟩
  | none =>
    simp only [Cmd.wp_bind, Cmd.wp_succeeds, Cmd.wp_ite, Cmd.wp_pure]
    intro a ha
    subst ha
    refine ⟨fun _ => Cmd.wp_step fun s₁ h₁ => ⟨trivial, fun b hb => ?_⟩, by simp⟩
    subst hb
    refine ⟨fun _ => Cmd.wp_step fun s₂ h₂ => ⟨trivial, hsetUp _ ?_⟩, by simp⟩
    refine ⟨{ NvmFile.empty with size := 128 + capOf nvmSize }, ?_, rfl⟩
    simp only [h₂.nvm, Option.map_some]

end

/-! ## Progress -/

theorem total_syscallWrite (d : List Byte) : (syscallWrite d).Total :=
  fun _ => Cmd.total_bind (Cmd.total_get _) fun _ => Cmd.total_ite (Cmd.total_pure _) (Cmd.total_stepGet _)

theorem total_recover (size : Nat) : (recover size).Total := by
  have htail : rewriteTail.Total := by
    refine Cmd.total_bind (Cmd.total_get _) fun g => Cmd.total_bind (Cmd.total_get _) fun nvm => Cmd.total_ite ?_ ?_
    · exact Cmd.total_bind (total_syscallWrite _) fun _ => Cmd.total_pure _
    · refine Cmd.total_bind (total_syscallWrite _) fun k => Cmd.total_ite ?_ (Cmd.total_pure _)
      exact Cmd.total_bind (total_syscallWrite _) fun _ => Cmd.total_pure _
  have hcut : ∀ n, (syscallFtruncate n).Total := by
    intro n
    refine Cmd.total_bind (Cmd.total_succeeds _) fun ok => Cmd.total_bind (Cmd.total_get _) fun writable => ?_
    exact Cmd.total_ite (Cmd.total_bind (Cmd.total_step _) fun _ => Cmd.total_pure _) (Cmd.total_pure _)
  refine Cmd.total_bind (Cmd.total_get _) fun capacity => Cmd.total_bind (Cmd.total_get _) fun nvm => ?_
  refine Cmd.total_bind (Cmd.total_modify _) fun _ => Cmd.total_ite (Cmd.total_pure _)
    (Cmd.total_ite (Cmd.total_pure _) ?_)
  refine Cmd.total_bind (Cmd.total_modify _) fun _ => Cmd.total_ite (Cmd.total_pure _) ?_
  exact Cmd.total_bind (Cmd.total_ite (hcut _) (Cmd.total_pure _)) fun ok => Cmd.total_ite htail (Cmd.total_pure _)

theorem total_openNvm (n : Nat) : (openNvm n).Total := by
  refine Cmd.total_bind (Cmd.total_get _) fun nvm => ?_
  cases nvm with
  | some x =>
    exact Cmd.total_bind (Cmd.total_succeeds _) fun _ => Cmd.total_bind (Cmd.total_succeeds _) fun _ => Cmd.total_pure _
  | none =>
    refine Cmd.total_bind (Cmd.total_succeeds _) fun opened => Cmd.total_ite ?_ (Cmd.total_pure _)
    refine Cmd.total_bind (Cmd.total_step _) fun _ => Cmd.total_bind (Cmd.total_succeeds _) fun ok => ?_
    exact Cmd.total_ite (Cmd.total_bind (Cmd.total_step _) fun _ => Cmd.total_pure _) (Cmd.total_pure _)

theorem total_aofguardInit (nvmSize : Nat) (reset : Bool) : (aofguardInit nvmSize reset).Total := by
  have hstart : startThread.Total := by
    refine Cmd.total_bind (Cmd.total_modify _) fun _ => Cmd.total_bind (Cmd.total_succeeds _) fun started => ?_
    refine Cmd.total_bind (Cmd.total_succeeds _) fun done => Cmd.total_bind (Cmd.total_succeeds _) fun created => ?_
    exact Cmd.total_ite (Cmd.total_bind (Cmd.total_modify _) fun _ => Cmd.total_pure _) (Cmd.total_pure _)
  have hreset : ∀ size, (resetMeta size).Total := fun size => Cmd.total_bind (Cmd.total_modify _) fun _ =>
    Cmd.total_bind (Cmd.total_step _) fun _ => Cmd.total_bind (Cmd.total_step _) fun _ => Cmd.total_pure _
  have hsetUp : ∀ capacity trust, (setUp capacity trust).Total := by
    intro capacity trust
    refine Cmd.total_bind (Cmd.total_get _) fun size => Cmd.total_bind (Cmd.total_modify _) fun _ => ?_
    exact Cmd.total_bind (Cmd.total_ite (total_recover _) (hreset _)) fun ok => Cmd.total_ite hstart (Cmd.total_pure _)
  refine Cmd.total_ite (Cmd.total_pure _) (Cmd.total_ite (Cmd.total_pure _) (Cmd.total_bind (Cmd.total_get _) fun _ => ?_))
  refine Cmd.total_bind (total_openNvm _) fun opened => Cmd.total_ite ?_ (Cmd.total_pure _)
  refine Cmd.total_bind (Cmd.total_succeeds _) fun mapped => Cmd.total_bind (Cmd.total_succeeds _) fun fstat => ?_
  exact Cmd.total_ite (hsetUp _ _) (Cmd.total_pure _)

theorem total_handleOpen (cfg : Config) (file : String) (fd : Nat) : (handleOpen cfg file fd).Total := by
  have hnew : (newGuard cfg file fd).Total := by
    refine Cmd.total_ite (Cmd.total_bind (Cmd.total_succeeds _) fun malloc => Cmd.total_ite ?_ (Cmd.total_pure _))
      (Cmd.total_pure _)
    refine Cmd.total_bind (Cmd.total_modify _) fun _ => Cmd.total_bind (Cmd.total_get _) fun n => ?_
    refine Cmd.total_bind (Cmd.total_get _) fun v => Cmd.total_bind ?_ fun ok => Cmd.total_pure _
    exact Cmd.total_zoom _ _ (total_aofguardInit _ _)
  have hgrow : (growTable fd).Total := by
    refine Cmd.total_bind (Cmd.total_get _) fun capacity => Cmd.total_ite ?_ (Cmd.total_pure _)
    refine Cmd.total_bind (Cmd.total_succeeds _) fun ok => Cmd.total_ite ?_ (Cmd.total_pure _)
    exact Cmd.total_bind (Cmd.total_modify _) fun _ => Cmd.total_pure _
  have hname : (setName fd file).Total := Cmd.total_bind (Cmd.total_succeeds _) fun ok =>
    Cmd.total_bind (Cmd.total_modify _) fun _ => Cmd.total_pure _
  have hdrop : (dropGuard fd).Total := by
    refine Cmd.total_bind (Cmd.total_get _) fun e => ?_
    cases e.aofguard with
    | none => exact Cmd.total_pure _
    | some n =>
      refine Cmd.total_bind (Cmd.total_get _) fun v => Cmd.total_bind (Cmd.total_zoom _ _ ?_) fun ok =>
        Cmd.total_ite (Cmd.total_bind (Cmd.total_modify _) fun _ => Cmd.total_pure _) (Cmd.total_pure _)
      refine Cmd.total_bind (Cmd.total_succeeds _) fun cancelled => Cmd.total_bind (Cmd.total_succeeds _) fun joined => ?_
      refine Cmd.total_ite (Cmd.total_bind (Cmd.total_stepGet _) fun thread => ?_) (Cmd.total_pure _)
      exact Cmd.total_bind (Cmd.total_check _) fun _ => Cmd.total_succeeds _
  refine Cmd.total_bind (Cmd.total_succeeds _) fun fstat => Cmd.total_ite (Cmd.total_bind hnew fun guard => ?_)
    (Cmd.total_pure _)
  cases guard with
  | none => exact Cmd.total_pure _
  | some guard =>
    refine Cmd.total_bind hgrow fun grown => Cmd.total_ite (Cmd.total_bind (Cmd.total_get _) fun capacity => ?_)
      (Cmd.total_pure _)
    refine Cmd.total_bind (Cmd.total_check _) fun _ => Cmd.total_bind hname fun named => Cmd.total_ite ?_ (Cmd.total_pure _)
    refine Cmd.total_bind hdrop fun dropped => Cmd.total_ite ?_ (Cmd.total_pure _)
    exact Cmd.total_bind (Cmd.total_modify _) fun _ => Cmd.total_pure _

/-- `open` waits for nobody. -/
theorem total_openAt (cfg : Config) (place file : String) (flags : Flags) (fd : Nat) :
    (openAt cfg place file flags fd).Total := by
  have hopen : (syscallOpen place flags fd).Total := Cmd.total_bind (Cmd.total_succeeds _) fun ok =>
    Cmd.total_ite (Cmd.total_stepGet _) (Cmd.total_pure _)
  have hclose : (syscallClose fd).Total := by
    refine Cmd.total_bind (Cmd.total_succeeds _) fun ok => Cmd.total_bind (Cmd.total_get _) fun ino => ?_
    exact Cmd.total_ite (Cmd.total_bind (Cmd.total_step _) fun _ => Cmd.total_pure _) (Cmd.total_pure _)
  refine Cmd.total_bind hopen fun opened => Cmd.total_ite ?_ (Cmd.total_pure _)
  refine Cmd.total_bind (total_handleOpen _ _ _) fun ok => Cmd.total_ite (Cmd.total_pure _) ?_
  exact Cmd.total_bind hclose fun _ => Cmd.total_pure _

/-- The command returns, and however the threads step with `Q`. -/
def Returns {α : Type} (c : Cmd Syscall World α) (Q : α → World → Prop) (w : World) : Prop :=
  ¬ Cmd.Aborts WTicks (fun _ k => k = 0) c w ∧ (∃ a w', Cmd.Run WTicks (fun _ k => k = 0) c w a w') ∧
    ∀ a w', Cmd.Run WTicks (fun _ k => k = 0) c w a w' → Q a w'

/-! ## Runs -/

/-- A step of a thread, or a call that `ok` allows. -/
inductive CallStep (cfg : Config) (ok : Call → World → Prop) : World → World → Prop
  | thread {w w' : World} : WTick w w' → CallStep cfg ok w w'
  | call {w w' : World} {c : Call} {r : Int} : ok c w → Cmd.Run WTicks (fun _ k => k = 0) (c.cmd cfg) w r w' →
      CallStep cfg ok w w'

theorem exec_calls {α : Type} {c : Cmd Syscall World α} {w w' : World} {a : α} (h : c.exec w = some (a, w')) :
    Cmd.Run WTicks (fun _ k => k = 0) c w a w' :=
  Cmd.exec_run (R := WTicks) (A := fun _ k => k = 0) (fun _ => Relation.ReflTransGen.refl) (fun _ => rfl) h

theorem returns_of_wwp {α : Type} {I : World → Prop} {c : Cmd Syscall World α} {Q : α → World → Prop} {w : World}
    (h : wwp I c Q w) (hc : c.Total) : Returns c Q w := by
  refine ⟨Cmd.wp_not_aborts h, ?_, fun a w' hr => Cmd.wp_run h hr⟩
  obtain ⟨a, w', hexec, -⟩ := Cmd.wp_exec (R := WTicks) (A := fun _ k => k = 0) (fun _ => Relation.ReflTransGen.refl)
    (fun _ => rfl) h hc
  exact ⟨a, w', exec_calls hexec⟩

/-- Calls one after the other, without interference. -/
def execCalls (cfg : Config) : List Call → World → Option World
  | [], w => some w
  | c :: cs, w => ((c.cmd cfg).exec w).bind fun r => execCalls cfg cs r.2

theorem execCalls_steps {cfg : Config} {ok : Call → World → Prop} {cs : List Call} {w w' : World}
    (hok : ∀ c ∈ cs, ∀ w, ok c w) (h : execCalls cfg cs w = some w') : Relation.ReflTransGen (CallStep cfg ok) w w' := by
  induction cs generalizing w with
  | nil =>
    cases h
    exact .refl
  | cons c cs ih =>
    obtain ⟨⟨r, w₁⟩, hr, h⟩ := Option.bind_eq_some_iff.mp h
    exact .head (.call (hok c List.mem_cons_self w) (exec_calls hr)) (ih (fun d hd => hok d (List.mem_cons_of_mem c hd)) h)

/-- The same with a test before each call. -/
def runCalls (cfg : Config) (ok : Call → World → Bool) : List Call → World → Option World
  | [], w => some w
  | c :: cs, w => if ok c w then ((c.cmd cfg).exec w).bind fun r => runCalls cfg ok cs r.2 else none

theorem runCalls_steps {cfg : Config} {ok : Call → World → Bool} {cs : List Call} {w w' : World}
    (h : runCalls cfg ok cs w = some w') : Relation.ReflTransGen (CallStep cfg fun c w => ok c w = true) w w' := by
  induction cs generalizing w with
  | nil =>
    cases h
    exact .refl
  | cons c cs ih =>
    unfold runCalls at h
    split_ifs at h with hok
    obtain ⟨⟨r, w₁⟩, hr, h⟩ := Option.bind_eq_some_iff.mp h
    exact .head (.call hok (exec_calls hr)) (ih h)

/-- The kernel opens a descriptor that is not in use. -/
def Call.unused (c : Call) (w : World) : Bool :=
  match c with
  | openAt _ _ _ fd => (w.tables.fds fd).isNone
  | _ => true

end PmemProgram.Wal
