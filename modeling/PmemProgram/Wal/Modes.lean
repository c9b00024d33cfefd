import PmemProgram.Wal.Ledger
import PmemProgram.Lib.Posix

/-!
# What the calls leave of the open descriptors

* `Desc.Same`, `Calm x w w'` : no descriptor but `x` has changed, and `x` has its mode;
* `moves_aofguardInit`, `moves_aofguardWrite`, `moves_handleOpen` : the commands that go along them;
* `moves_write`, `moves_rename`, `moves_syncCall`, `run_openAt`, ... : the calls.
-/

namespace PmemProgram.Wal
open PmemProgram.Lib

/-- The mode is the same. -/
structure Desc.Same (c c' : Desc) : Prop where
  append : c'.append = c.append
  writable : c'.writable = c.writable

theorem Desc.Same.refl (c : Desc) : c.Same c := ⟨rfl, rfl⟩

theorem Desc.Same.trans {c d e : Desc} (h : c.Same d) (h' : d.Same e) : c.Same e :=
  ⟨h'.append.trans h.append, h'.writable.trans h.writable⟩

theorem Desc.same_write (c : Desc) (f : File) (d : List Byte) : c.Same (c.write f d).2 := by
  by_cases hd : d.length = 0
  · rw [Desc.write, if_pos hd]
    exact .refl c
  · rw [Desc.write, if_neg hd]
    exact ⟨rfl, rfl⟩

/-! ## The guard -/

section
variable {D : Desc → Desc → Prop}

/-- The descriptor changes along `D`. -/
abbrev OnDesc (D : Desc → Desc → Prop) (s t : Sys) : Prop := D s.desc t.desc

theorem moves_setGuard (hrefl : ∀ c, D c c) (f : Aofguard → Aofguard) : (setGuard f).Moves (OnDesc D) :=
  Cmd.moves_modify fun s => hrefl s.desc

theorem moves_nvmSet64 (hrefl : ∀ c, D c c) (f : NvmFile → NvmFile) : (nvmSet64 f).Moves (OnDesc D) :=
  Cmd.moves_step fun s => hrefl s.desc

theorem moves_syscallWrite (hrefl : ∀ c, D c c) (hwrite : ∀ c f d, D c (Desc.write c f d).2) (d : List Byte) :
    (syscallWrite d).Moves (OnDesc D) :=
  fun _ => Cmd.moves_bind (Cmd.moves_get (fun s => hrefl s.desc) _) fun _ => Cmd.moves_ite (Cmd.moves_pure _)
    (Cmd.moves_stepGet fun s => hwrite s.desc s.file _)

theorem moves_openNvm (hrefl : ∀ c, D c c) (n : Nat) : (openNvm n).Moves (OnDesc D) := by
  refine Cmd.moves_bind (Cmd.moves_get (fun s => hrefl s.desc) _) fun nvm => ?_
  cases nvm with
  | some x => exact fun _ _ => trivial
  | none =>
    refine Cmd.moves_bind (Cmd.moves_succeeds _) fun opened => Cmd.moves_ite ?_ (Cmd.moves_pure _)
    refine Cmd.moves_bind (Cmd.moves_step fun s => hrefl s.desc) fun _ => Cmd.moves_bind (Cmd.moves_succeeds _) fun ok => ?_
    exact Cmd.moves_ite (Cmd.moves_bind (Cmd.moves_step fun s => hrefl s.desc) fun _ => Cmd.moves_pure _) (Cmd.moves_pure _)

theorem moves_startThread (hrefl : ∀ c, D c c) : startThread.Moves (OnDesc D) := by
  refine Cmd.moves_bind (moves_setGuard hrefl _) fun _ => Cmd.moves_bind (Cmd.moves_succeeds _) fun started => ?_
  refine Cmd.moves_bind (Cmd.moves_succeeds _) fun done => Cmd.moves_bind (Cmd.moves_succeeds _) fun created => ?_
  exact Cmd.moves_ite (Cmd.moves_bind (moves_setGuard hrefl _) fun _ => Cmd.moves_pure _) (Cmd.moves_pure _)

theorem moves_resetMeta (hrefl : ∀ c, D c c) (size : Nat) : (resetMeta size).Moves (OnDesc D) :=
  Cmd.moves_bind (moves_setGuard hrefl _) fun _ => Cmd.moves_bind (moves_nvmSet64 hrefl _) fun _ =>
    Cmd.moves_bind (moves_nvmSet64 hrefl _) fun _ => Cmd.moves_pure _

theorem moves_recover (hrefl : ∀ c, D c c) (hwrite : ∀ c f d, D c (Desc.write c f d).2) (size : Nat) :
    (recover size).Moves (OnDesc D) := by
  have hget : ∀ {α : Type} (f : Sys → α), (Cmd.get f : Cmd Syscall Sys α).Moves (OnDesc D) := fun f =>
    Cmd.moves_get (fun s => hrefl s.desc) f
  have hk := moves_syscallWrite hrefl hwrite
  have htail : rewriteTail.Moves (OnDesc D) := by
    refine Cmd.moves_bind (hget _) fun g => Cmd.moves_bind (hget _) fun nvm => Cmd.moves_ite ?_ ?_
    · exact Cmd.moves_bind (hk _) fun _ => Cmd.moves_pure _
    · refine Cmd.moves_bind (hk _) fun k => Cmd.moves_ite ?_ (Cmd.moves_pure _)
      exact Cmd.moves_bind (hk _) fun _ => Cmd.moves_pure _
  have hcut : ∀ n, (syscallFtruncate n).Moves (OnDesc D) := by
    intro n
    refine Cmd.moves_bind (Cmd.moves_succeeds _) fun ok => Cmd.moves_bind (hget _) fun writable => ?_
    exact Cmd.moves_ite (Cmd.moves_bind (Cmd.moves_step fun s => hrefl s.desc) fun _ => Cmd.moves_pure _) (Cmd.moves_pure _)
  refine Cmd.moves_bind (hget _) fun capacity => Cmd.moves_bind (hget _) fun nvm => ?_
  refine Cmd.moves_bind (moves_setGuard hrefl _) fun _ => Cmd.moves_ite (Cmd.moves_pure _)
    (Cmd.moves_ite (Cmd.moves_pure _) ?_)
  refine Cmd.moves_bind (moves_setGuard hrefl _) fun _ => Cmd.moves_ite (Cmd.moves_pure _) ?_
  exact Cmd.moves_bind (Cmd.moves_ite (hcut _) (Cmd.moves_pure _)) fun ok => Cmd.moves_ite htail (Cmd.moves_pure _)

/-- Only recovery writes. -/
theorem moves_aofguardInit (nvmSize : Nat) (reset : Bool) (hrefl : ∀ c, D c c)
    (hwrite : reset = false → ∀ c f d, D c (Desc.write c f d).2) :
    (aofguardInit nvmSize reset).Moves (OnDesc D) := by
  have hsetUp : ∀ (capacity : Nat) (trust : Bool), (trust = true → reset = false) →
      (setUp capacity trust).Moves (OnDesc D) := by
    intro capacity trust htrust
    refine Cmd.moves_bind (Cmd.moves_get (fun s => hrefl s.desc) _) fun size => ?_
    refine Cmd.moves_bind (moves_setGuard hrefl _) fun _ => Cmd.moves_bind ?_ fun ok =>
      Cmd.moves_ite (moves_startThread hrefl) (Cmd.moves_pure _)
    cases trust with
    | true => exact moves_recover hrefl (hwrite (htrust rfl)) size
    | false => exact moves_resetMeta hrefl size
  refine Cmd.moves_ite (Cmd.moves_pure _) (Cmd.moves_ite (Cmd.moves_pure _) ?_)
  refine Cmd.moves_bind (Cmd.moves_get (fun s => hrefl s.desc) _) fun nvmFileExist => ?_
  refine Cmd.moves_bind (moves_openNvm hrefl _) fun opened => Cmd.moves_ite ?_ (Cmd.moves_pure _)
  refine Cmd.moves_bind (Cmd.moves_succeeds _) fun mapped => Cmd.moves_bind (Cmd.moves_succeeds _) fun fstat => ?_
  refine Cmd.moves_ite (hsetUp _ _ fun htrust => ?_) (Cmd.moves_pure _)
  cases reset with
  | true => simp at htrust
  | false => rfl

theorem moves_ringBufForward (val addition capacity : Nat) : (ringBufForward val addition capacity).Moves (OnDesc D) :=
  Cmd.moves_bind (Cmd.moves_check _) fun _ => Cmd.moves_pure _

theorem moves_updateAfterFsync (hrefl : ∀ c, D c c) (blockCount : Nat) : (updateAfterFsync blockCount).Moves (OnDesc D) := by
  refine Cmd.moves_ite (Cmd.moves_pure _) (Cmd.moves_bind (Cmd.moves_get (fun s => hrefl s.desc) _) fun g => ?_)
  refine Cmd.moves_bind (moves_ringBufForward _ _ _) fun start => Cmd.moves_bind (Cmd.moves_check _) fun _ => ?_
  exact Cmd.moves_bind (Cmd.moves_check _) fun _ => Cmd.moves_bind (moves_setGuard hrefl _) fun _ => moves_nvmSet64 hrefl _

theorem moves_creditAfsync (hrefl : ∀ c, D c c) : creditAfsync.Moves (OnDesc D) :=
  Cmd.moves_bind (Cmd.moves_get (fun s => hrefl s.desc) _) fun _ => Cmd.moves_bind (moves_updateAfterFsync hrefl _) fun _ =>
    Cmd.moves_bind (moves_setGuard hrefl _) fun _ => Cmd.moves_pure _

theorem moves_handleAfsyncIfFinish (hrefl : ∀ c, D c c) : handleAfsyncIfFinish.Moves (OnDesc D) := by
  refine Cmd.moves_bind (Cmd.moves_get (fun s => hrefl s.desc) _) fun blockCount => Cmd.moves_ite (Cmd.moves_pure _) ?_
  refine Cmd.moves_bind (Cmd.moves_succeeds _) fun ok => Cmd.moves_ite (Cmd.moves_bind (Cmd.moves_stepGet fun s => ?_)
    fun taken => Cmd.moves_ite (moves_creditAfsync hrefl) (Cmd.moves_pure _)) (Cmd.moves_pure _)
  split_ifs
  · exact hrefl s.desc
  · exact hrefl s.desc

theorem moves_makeRoom (hrefl : ∀ c, D c c) (len : Nat) : (makeRoom len).Moves (OnDesc D) := by
  have hwait : waitAfsyncDone.Moves (OnDesc D) := by
    refine Cmd.moves_bind (Cmd.moves_get (fun s => hrefl s.desc) _) fun blockCount => Cmd.moves_ite (Cmd.moves_pure _) ?_
    refine Cmd.moves_bind (Cmd.moves_succeeds _) fun ok => Cmd.moves_ite (Cmd.moves_bind (Cmd.moves_await fun s t ht => ?_)
      fun _ => moves_creditAfsync hrefl) (Cmd.moves_pure _)
    split_ifs at ht
    cases ht
    exact hrefl s.desc
  have hsync : doFsync.Moves (OnDesc D) := by
    refine Cmd.moves_bind (Cmd.moves_succeeds _) fun ok => Cmd.moves_ite ?_ (Cmd.moves_pure _)
    refine Cmd.moves_bind (Cmd.moves_step fun s => hrefl s.desc) fun _ => ?_
    refine Cmd.moves_bind (Cmd.moves_get (fun s => hrefl s.desc) _) fun len => ?_
    exact Cmd.moves_bind (moves_updateAfterFsync hrefl _) fun _ => Cmd.moves_pure _
  refine Cmd.moves_bind (Cmd.moves_get (fun s => hrefl s.desc) _) fun g => Cmd.moves_ite (Cmd.moves_ite (Cmd.moves_pure _) ?_)
    (Cmd.moves_pure _)
  refine Cmd.moves_bind hwait fun ok => Cmd.moves_ite ?_ (Cmd.moves_pure _)
  exact Cmd.moves_bind (Cmd.moves_get (fun s => hrefl s.desc) _) fun g => Cmd.moves_ite hsync (Cmd.moves_pure _)

theorem moves_appendRecord (hrefl : ∀ c, D c c) (hwrite : ∀ c f d, D c (Desc.write c f d).2) (data : List Byte) :
    (appendRecord data).Moves (OnDesc D) := by
  have hcopy : ∀ writePos capacity, (copyToRing writePos capacity data).Moves (OnDesc D) := fun writePos capacity =>
    Cmd.moves_ite (Cmd.moves_pieces fun s => hrefl s.desc) (Cmd.moves_bind (Cmd.moves_pieces fun s => hrefl s.desc) fun _ =>
      Cmd.moves_pieces fun s => hrefl s.desc)
  have hrequest : requestAfsync.Moves (OnDesc D) := by
    refine Cmd.moves_bind (Cmd.moves_get (fun s => hrefl s.desc) _) fun g => Cmd.moves_ite ?_ (Cmd.moves_pure _)
    refine Cmd.moves_bind (moves_setGuard hrefl _) fun _ => Cmd.moves_bind (Cmd.moves_succeeds _) fun ok => ?_
    exact Cmd.moves_ite (Cmd.moves_bind (Cmd.moves_step fun s => hrefl s.desc) fun _ => Cmd.moves_pure _) (Cmd.moves_pure _)
  refine Cmd.moves_bind (Cmd.moves_get (fun s => hrefl s.desc) _) fun g => Cmd.moves_bind (Cmd.moves_check _) fun _ => ?_
  refine Cmd.moves_bind (moves_syscallWrite hrefl hwrite _) fun k => Cmd.moves_ite ?_ (Cmd.moves_pure _)
  refine Cmd.moves_bind (moves_ringBufForward _ _ _) fun writePos => Cmd.moves_bind (hcopy _ _) fun _ => ?_
  refine Cmd.moves_bind (moves_setGuard hrefl _) fun _ => Cmd.moves_bind (Cmd.moves_check _) fun _ => ?_
  exact Cmd.moves_bind (moves_ringBufForward _ _ _) fun bufEnd => Cmd.moves_bind (moves_nvmSet64 hrefl _) fun _ => hrequest

theorem moves_aofguardWrite (hrefl : ∀ c, D c c) (hwrite : ∀ c f d, D c (Desc.write c f d).2) (data : List Byte) :
    (aofguardWrite data).Moves (OnDesc D) :=
  Cmd.moves_bind (moves_handleAfsyncIfFinish hrefl) fun _ => Cmd.moves_ite (Cmd.moves_bind (moves_makeRoom hrefl _) fun _ =>
    Cmd.moves_ite (moves_appendRecord hrefl hwrite _) (Cmd.moves_pure _)) (Cmd.moves_pure _)

theorem moves_aofguardDeinit (hrefl : ∀ c, D c c) : aofguardDeinit.Moves (OnDesc D) :=
  Cmd.moves_bind (Cmd.moves_succeeds _) fun _ => Cmd.moves_bind (Cmd.moves_succeeds _) fun _ => Cmd.moves_ite
    (Cmd.moves_bind (Cmd.moves_stepGet fun s => hrefl s.desc) fun _ => Cmd.moves_bind (Cmd.moves_check _) fun _ =>
      Cmd.moves_succeeds _) (Cmd.moves_pure _)

end

/-! ## The world -/

/-- The same files are open, no descriptor but `x` has changed, and `x` has its mode. -/
structure Calm (x : Option Nat) (w w' : World) : Prop where
  fds : w'.tables.fds = w.tables.fds
  mode : ∀ k, (w.descs k).Same (w'.descs k)
  desc : ∀ k, x ≠ some k → w'.descs k = w.descs k

section
variable {x : Option Nat} {w w' : World} {cfg : Config} {v : Port}

theorem Calm.refl (x : Option Nat) (w : World) : Calm x w w := ⟨rfl, fun _ => .refl _, fun _ _ => rfl⟩

theorem Calm.trans {w₁ w₂ w₃ : World} (h : Calm x w₁ w₂) (h' : Calm x w₂ w₃) : Calm x w₁ w₃ :=
  ⟨h'.fds.trans h.fds, fun k => (h.mode k).trans (h'.mode k), fun k hk => (h'.desc k hk).trans (h.desc k hk)⟩

theorem Calm.of_eq (hfds : w'.tables.fds = w.tables.fds) (hdescs : w'.descs = w.descs) : Calm x w w' :=
  ⟨hfds, fun k => by rw [hdescs]; exact .refl _, fun k _ => congrFun hdescs k⟩

theorem Calm.weaken (h : Calm none w w') : Calm x w w' := ⟨h.fds, h.mode, fun k _ => h.desc k (by simp)⟩

theorem Calm.descs (h : Calm none w w') : w'.descs = w.descs := funext fun k => h.desc k (by simp)

theorem WTicks.calm (h : WTicks w w') : Calm x w w' := .of_eq (by rw [h.tables]) (funext h.descs)

/-- A run of a command that goes along `Calm`. -/
theorem run_calm {α : Type} {c : Cmd Syscall World α} {a : α} (hr : Cmd.Run WTicks (fun _ k => k = 0) c w a w')
    (hc : c.Moves (Calm x)) : Calm x w w' :=
  hr.moves (Calm.refl x) (fun _ _ _ => Calm.trans) (fun _ _ => WTicks.calm) hc

/-- A command of a guard that may write. -/
theorem moves_port_mode {α : Type} {c : Cmd Syscall Sys α} (hc : c.Moves (OnDesc Desc.Same)) :
    (v.run c).Moves (Calm (some v.fd)) := by
  refine Cmd.moves_zoom (fun w s hs => ⟨rfl, fun k => ?_, fun k hk => ?_⟩) hc
  · by_cases hk : k = v.fd
    · subst hk
      simp only [Port.put, Function.update_self]
      exact hs
    · simp only [Port.put, Function.update_of_ne hk]
      exact .refl _
  · have hne : k ≠ v.fd := fun heq => hk (by rw [heq])
    exact Function.update_of_ne hne _ _

/-- A command of a guard that leaves its descriptor alone. -/
theorem moves_port {α : Type} {c : Cmd Syscall Sys α} (hc : c.Moves (OnDesc fun d d' => d' = d)) :
    (v.run c).Moves (Calm x) := by
  refine Cmd.moves_zoom (fun w s hs => .of_eq rfl ?_) hc
  change Function.update w.descs v.fd s.desc = w.descs
  rw [show s.desc = w.descs v.fd from hs]
  exact Function.update_eq_self v.fd w.descs

theorem moves_read {α : Type} (f : World → α) : (Cmd.get f : Cmd Syscall World α).Moves (Calm x) :=
  Cmd.moves_get (Calm.refl x) f

theorem moves_read_bind {α β : Type} {f : World → α} {g : α → Cmd Syscall World β}
    (hg : ∀ w, (g (f w)).Moves (Calm x)) : (Cmd.get f >>= g).Moves (Calm x) := Cmd.moves_bind_get (Calm.refl x) hg

theorem moves_setTables {f : Tables → Tables} (hf : ∀ T, (f T).fds = T.fds) : (setTables f).Moves (Calm x) :=
  Cmd.moves_modify fun w => .of_eq (hf w.tables) rfl

theorem moves_stepTables {f : Tables → Tables} (hf : ∀ T, (f T).fds = T.fds) : (stepTables f).Moves (Calm x) :=
  Cmd.moves_step fun w => .of_eq (hf w.tables) rfl

theorem moves_dropGuard (fd : Nat) : (dropGuard fd).Moves (Calm x) := by
  refine Cmd.moves_bind (moves_read _) fun e => ?_
  cases e.aofguard with
  | none => exact Cmd.moves_pure _
  | some n =>
    refine Cmd.moves_bind (moves_read _) fun v => Cmd.moves_bind (moves_port (moves_aofguardDeinit fun _ => rfl)) fun ok => ?_
    exact Cmd.moves_ite (Cmd.moves_bind (moves_setTables fun _ => rfl) fun _ => Cmd.moves_pure _) (Cmd.moves_pure _)

theorem moves_setName (fd : Nat) (name : String) : (setName fd name).Moves (Calm x) :=
  Cmd.moves_bind (Cmd.moves_succeeds _) fun _ => Cmd.moves_bind (moves_setTables fun _ => rfl) fun _ => Cmd.moves_pure _

/-! ## The calls -/

/-- Only the descriptor of a log is written through. -/
theorem moves_newGuard {file : String} {fd : Nat} (hx : cfg.needNvm file = true → x = some fd) :
    (newGuard cfg file fd).Moves (Calm x) := by
  unfold newGuard
  split_ifs with hneed
  · obtain rfl := hx hneed
    refine Cmd.moves_bind (Cmd.moves_succeeds _) fun malloc => Cmd.moves_ite ?_ (Cmd.moves_pure _)
    refine Cmd.moves_bind (Cmd.moves_modify fun w => .of_eq rfl rfl) fun _ => ?_
    refine Cmd.moves_bind (moves_read _) fun n => moves_read_bind fun w => Cmd.moves_bind ?_ fun ok => Cmd.moves_pure _
    exact moves_port_mode (v := w.tables.port fd n none)
      (moves_aofguardInit cfg.nvmSize false Desc.Same.refl fun _ c f d => c.same_write f d)
  · exact Cmd.moves_pure _

theorem moves_handleOpen {file : String} {fd : Nat} (hx : cfg.needNvm file = true → x = some fd) :
    (handleOpen cfg file fd).Moves (Calm x) := by
  have hgrow : (growTable fd).Moves (Calm x) := by
    refine Cmd.moves_bind (moves_read _) fun capacity => Cmd.moves_ite ?_ (Cmd.moves_pure _)
    refine Cmd.moves_bind (Cmd.moves_succeeds _) fun ok => Cmd.moves_ite ?_ (Cmd.moves_pure _)
    exact Cmd.moves_bind (moves_setTables fun _ => rfl) fun _ => Cmd.moves_pure _
  refine Cmd.moves_bind (Cmd.moves_succeeds _) fun fstat => Cmd.moves_ite (Cmd.moves_bind (moves_newGuard hx) fun guard => ?_)
    (Cmd.moves_pure _)
  cases guard with
  | none => exact Cmd.moves_pure _
  | some guard =>
    refine Cmd.moves_bind hgrow fun grown => Cmd.moves_ite (Cmd.moves_bind (moves_read _) fun capacity => ?_) (Cmd.moves_pure _)
    refine Cmd.moves_bind (Cmd.moves_check _) fun _ => Cmd.moves_bind (moves_setName _ _) fun named => ?_
    refine Cmd.moves_ite (Cmd.moves_bind (moves_dropGuard fd) fun dropped => Cmd.moves_ite ?_ (Cmd.moves_pure _)) (Cmd.moves_pure _)
    exact Cmd.moves_bind (Cmd.moves_modify fun w => .of_eq rfl rfl) fun _ => Cmd.moves_pure _

theorem moves_nvmExists (q : String) : (nvmExists q).Moves (Calm x) :=
  Cmd.moves_bind (Cmd.moves_succeeds _) fun _ => Cmd.moves_bind (moves_read _) fun _ => Cmd.moves_pure _

theorem moves_unlinkatNvm (q : String) : (unlinkatNvm q).Moves (Calm x) :=
  Cmd.moves_bind (Cmd.moves_succeeds _) fun _ => Cmd.moves_ite (Cmd.moves_bind (moves_stepTables fun _ => rfl) fun _ =>
    Cmd.moves_pure _) (Cmd.moves_pure _)

theorem moves_renameatNvm (q r : String) : (renameatNvm q r).Moves (Calm x) :=
  Cmd.moves_bind (Cmd.moves_succeeds _) fun _ => Cmd.moves_ite (Cmd.moves_bind (moves_stepTables fun T => by
    unfold Tables.moveNvm
    split_ifs
    · rfl
    · rfl) fun _ => Cmd.moves_pure _) (Cmd.moves_pure _)

theorem moves_unlink (file : String) : (unlink cfg file).Moves (Calm x) := by
  have hunlink : (syscallUnlink file).Moves (Calm x) := Cmd.moves_bind (Cmd.moves_succeeds _) fun ok =>
    Cmd.moves_ite (Cmd.moves_stepGet fun w => .of_eq rfl rfl) (Cmd.moves_pure _)
  refine Cmd.moves_bind hunlink fun ok => Cmd.moves_ite (Cmd.moves_ite ?_ (Cmd.moves_pure _)) (Cmd.moves_pure _)
  refine Cmd.moves_bind (moves_nvmExists _) fun found => Cmd.moves_ite ?_ (Cmd.moves_pure _)
  exact Cmd.moves_bind (moves_unlinkatNvm _) fun ok => Cmd.moves_pure _

theorem moves_forEntries {name : String} {body : Nat → Cmd Syscall World Bool} (hbody : ∀ fd, (body fd).Moves (Calm x))
    (fds : List Nat) : (forEntries name body fds).Moves (Calm x) := by
  induction fds with
  | nil => exact Cmd.moves_pure _
  | cons fd fds ih =>
    refine Cmd.moves_bind (moves_read _) fun e => Cmd.moves_ite ?_ ih
    exact Cmd.moves_bind (hbody fd) fun ok => Cmd.moves_ite ih (Cmd.moves_pure _)

theorem moves_renameEntries (old new : String) : (renameEntries old new).Moves (Calm x) :=
  Cmd.moves_bind (moves_read _) fun _ => Cmd.moves_bind (moves_forEntries (fun fd => moves_setName fd new) _) fun _ =>
    Cmd.moves_pure _

theorem moves_attachGuard (new : String) (fd : Nat) : (attachGuard cfg new fd).Moves (Calm x) := by
  refine Cmd.moves_bind (moves_read _) fun e => Cmd.moves_bind (Cmd.moves_check _) fun _ => ?_
  refine Cmd.moves_bind (Cmd.moves_succeeds _) fun malloc => Cmd.moves_ite (Cmd.moves_bind (moves_read _) fun n => ?_)
    (Cmd.moves_pure _)
  refine Cmd.moves_bind (Cmd.moves_modify fun w => .of_eq rfl rfl) fun _ => Cmd.moves_bind (moves_read _) fun v => ?_
  exact moves_port (moves_aofguardInit cfg.nvmSize true (fun _ => rfl) fun h => by cases h)

theorem moves_moveNvm (old new : String) : (moveNvm cfg old new).Moves (Calm x) := by
  refine Cmd.moves_bind (moves_nvmExists _) fun found => Cmd.moves_ite (moves_renameatNvm _ _) ?_
  exact Cmd.moves_bind (moves_nvmExists _) fun found => Cmd.moves_ite (moves_unlinkatNvm _) (Cmd.moves_pure _)

theorem moves_removeNvm (old : String) : (removeNvm cfg old).Moves (Calm x) := by
  have hdetach : ∀ fd, (detachGuard fd).Moves (Calm x) := fun fd => Cmd.moves_bind (moves_read _) fun e =>
    Cmd.moves_bind (Cmd.moves_check _) fun _ => moves_dropGuard fd
  refine Cmd.moves_bind (moves_nvmExists _) fun found => Cmd.moves_ite ?_ (Cmd.moves_pure _)
  refine Cmd.moves_bind (moves_unlinkatNvm _) fun ok => Cmd.moves_ite ?_ (Cmd.moves_pure _)
  exact Cmd.moves_bind (moves_read _) fun capacity => moves_forEntries hdetach _

theorem moves_rename (old new : String) : (rename cfg old new).Moves (Calm x) := by
  have hrename : (syscallRename old new).Moves (Calm x) := Cmd.moves_bind (Cmd.moves_succeeds _) fun ok =>
    Cmd.moves_ite (Cmd.moves_stepGet fun w => .of_eq (w.tables.moveFile_rest old new).2.2.1 rfl) (Cmd.moves_pure _)
  have hend : ∀ {r : Int} (ok : Bool), (if ok then renameEntries old new else pure r).Moves (Calm x) := fun ok =>
    Cmd.moves_ite (moves_renameEntries _ _) (Cmd.moves_pure _)
  refine Cmd.moves_bind hrename fun ok => Cmd.moves_ite (Cmd.moves_ite (Cmd.moves_ite ?_ ?_) (Cmd.moves_ite ?_ ?_))
    (Cmd.moves_pure _)
  · exact Cmd.moves_bind (moves_moveNvm _ _) hend
  · exact Cmd.moves_bind (moves_read _) fun capacity =>
      Cmd.moves_bind (moves_forEntries (moves_attachGuard new) _) hend
  · exact Cmd.moves_bind (moves_removeNvm _) hend
  · exact moves_renameEntries _ _

theorem moves_syncCall (fd : Nat) : (syncCall cfg fd).Moves (Calm x) := by
  refine Cmd.moves_bind (moves_read _) fun e => Cmd.moves_ite (Cmd.moves_pure _) ?_
  refine Cmd.moves_bind (Cmd.moves_succeeds _) fun ok => Cmd.moves_bind (moves_read _) fun ino => ?_
  cases ino with
  | none => exact Cmd.moves_pure _
  | some i =>
    exact Cmd.moves_ite (Cmd.moves_bind (Cmd.moves_step fun w => .of_eq rfl rfl) fun _ => Cmd.moves_pure _) (Cmd.moves_pure _)

theorem moves_write (fd : Nat) (data : List Byte) : (write fd data).Moves (Calm (some fd)) := by
  have hmode := fun c f d => Desc.same_write c f d
  refine Cmd.moves_ite (Cmd.moves_pure _) (Cmd.moves_bind (moves_read _) fun e => ?_)
  cases e.aofguard with
  | some n =>
    refine moves_read_bind fun w => Cmd.moves_bind ?_ fun ok => Cmd.moves_pure _
    exact moves_port_mode (v := w.tables.port fd n (some fd)) (moves_aofguardWrite Desc.Same.refl hmode data)
  | none =>
    refine Cmd.moves_bind (moves_read _) fun ino => ?_
    cases ino with
    | none => exact Cmd.moves_pure _
    | some i =>
      refine Cmd.moves_bind ?_ fun k => Cmd.moves_pure _
      exact moves_port_mode (v := ⟨i, ("", 0), fd, none⟩) (moves_syscallWrite Desc.Same.refl hmode data)

/-- `open` makes a descriptor with the flags, of the file or of a new one. -/
theorem run_openAt {place file : String} {flags : Flags} {fd : Nat} {r : Int}
    (hr : Cmd.Run WTicks (fun _ k => k = 0) (openAt cfg place file flags fd) w r w') :
    (∃ i, w'.tables.fds = Function.update w.tables.fds fd (some i) ∧
      (∀ k, k ≠ fd → w'.descs k = w.descs k) ∧ Desc.Same ⟨flags.append, flags.writable, 0⟩ (w'.descs fd) ∧
      (cfg.needNvm file = false → w'.descs fd = ⟨flags.append, flags.writable, 0⟩)) ∨ r = -1 := by
  obtain ⟨opened, w₁, hopen, hrest⟩ := Cmd.run_bind hr
  cases opened with
  | false => exact Or.inr (Cmd.run_pure_iff.mp hrest).1
  | true =>
    obtain ⟨ok, w₂, hhandle, hend⟩ := Cmd.run_bind hrest
    cases ok with
    | false =>
      obtain ⟨_, w₃, -, hend⟩ := Cmd.run_bind hend
      exact Or.inr (Cmd.run_pure_iff.mp hend).1
    | true =>
      obtain ⟨-, rfl⟩ := Cmd.run_pure_iff.mp hend
      have hopened : ∃ w₀ i, WTicks w w₀ ∧ w₁.tables.fds = Function.update w₀.tables.fds fd (some i) ∧
          w₁.descs = Function.update w₀.descs fd ⟨flags.append, flags.writable, 0⟩ := by
        refine Cmd.wp_run (I := fun _ => True) (Q := fun ok w₁ => ok = true → ∃ w₀ i, WTicks w w₀ ∧
          w₁.tables.fds = Function.update w₀.tables.fds fd (some i) ∧
          w₁.descs = Function.update w₀.descs fd ⟨flags.append, flags.writable, 0⟩) ?_ hopen rfl
        refine wwp_syscallOpen fun w₀ ht => ⟨trivial, fun i _ _ => ⟨w₀, i, ht, rfl, rfl⟩, fun _ _ _ => ?_, by simp⟩
        exact ⟨w₀, w₀.tables.inos, ht, rfl, rfl⟩
      obtain ⟨w₀, i, ht, hfds, hdescs⟩ := hopened
      have hcalm := run_calm (x := if cfg.needNvm file then some fd else none) hhandle
        (moves_handleOpen fun hneed => if_pos hneed)
      refine Or.inl ⟨i, ?_, fun k hk => ?_, ?_, fun hneed => ?_⟩
      · rw [hcalm.fds, hfds, ht.tables]
      · rw [hcalm.desc k ?_, hdescs, Function.update_of_ne hk, ht.descs]
        split_ifs
        · exact fun heq => hk (Option.some.inj heq).symm
        · simp
      · have := hcalm.mode fd
        rwa [hdescs, Function.update_self] at this
      · rw [hcalm.desc fd (by simp [hneed]), hdescs, Function.update_self]

end

end PmemProgram.Wal
