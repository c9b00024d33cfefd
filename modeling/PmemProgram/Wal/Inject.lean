import PmemProgram.Wal.Aofguard

/-!
# The intercepted calls (`wal_accel/src/inject.c`)

The process with its descriptor table, and the two directories: the files of the application, and the NVM files,
which are named after them by `get_nvm_file_name`.

* `Tables` : who is where: the directories, the open descriptors and `fd_table`;
* `World` : the tables, and what the files, NVM files, descriptors and guards hold;
* `Port` : the part of the world that one guard works on, where `aofguard.c` runs (`Port.run`);
* `openAt`, `write`, `fsync`, `fdatasync`, `close`, `unlink`, `rename` : the calls, and `Call` all of them;
* `WTick` : a step of the thread of some guard.

A path is what the kernel resolves it to, and all files are regular. A removed NVM file keeps its inode, as a guard
may still map it.
-/

namespace PmemProgram.Wal
open PmemProgram.Lib

/-- What `init` reads from the environment: which paths match the pattern, the names of their NVM files, the size of
these, and whether to leave out syncs. -/
structure Config where
  needNvm : String → Bool
  nvmFileName : String → String
  nvmSize : Nat
  disableSync : Bool

/-- An NVM inode: the name it was first reserved for, and a number. -/
abbrev NvmIno := String × Nat

/-- An entry of `fd_table`; a guard is known by the NVM inode it maps. -/
@[ext] structure Filedes where
  name : Option String
  aofguard : Option NvmIno

def Filedes.blank : Filedes := ⟨none, none⟩

/-- The directories, the open descriptors and `fd_table`. Every NVM file name has an inode, without content as long as
there is no such file. -/
@[ext] structure Tables where
  dir : String → Option Nat
  nvmDir : String → NvmIno
  fds : Nat → Option Nat
  fdTable : Nat → Filedes
  capacity : Nat
  inos : Nat
  nvmInos : Nat

/-- The guards are those of the descriptors, and one (`none`) that is not in the table yet. -/
structure World where
  tables : Tables
  files : Nat → File
  nvms : NvmIno → Option NvmFile
  descs : Nat → Desc
  guards : Option Nat → Aofguard

namespace Tables

/-- Take the name `q` off its NVM inode. -/
def dropNvm (T : Tables) (q : String) : Tables :=
  { T with nvmDir := Function.update T.nvmDir q (q, T.nvmInos + 1), nvmInos := T.nvmInos + 1 }

/-- Give the NVM inode named `q` the name `r`. -/
def moveNvm (T : Tables) (q r : String) : Tables :=
  if q = r then T else { T with nvmDir := Function.update T.nvmDir r (T.nvmDir q) }.dropNvm q

def setEntry (T : Tables) (fd : Nat) (e : Filedes) : Tables := { T with fdTable := Function.update T.fdTable fd e }

/-- The entry of `fd`, if it is inside the table. -/
def entry (T : Tables) (fd : Nat) : Filedes := if fd < T.capacity then T.fdTable fd else .blank

end Tables

/-! ## Ports -/

/-- A log file, its NVM file, a descriptor of the file, and a guard. -/
structure Port where
  ino : Nat
  nvm : NvmIno
  fd : Nat
  key : Option Nat

namespace Port

def view (v : Port) (w : World) : Sys := ⟨w.files v.ino, w.descs v.fd, w.nvms v.nvm, w.guards v.key⟩

def put (v : Port) (s : Sys) (w : World) : World :=
  { w with
    files := Function.update w.files v.ino s.file
    descs := Function.update w.descs v.fd s.desc
    nvms := Function.update w.nvms v.nvm s.nvm
    guards := Function.update w.guards v.key s.guard }

def run {α : Type} (v : Port) (c : Cmd Syscall Sys α) : Cmd Syscall World α := c.zoom v.view v.put

end Port

/-- The port of `fd` with the NVM inode `n`. -/
def Tables.port (T : Tables) (fd : Nat) (n : NvmIno) (key : Option Nat) : Port := ⟨(T.fds fd).getD 0, n, fd, key⟩

/-- A step of the thread of the guard of some descriptor. -/
inductive WTick : World → World → Prop
  | mk {w : World} {fd : Nat} {n : NvmIno} {s : Sys} : (w.tables.fdTable fd).aofguard = some n →
      Tick (fun _ k => k = 0) ((w.tables.port fd n (some fd)).view w) s →
      WTick w ((w.tables.port fd n (some fd)).put s w)

/-- The threads run. -/
abbrev WTicks : World → World → Prop := Relation.ReflTransGen WTick

/-! ## System calls on the directories and descriptors -/

def setTables (f : Tables → Tables) : Cmd Syscall World Unit := .modify fun w => { w with tables := f w.tables }

def stepTables (f : Tables → Tables) : Cmd Syscall World Unit := .step fun w => { w with tables := f w.tables }

/-- The flags of `open` that matter. -/
structure Flags where
  creat : Bool
  trunc : Bool
  append : Bool
  writable : Bool

/-- Open the inode `i` as `fd`. -/
def World.opened (w : World) (flags : Flags) (fd i : Nat) : World :=
  { w with
    tables := { w.tables with fds := Function.update w.tables.fds fd (some i) }
    files := if flags.trunc then Function.update w.files i ((w.files i).truncate 0) else w.files
    descs := Function.update w.descs fd ⟨flags.append, flags.writable, 0⟩ }

/-- A new empty file with the name `place`. -/
def World.created (w : World) (place : String) : World :=
  { w with
    tables := { w.tables with
      dir := Function.update w.tables.dir place (some w.tables.inos), inos := w.tables.inos + 1 }
    files := Function.update w.files w.tables.inos (.durable []) }

/-- `fd` is the descriptor that the kernel has chosen; the result is whether the call succeeds. -/
def syscallOpen (place : String) (flags : Flags) (fd : Nat) : Cmd Syscall World Bool := do
  let ok ← Cmd.succeeds .other
  if ok then
    Cmd.stepGet fun w =>
      match w.tables.dir place with
      | some i => (true, w.opened flags fd i)
      | none => if flags.creat then (true, (w.created place).opened flags fd w.tables.inos) else (false, w)
  else pure false

def syscallClose (fd : Nat) : Cmd Syscall World Int := do
  let ok ← Cmd.succeeds .other
  let ino ← Cmd.get (·.tables.fds fd)
  if ok && ino.isSome then
    stepTables fun T => { T with fds := Function.update T.fds fd none }
    pure 0
  else pure (-1)

def syscallFsync (fd : Nat) : Cmd Syscall World Int := do
  let ok ← Cmd.succeeds .fdatasync
  let ino ← Cmd.get (·.tables.fds fd)
  match ino with
  | some i =>
    if ok then
      Cmd.step fun w => { w with files := Function.update w.files i (w.files i).syncAll }
      pure 0
    else pure (-1)
  | none => pure (-1)

def syscallUnlink (path : String) : Cmd Syscall World Bool := do
  let ok ← Cmd.succeeds .other
  if ok then
    Cmd.stepGet fun w =>
      ((w.tables.dir path).isSome,
        { w with tables := { w.tables with dir := Function.update w.tables.dir path none } })
  else pure false

/-- Give the file named `old` the name `new`. -/
def Tables.moveFile (T : Tables) (old new : String) : Tables :=
  if old = new ∨ T.dir old = none then T
  else { T with dir := Function.update (Function.update T.dir new (T.dir old)) old none }

def syscallRename (old new : String) : Cmd Syscall World Bool := do
  let ok ← Cmd.succeeds .other
  if ok then
    Cmd.stepGet fun w => ((w.tables.dir old).isSome, { w with tables := w.tables.moveFile old new })
  else pure false

/-- `faccessat` on an NVM file name. -/
def nvmExists (q : String) : Cmd Syscall World Bool := do
  let ok ← Cmd.succeeds .other
  let found ← Cmd.get fun w => (w.nvms (w.tables.nvmDir q)).isSome
  pure (ok && found)

def unlinkatNvm (q : String) : Cmd Syscall World Bool := do
  let ok ← Cmd.succeeds .other
  if ok then
    stepTables (·.dropNvm q)
    pure true
  else pure false

def renameatNvm (q r : String) : Cmd Syscall World Bool := do
  let ok ← Cmd.succeeds .other
  if ok then
    stepTables (·.moveNvm q r)
    pure true
  else pure false

/-! ## `open` -/

/-- `while(new_capacity <= fd) new_capacity *= 2`, at most `fuel` times. -/
def newCapacity (fd : Nat) : Nat → Nat → Nat
  | 0, capacity => capacity
  | fuel + 1, capacity => if capacity ≤ fd then newCapacity fd fuel (capacity * 2) else capacity

/-- The `realloc` and `memset` of `handle_open`: a table with room for `fd`. -/
def Tables.grow (T : Tables) (fd : Nat) : Tables :=
  { T with
    fdTable := fun k => if T.capacity ≤ k ∧ k < newCapacity fd (fd + 1) T.capacity then .blank else T.fdTable k
    capacity := newCapacity fd (fd + 1) T.capacity }

def growTable (fd : Nat) : Cmd Syscall World Bool := do
  let capacity ← Cmd.get (·.tables.capacity)
  if capacity ≤ fd then
    let ok ← Cmd.succeeds .other
    if ok then
      setTables (·.grow fd)
      pure true
    else pure false
  else pure true

/-- A guard for `fd` that is not in the table yet; `none` is an error. -/
def newGuard (cfg : Config) (file : String) (fd : Nat) : Cmd Syscall World (Option (Option NvmIno)) := do
  if cfg.needNvm file then
    let malloc ← Cmd.succeeds .other
    if malloc then
      Cmd.modify fun w => { w with guards := Function.update w.guards none .blank }
      let n ← Cmd.get (·.tables.nvmDir (cfg.nvmFileName file))
      let v ← Cmd.get (·.tables.port fd n none)
      let ok ← v.run (aofguardInit cfg.nvmSize false)
      pure (if ok then some (some n) else none)
    else pure none
  else pure (some none)

/-- `aofguard_deinit` of the guard of `fd`, if it has one. -/
def dropGuard (fd : Nat) : Cmd Syscall World Bool := do
  let e ← Cmd.get (·.tables.fdTable fd)
  match e.aofguard with
  | some n =>
    let v ← Cmd.get (·.tables.port fd n (some fd))
    let ok ← v.run aofguardDeinit
    if ok then
      setTables fun T => T.setEntry fd { T.fdTable fd with aofguard := none }
      pure true
    else pure false
  | none => pure true

/-- `filedes->aofguard = aofguard`. -/
def storeGuard (fd : Nat) (guard : Option NvmIno) : Cmd Syscall World Unit := .modify fun w =>
  { w with
    tables := w.tables.setEntry fd { w.tables.fdTable fd with aofguard := guard }
    guards := if guard.isSome then Function.update w.guards (some fd) (w.guards none) else w.guards }

/-- `filedes->name = strdup(name)`. -/
def setName (fd : Nat) (name : String) : Cmd Syscall World Bool := do
  let ok ← Cmd.succeeds .other
  setTables fun T => T.setEntry fd { T.fdTable fd with name := if ok then some name else none }
  pure ok

def handleOpen (cfg : Config) (file : String) (fd : Nat) : Cmd Syscall World Bool := do
  let fstat ← Cmd.succeeds .other
  if fstat then
    let guard ← newGuard cfg file fd
    match guard with
    | some guard =>
      let grown ← growTable fd
      if grown then
        let capacity ← Cmd.get (·.tables.capacity)
        Cmd.check (fd < capacity)
        let named ← setName fd file
        if named then
          let dropped ← dropGuard fd
          if dropped then
            storeGuard fd guard
            pure true
          else pure false
        else pure false
      else pure false
    | none => pure false
  else pure false

/-- `open`, `open64`, `openat` and `openat64` of `file`, which the kernel finds at `place`. -/
def openAt (cfg : Config) (place file : String) (flags : Flags) (fd : Nat) : Cmd Syscall World Int := do
  let opened ← syscallOpen place flags fd
  if opened then
    let ok ← handleOpen cfg file fd
    if ok then pure fd
    else
      let _ ← syscallClose fd
      pure (-1)
  else pure (-1)

/-! ## `write`, `fsync`, `fdatasync`, `close` -/

def write (fd : Nat) (data : List Byte) : Cmd Syscall World Int := do
  if data.length = 0 then pure 0
  else
    let e ← Cmd.get (·.tables.entry fd)
    match e.aofguard with
    | some n =>
      let v ← Cmd.get (·.tables.port fd n (some fd))
      let ok ← v.run (aofguardWrite data)
      pure (if ok then data.length else -1)
    | none =>
      let ino ← Cmd.get (·.tables.fds fd)
      match ino with
      | some i =>
        let k ← Port.run ⟨i, ("", 0), fd, none⟩ (syscallWrite data)
        pure (if k = 2 ^ 64 - 1 then -1 else k)
      | none => pure (-1)

/-- `fsync` and `fdatasync`. -/
def syncCall (cfg : Config) (fd : Nat) : Cmd Syscall World Int := do
  let e ← Cmd.get (·.tables.entry fd)
  if cfg.disableSync && e.aofguard.isSome then pure 0 else syscallFsync fd

def fsync (cfg : Config) (fd : Nat) : Cmd Syscall World Int := syncCall cfg fd

def fdatasync (cfg : Config) (fd : Nat) : Cmd Syscall World Int := syncCall cfg fd

def close (fd : Nat) : Cmd Syscall World Int := do
  let capacity ← Cmd.get (·.tables.capacity)
  if fd < capacity then
    setTables fun T => T.setEntry fd { T.fdTable fd with name := none }
    let ok ← dropGuard fd
    if ok then syscallClose fd else pure (-1)
  else syscallClose fd

/-! ## `unlink` and `rename` -/

def unlink (cfg : Config) (file : String) : Cmd Syscall World Int := do
  let ok ← syscallUnlink file
  if ok then
    if cfg.needNvm file then
      let found ← nvmExists (cfg.nvmFileName file)
      if found then
        let ok ← unlinkatNvm (cfg.nvmFileName file)
        pure (if ok then 0 else -1)
      else pure 0
    else pure 0
  else pure (-1)

/-- Run `body` on the entries among `fds` with the name `name`, until it fails. -/
def forEntries (name : String) (body : Nat → Cmd Syscall World Bool) : List Nat → Cmd Syscall World Bool
  | [] => pure true
  | fd :: fds => do
    let e ← Cmd.get (·.tables.fdTable fd)
    if e.name = some name then
      let ok ← body fd
      if ok then forEntries name body fds else pure false
    else forEntries name body fds

/-- A guard with a reset NVM file for the open descriptor `fd`. -/
def attachGuard (cfg : Config) (newpath : String) (fd : Nat) : Cmd Syscall World Bool := do
  let e ← Cmd.get (·.tables.fdTable fd)
  Cmd.check (e.aofguard = none)
  let malloc ← Cmd.succeeds .other
  if malloc then
    let n ← Cmd.get (·.tables.nvmDir (cfg.nvmFileName newpath))
    Cmd.modify fun w => { w with
      tables := w.tables.setEntry fd { w.tables.fdTable fd with aofguard := some n }
      guards := Function.update w.guards (some fd) .blank }
    let v ← Cmd.get (·.tables.port fd n (some fd))
    v.run (aofguardInit cfg.nvmSize true)
  else pure false

def detachGuard (fd : Nat) : Cmd Syscall World Bool := do
  let e ← Cmd.get (·.tables.fdTable fd)
  Cmd.check (e.aofguard ≠ none)
  dropGuard fd

/-- The NVM file of `oldpath` becomes the one of `newpath`; without one, that of `newpath` goes. -/
def moveNvm (cfg : Config) (oldpath newpath : String) : Cmd Syscall World Bool := do
  let found ← nvmExists (cfg.nvmFileName oldpath)
  if found then renameatNvm (cfg.nvmFileName oldpath) (cfg.nvmFileName newpath)
  else
    let found ← nvmExists (cfg.nvmFileName newpath)
    if found then unlinkatNvm (cfg.nvmFileName newpath) else pure true

/-- The NVM file of `oldpath` goes, and with it the guards of the descriptors. -/
def removeNvm (cfg : Config) (oldpath : String) : Cmd Syscall World Bool := do
  let found ← nvmExists (cfg.nvmFileName oldpath)
  if found then
    let ok ← unlinkatNvm (cfg.nvmFileName oldpath)
    if ok then
      let capacity ← Cmd.get (·.tables.capacity)
      forEntries oldpath detachGuard (List.range capacity)
    else pure false
  else pure true

/-- The last loop of `rename`. -/
def renameEntries (oldpath newpath : String) : Cmd Syscall World Int := do
  let capacity ← Cmd.get (·.tables.capacity)
  let ok ← forEntries oldpath (setName · newpath) (List.range capacity)
  pure (if ok then 0 else -1)

/-- `rename`; a guard that cannot be attached ends it with 0. -/
def rename (cfg : Config) (oldpath newpath : String) : Cmd Syscall World Int := do
  let ok ← syscallRename oldpath newpath
  if ok then
    if cfg.needNvm newpath then
      if cfg.needNvm oldpath then
        let ok ← moveNvm cfg oldpath newpath
        if ok then renameEntries oldpath newpath else pure (-1)
      else
        let capacity ← Cmd.get (·.tables.capacity)
        let ok ← forEntries oldpath (attachGuard cfg newpath) (List.range capacity)
        if ok then renameEntries oldpath newpath else pure 0
    else if cfg.needNvm oldpath then
      let ok ← removeNvm cfg oldpath
      if ok then renameEntries oldpath newpath else pure (-1)
    else renameEntries oldpath newpath
  else pure (-1)

/-! ## Calls -/

inductive Call
  | openAt (place file : String) (flags : Flags) (fd : Nat)
  | write (fd : Nat) (data : List Byte)
  | fsync (fd : Nat)
  | fdatasync (fd : Nat)
  | close (fd : Nat)
  | unlink (file : String)
  | rename (oldpath newpath : String)

def Call.cmd (cfg : Config) : Call → Cmd Syscall World Int
  | openAt place file flags fd => Wal.openAt cfg place file flags fd
  | write fd data => Wal.write fd data
  | fsync fd => Wal.fsync cfg fd
  | fdatasync fd => Wal.fdatasync cfg fd
  | close fd => Wal.close fd
  | unlink file => Wal.unlink cfg file
  | rename oldpath newpath => Wal.rename cfg oldpath newpath

end PmemProgram.Wal
