import PmemProgram.Lib.Cmd
import PmemProgram.Lib.Ring

/-!
# The guard of one log file (`wal_accel/src/aofguard.c`)

A log file on a disk, with a ring buffer in an NVM file that holds what `fdatasync` has not covered yet.

* `File` : the content as a reader sees it, and how much of it a power failure must keep (`File.Survives`);
* `NvmFile` : the two metadata words and the ring, durable when a store returns;
* `Tick` : a step of `afsync_thread`, which runs beside the commands;
* `aofguardInit`, `aofguardWrite`, `aofguardDeinit` : the three functions of `aofguard.h`.

`size_t` values are natural numbers below `2 ^ 64` and additions wrap (`sadd`). A system call asks for its outcome:
`0` is success, and `write` may also fail (`1`) or be short (`k + 2` for `k` bytes).
-/

namespace PmemProgram.Wal
open PmemProgram.Lib PmemProgram.Lib.Ring

abbrev Byte := UInt8

/-- The system calls and semaphore operations whose failures are told apart. -/
inductive Syscall
  | write
  | fdatasync
  | semWait
  | semPost
  | other
deriving DecidableEq

def blockSize : Nat := 1 <<< 20

def sadd (a b : Nat) : Nat := (a + b) % 2 ^ 64

def makeMixedMeta (fsyncLen bufStart : Nat) : Nat :=
  (fsyncLen &&& 0xffffffffffff) ||| (((bufStart / blockSize) <<< 48) % 2 ^ 64 &&& 0xffff000000000000)

def getFsyncLen (mixedMeta : Nat) : Nat := mixedMeta &&& 0xffffffffffff

def getBufStart (mixedMeta : Nat) : Nat := blockSize * ((mixedMeta >>> 48) &&& 0xffff)

/-! ## Files -/

/-- A regular file. A power failure keeps the first `synced` bytes and leaves at most `limit` bytes. Each write and each
truncation is in `changes`, with its offset. -/
structure File where
  data : List Byte
  synced : Nat
  limit : Nat
  changes : List Nat
  synced_le : synced ≤ data.length
  le_limit : data.length ≤ limit

namespace File

/-- A file all of which is on the disk. -/
def durable (data : List Byte) : File := ⟨data, data.length, data.length, [], le_rfl, le_rfl⟩

/-- The file holds `L`, and all of it is on the disk. -/
structure OnDisk (f : File) (L : List Byte) : Prop where
  data : f.data = L
  synced : f.synced = L.length
  limit : f.limit = L.length

/-- What a power failure may leave of the file: the bytes after the first `synced` ones are lost, kept or garbage. -/
def Survives (f f' : File) : Prop :=
  f.synced ≤ f'.data.length ∧ f'.data.length ≤ f.limit ∧ f'.data.take f.synced = f.data.take f.synced ∧
    f'.synced = f'.data.length ∧ f'.limit = f'.data.length ∧ f'.changes = []

def pwrite (f : File) (off : Nat) (d : List Byte) : File where
  data := f.data.take off ++ List.replicate (off - f.data.length) 0 ++ d ++ f.data.drop (off + d.length)
  synced := min f.synced off
  limit := max f.limit (off + d.length)
  changes := f.changes ++ [off]
  synced_le := by
    have := f.synced_le
    simp only [List.length_append, List.length_take, List.length_replicate]
    omega
  le_limit := by
    have := f.le_limit
    simp only [List.length_append, List.length_take, List.length_replicate, List.length_drop]
    omega

def truncate (f : File) (n : Nat) : File where
  data := f.data.take n ++ List.replicate (n - f.data.length) 0
  synced := min f.synced n
  limit := max f.limit n
  changes := f.changes ++ [n]
  synced_le := by
    have := f.synced_le
    simp only [List.length_append, List.length_take, List.length_replicate]
    omega
  le_limit := by
    have := f.le_limit
    simp only [List.length_append, List.length_take, List.length_replicate]
    omega

/-- How many of the first `n` bytes no change after the first `c` ones has reached. -/
def intact (f : File) (n c : Nat) : Nat := (f.changes.drop c).foldl min n

/-- An `fdatasync` that found `n` bytes after `c` changes is done. It has covered the bytes that no later change has
reached, and the length if there was no later change. -/
def sync (f : File) (n c : Nat) : File where
  data := f.data
  synced := max f.synced (min (f.intact n c) f.data.length)
  limit := if f.changes.length = c then f.data.length else f.limit
  changes := f.changes
  synced_le := max_le f.synced_le (min_le_right _ _)
  le_limit := by
    split_ifs
    · exact le_rfl
    · exact f.le_limit

/-- An `fdatasync` during which nothing else happens. -/
def syncAll (f : File) : File := f.sync f.data.length f.changes.length

theorem intact_all (f : File) (n : Nat) : f.intact n f.changes.length = n := by
  simp [intact]

@[simp] theorem syncAll_synced (f : File) : f.syncAll.synced = f.data.length := by
  have := f.synced_le
  simp only [syncAll, sync, intact_all]
  omega

@[simp] theorem syncAll_limit (f : File) : f.syncAll.limit = f.data.length := if_pos rfl

@[simp] theorem sync_data (f : File) (n c : Nat) : (f.sync n c).data = f.data := rfl

@[simp] theorem syncAll_data (f : File) : f.syncAll.data = f.data := rfl

theorem synced_le_sync (f : File) (n c : Nat) : f.synced ≤ (f.sync n c).synced := le_max_left _ _

/-- A change leaves intact what was so before, up to its offset. -/
theorem intact_change {f g : File} {off : Nat} (h : g.changes = f.changes ++ [off]) (n c : Nat) :
    min (f.intact n c) off ≤ g.intact n c := by
  rw [intact, intact, h, List.drop_append, List.foldl_append]
  cases c - f.changes.length with
  | zero => exact le_rfl
  | succ j => simp

end File

/-- An open descriptor: the flags that matter and the offset. -/
structure Desc where
  append : Bool
  writable : Bool
  offset : Nat
deriving DecidableEq

/-- `write(2)` of all of `d`: at the end of the file in append mode, else at the offset. -/
def Desc.write (c : Desc) (f : File) (d : List Byte) : File × Desc :=
  if d.length = 0 then (f, c)
  else
    let off := if c.append then f.data.length else c.offset
    (f.pwrite off d, { c with offset := off + d.length })

/-- An NVM file: its size, the words at offsets 0 and 64, and the bytes from offset 128 on. -/
structure NvmFile where
  size : Nat
  mixed : Nat
  bufEnd : Nat
  data : Nat → Byte

/-- A new file has no bytes, and `ftruncate` fills it with zeros. -/
def NvmFile.empty : NvmFile := ⟨0, 0, 0, fun _ => 0⟩

/-! ## The guard -/

/-- Where `afsync_thread` is: not running, before `sem_wait`, in `fdatasync` (started with `n` bytes in the file, after
`c` changes of it), before `sem_post`, or returned after an error. -/
inductive Afsync
  | none
  | idle
  | syncing (n c : Nat)
  | synced
  | exited
deriving DecidableEq

structure Aofguard where
  fsyncLen : Nat
  capacity : Nat
  start : Nat
  len : Nat
  blockCount : Nat
  semStart : Nat
  semDone : Nat
  thread : Afsync
deriving DecidableEq

/-- A guard before `aofguard_init`. -/
def Aofguard.blank : Aofguard := ⟨0, 0, 0, 0, 0, 0, 0, .none⟩

/-- The log file, the descriptor, the NVM file of the log, and the guard. -/
structure Sys where
  file : File
  desc : Desc
  nvm : Option NvmFile
  guard : Aofguard

/-- The mapped NVM file. -/
def Sys.mapped (s : Sys) : NvmFile := s.nvm.getD .empty

def setGuard (f : Aofguard → Aofguard) : Cmd Syscall Sys Unit := .modify fun s => { s with guard := f s.guard }

/-- `nvm_set_64`, on the word that `f` sets. -/
def nvmSet64 (f : NvmFile → NvmFile) : Cmd Syscall Sys Unit := .step fun s => { s with nvm := s.nvm.map f }

/-- `nvm_memcpy` to offset `pos` of the buffer; a failure leaves any subset of the bytes. -/
def nvmMemcpy (pos : Nat) (d : List Byte) : Cmd Syscall Sys Unit :=
  .pieces fun m s => { s with nvm := s.nvm.map fun x => { x with data := put x.data pos d m } }

def Sys.write (s : Sys) (d : List Byte) : Sys :=
  { s with file := (s.desc.write s.file d).1, desc := (s.desc.write s.file d).2 }

/-- The answers of `write`: full, `-1`, or short. -/
def syscallWrite (d : List Byte) : Cmd Syscall Sys Nat := .ask .write fun n => do
  let writable ← Cmd.get (·.desc.writable)
  if writable = false ∨ 2 ^ 63 ≤ d.length ∨ n = 1 then pure (2 ^ 64 - 1)
  else
    let k := if n = 0 then d.length else min (n - 2) d.length
    Cmd.stepGet fun s => (k, s.write (d.take k))

def syscallFtruncate (n : Nat) : Cmd Syscall Sys Bool := do
  let ok ← Cmd.succeeds .other
  let writable ← Cmd.get (·.desc.writable)
  if ok && writable then
    Cmd.step fun s => { s with file := s.file.truncate n }
    pure true
  else pure false

/-! ## The background thread -/

/-- A step of `afsync_thread`, with the outcome `n` of its call. -/
inductive Tick (A : Syscall → Nat → Prop) : Sys → Sys → Prop
  | wait {s : Sys} {n : Nat} : A .semWait n → s.guard.thread = .idle → 0 < s.guard.semStart →
      Tick A s { s with
        guard := if n = 0 then
            { s.guard with
              semStart := s.guard.semStart - 1
              thread := .syncing s.file.data.length s.file.changes.length }
          else { s.guard with thread := .exited } }
  | sync {s : Sys} {n k c : Nat} : A .fdatasync n → s.guard.thread = .syncing k c →
      Tick A s (if n = 0 then { s with file := s.file.sync k c, guard := { s.guard with thread := .synced } }
        else { s with guard := { s.guard with thread := .exited } })
  | post {s : Sys} {n : Nat} : A .semPost n → s.guard.thread = .synced →
      Tick A s { s with
        guard := if n = 0 then { s.guard with semDone := s.guard.semDone + 1, thread := .idle }
          else { s.guard with thread := .exited } }

/-! ## `aofguard_init` -/

/-- The recovery branch from the first `write` on. -/
def rewriteTail : Cmd Syscall Sys Bool := do
  let g ← Cmd.get Sys.guard
  let nvm ← Cmd.get Sys.mapped
  if sadd g.start g.len ≤ g.capacity then
    let k ← syscallWrite (slice nvm.data g.start g.len)
    pure (k == g.len)
  else
    let frontSz := g.capacity - g.start
    let k ← syscallWrite (slice nvm.data g.start frontSz)
    if k = frontSz then
      let backSz := g.len - frontSz
      let k ← syscallWrite (slice nvm.data 0 backSz)
      pure (k == backSz)
    else pure false

/-- The length that `buf_end` stands for. -/
def decodeLen (capacity start bufEnd : Nat) : Nat :=
  if start ≤ bufEnd then bufEnd - start else capacity + bufEnd - start

/-- The recovery branch, for a file of `size` bytes. -/
def recover (size : Nat) : Cmd Syscall Sys Bool := do
  let capacity ← Cmd.get (·.guard.capacity)
  let nvm ← Cmd.get Sys.mapped
  let fsyncLen := getFsyncLen nvm.mixed
  let start := getBufStart nvm.mixed
  setGuard fun g => { g with fsyncLen, start }
  if capacity ≤ start then pure false
  else if capacity ≤ nvm.bufEnd then pure false
  else
    setGuard fun g => { g with len := decodeLen capacity start nvm.bufEnd }
    if size < fsyncLen then pure false
    else
      let ok ← (if fsyncLen < size then syscallFtruncate fsyncLen else pure true)
      if ok then rewriteTail else pure false

/-- The fresh and reset branch, for a file of `size` bytes. -/
def resetMeta (size : Nat) : Cmd Syscall Sys Bool := do
  setGuard fun g => { g with fsyncLen := size, start := 0, len := 0 }
  nvmSet64 fun x => { x with mixed := size }
  nvmSet64 fun x => { x with bufEnd := 0 }
  pure true

def startThread : Cmd Syscall Sys Bool := do
  setGuard fun g => { g with blockCount := 0 }
  let started ← Cmd.succeeds .other
  let done ← Cmd.succeeds .other
  let created ← Cmd.succeeds .other
  if started && done && created then
    setGuard fun g => { g with semStart := 0, semDone := 0, thread := .idle }
    pure true
  else pure false

/-- Open or create the NVM file with `nvmFileSize` bytes. -/
def openNvm (nvmFileSize : Nat) : Cmd Syscall Sys Bool := do
  let nvm ← Cmd.get Sys.nvm
  match nvm with
  | some x => do
    let opened ← Cmd.succeeds .other
    let fstat ← Cmd.succeeds .other
    pure (opened && fstat && x.size == nvmFileSize)
  | none => do
    let opened ← Cmd.succeeds .other
    if opened then
      Cmd.step fun s => { s with nvm := some .empty }
      let ok ← Cmd.succeeds .other
      if ok then
        Cmd.step fun s => { s with nvm := s.nvm.map fun x => { x with size := nvmFileSize } }
        pure true
      else pure false
    else pure false

/-- The rest once the NVM file is mapped; `trust` says that its words are to be believed. -/
def setUp (capacity : Nat) (trust : Bool) : Cmd Syscall Sys Bool := do
  let size ← Cmd.get (·.file.data.length)
  setGuard fun g => { g with capacity }
  let ok ← (if trust then recover size else resetMeta size)
  if ok then startThread else pure false

def aofguardInit (nvmSize : Nat) (reset : Bool) : Cmd Syscall Sys Bool := do
  let blockCount := nvmSize / blockSize
  if blockCount < 2 then pure false
  else if 65536 < blockCount then pure false
  else
    let nvmFileExist ← Cmd.get (·.nvm.isSome)
    let opened ← openNvm (2 * 64 + blockSize * blockCount)
    if opened then
      let mapped ← Cmd.succeeds .other
      let fstat ← Cmd.succeeds .other
      if mapped && fstat then setUp (blockSize * blockCount) (nvmFileExist && !reset) else pure false
    else pure false

/-! ## `aofguard_write` -/

/-- `RING_BUF_FORWARD`; `RING_BUF_END` is the same on a copy. -/
def ringBufForward (val addition capacity : Nat) : Cmd Syscall Sys Nat := do
  let v := if capacity ≤ sadd val addition then sadd val addition - capacity else sadd val addition
  Cmd.check (v < capacity)
  pure v

def updateAfterFsync (blockCount : Nat) : Cmd Syscall Sys Unit :=
  if blockCount = 0 then pure ()
  else do
    let g ← Cmd.get Sys.guard
    let fsyncSize := blockSize * blockCount % 2 ^ 64
    let start ← ringBufForward g.start fsyncSize g.capacity
    Cmd.check (start % blockSize = 0)
    Cmd.check (fsyncSize ≤ g.len)
    let fsyncLen := sadd g.fsyncLen fsyncSize
    setGuard fun g => { g with start, len := g.len - fsyncSize, fsyncLen }
    nvmSet64 fun x => { x with mixed := makeMixedMeta fsyncLen start }

/-- The blocks of the outstanding request are on the disk. -/
def creditAfsync : Cmd Syscall Sys Bool := do
  let blockCount ← Cmd.get (·.guard.blockCount)
  updateAfterFsync blockCount
  setGuard fun g => { g with blockCount := 0 }
  pure true

def handleAfsyncIfFinish : Cmd Syscall Sys Bool := do
  let blockCount ← Cmd.get (·.guard.blockCount)
  if blockCount = 0 then pure true
  else
    let ok ← Cmd.succeeds .semWait
    if ok then
      let taken ← Cmd.stepGet fun s =>
        if 0 < s.guard.semDone then (true, { s with guard := { s.guard with semDone := s.guard.semDone - 1 } })
        else (false, s)
      if taken then creditAfsync else pure true
    else pure false

def doFsync : Cmd Syscall Sys Bool := do
  let ok ← Cmd.succeeds .fdatasync
  if ok then
    Cmd.step fun s => { s with file := s.file.syncAll }
    let len ← Cmd.get (·.guard.len)
    updateAfterFsync (len / blockSize)
    pure true
  else pure false

def waitAfsyncDone : Cmd Syscall Sys Bool := do
  let blockCount ← Cmd.get (·.guard.blockCount)
  if blockCount = 0 then pure true
  else
    let ok ← Cmd.succeeds .semWait
    if ok then
      Cmd.await fun s =>
        if 0 < s.guard.semDone then some { s with guard := { s.guard with semDone := s.guard.semDone - 1 } } else none
      creditAfsync
    else pure false

/-- The copy into the ring, in two parts when it wraps. -/
def copyToRing (writePos capacity : Nat) (data : List Byte) : Cmd Syscall Sys Unit :=
  if sadd writePos data.length ≤ capacity then nvmMemcpy writePos data
  else do
    let frontSz := capacity - writePos
    nvmMemcpy writePos (data.take frontSz)
    nvmMemcpy 0 (data.drop frontSz)

/-- The end of `aofguard_write`: ask the thread for an `fdatasync` when there is a full block. -/
def requestAfsync : Cmd Syscall Sys Bool := do
  let g ← Cmd.get Sys.guard
  if blockSize ≤ g.len ∧ g.blockCount = 0 then
    setGuard fun g => { g with blockCount := g.len / blockSize }
    let ok ← Cmd.succeeds .semPost
    if ok then
      Cmd.step fun s => { s with guard := { s.guard with semStart := s.guard.semStart + 1 } }
      pure true
    else pure false
  else pure true

/-- `aofguard_write` from the assertion that there is room on. -/
def appendRecord (data : List Byte) : Cmd Syscall Sys Bool := do
  let g ← Cmd.get Sys.guard
  Cmd.check (sadd g.len data.length ≤ g.capacity)
  let k ← syscallWrite data
  if k = data.length then
    let writePos ← ringBufForward g.start g.len g.capacity
    copyToRing writePos g.capacity data
    let len := sadd g.len data.length
    setGuard fun g => { g with len }
    Cmd.check (len ≤ g.capacity)
    let bufEnd ← ringBufForward g.start len g.capacity
    nvmSet64 fun x => { x with bufEnd }
    requestAfsync
  else pure false

/-- Wait for the outstanding `fdatasync`, and make one if that is not enough. -/
def makeRoom (len : Nat) : Cmd Syscall Sys Bool := do
  let g ← Cmd.get Sys.guard
  if g.capacity < sadd g.len len then
    if g.capacity < sadd (g.len % blockSize) len then pure false
    else
      let ok ← waitAfsyncDone
      if ok then
        let g ← Cmd.get Sys.guard
        if g.capacity < sadd g.len len then doFsync else pure true
      else pure false
  else pure true

def aofguardWrite (data : List Byte) : Cmd Syscall Sys Bool := do
  let ok ← handleAfsyncIfFinish
  if ok then
    let ok ← makeRoom data.length
    if ok then appendRecord data else pure false
  else pure false

/-! ## `aofguard_deinit` -/

/-- The thread is cancelled wherever it is; one that has returned does not join as cancelled. -/
def aofguardDeinit : Cmd Syscall Sys Bool := do
  let cancelled ← Cmd.succeeds .other
  let joined ← Cmd.succeeds .other
  if cancelled && joined then
    let thread ← Cmd.stepGet fun s => (s.guard.thread, { s with guard := { s.guard with thread := .none } })
    Cmd.check (thread ≠ .exited)
    Cmd.succeeds .other
  else pure false

end PmemProgram.Wal
