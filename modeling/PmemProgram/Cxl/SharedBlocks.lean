import PmemProgram.Cxl.CacheFlush
import PmemProgram.Cxl.Exclusion
import PmemProgram.Cxl.Mailbox
import PmemProgram.Lib.Cache

/-!
# Blocks shared under the locks (`lock_write.c`, `lock_read.c`)

The whole system: the lock service, any number of clients on any number of hosts, and the blocks in a memory that the hosts
cache without coherence. A writer fills a buffer, takes the lock, copies the buffer to the block and flushes it; a reader
takes the lock, flushes its copies of the block, copies it out and compares the checksum with the one in the block. Copies go
byte by byte in any order, lines come and go in every cache at any time, and a flush is done when it is executed (there is no
fence after `__cflushopt`). The server has memory for its nodes, words arrive whole, and no connection fails or is closed.

* `Sharing`, `SharingStep` : the state, with the reads and writes so far in `log`, and the steps;
* `LogRight` : every read of the log gets the last write of its block;
* `Mapped.cflush`, `Mapped.cflushopt` : a flush of a block reaches all its lines;
* `Doing` : how far a client is in its critical section, in terms of the memory and the caches.
-/

namespace PmemProgram.Cxl
open PmemProgram.Lib.Cache

/-- `LOCK_BLOCK_SIZE`. -/
@[irreducible] def lockBlockSize : Nat := 8 * 1024 * 1024

theorem lockBlockSize_eq : lockBlockSize = blockSize := by
  unfold lockBlockSize blockSize
  rfl

theorem lockBlockSize_lines : lockBlockSize = 64 * 131072 := by
  unfold lockBlockSize
  rfl

/-- `addr = start + i * LOCK_BLOCK_SIZE`. -/
def blockAddr (start b : Nat) : Nat := start + b * lockBlockSize

/-- The address of a byte of a block. -/
def cell (start b : Nat) (k : Fin blockSize) : Nat := blockAddr start b + k

/-- Where a client is in its critical section: before its first step there, with the bytes that it has still to copy, with
the lines that it has still to flush, or before `releaselock`. -/
inductive Work
  | entered
  | copy (todo : Finset (Fin blockSize))
  | flush (todo : List Address)
  | finished

/-- A completed write, or a read with the outcome of its comparison. -/
inductive Event
  | wrote (b : Nat) (content : Block)
  | read (b : Nat) (content : Block) (ok : Bool)

/-- The connections, the memory and the caches, and the clients with their buffers. -/
structure Sharing (ι η : Type) where
  net : Net ι
  memory : Shared η Byte
  work : ι → Work
  data : ι → Block
  log : List Event

theorem crc_lt (j : Fin 4) : blockSize - 4 + j.val < blockSize := by
  have := four_lt_blockSize
  omega

section
variable {ι η : Type} [DecidableEq ι] [DecidableEq η] (role : ι → Role) (host : ι → η) (start : Nat)

/-- `*(uint32_t *)(addr + LOCK_BLOCK_SIZE - sizeof(uint32_t))`, read on a host. -/
def storedCrc (m : Shared η Byte) (h : η) (b : Nat) : Word :=
  Buffer.word fun j => m.load 64 h (cell start b ⟨blockSize - 4 + j, crc_lt j⟩)

/-- The buffer before the lock is taken: a writer fills it and seals it. -/
def Prepared : Role → Block → Block → Prop
  | .writer, _, d => ∃ content, d = withCrc content
  | .reader, before, d => d = before

/-- The client moves on in its critical section. -/
def Sharing.at (s : Sharing ι η) (c : ι) (w : Work) : Sharing ι η := { s with work := Function.update s.work c w }

/-- One step of the system. -/
inductive SharingStep : Sharing ι η → Sharing ι η → Prop
  | cache {s m} : Tick 64 s.memory m → SharingStep s { s with memory := m }
  /-- `random_select_block`, the buffer of a writer, and the first `send` of the lock loop. -/
  | request {s c uuid d} : s.net.phase c = .top → uuid < blockNum → Prepared (role c) (s.data c) d →
      SharingStep s { s with
        net := s.net.send c (.waiting uuid) (lockWord (role c).request uuid)
        data := Function.update s.data c d }
  | serve {s c x rest table r} : s.net.up c = x :: rest → handleLock true s.net.table x = some (table, r) →
      SharingStep s { s with net := s.net.reply c rest table r }
  | granted {s c uuid rest} : s.net.phase c = .waiting uuid → s.net.down c = 1 :: rest →
      SharingStep s { s.at c .entered with
        net := { s.net with
          phase := Function.update s.net.phase c (.critical uuid)
          down := Function.update s.net.down c rest } }
  | refused {s c uuid v rest} : s.net.phase c = .waiting uuid → s.net.down c = v :: rest → v ≠ 1 →
      SharingStep s { s with
        net := { s.net with down := Function.update s.net.down c rest }.send c (.waiting uuid)
          (lockWord (role c).request uuid) }
  /-- `memcpy(addr, data, LOCK_BLOCK_SIZE)` of `lock_write`. -/
  | writeStart {s c b} : role c = .writer → s.net.phase c = .critical b → s.work c = .entered →
      SharingStep s (s.at c (.copy Finset.univ))
  | writeByte {s c b todo k} : role c = .writer → s.net.phase c = .critical b → s.work c = .copy todo → k ∈ todo →
      SharingStep s { s.at c (.copy (todo.erase k)) with
        memory := s.memory.store 64 (host c) (cell start b k) (s.data c k) }
  /-- `cflush(addr, LOCK_BLOCK_SIZE)`. -/
  | writeFlush {s c b fuel before last} : role c = .writer → s.net.phase c = .critical b → s.work c = .copy ∅ →
      cflush fuel (BitVec.ofNat 64 (blockAddr start b)) (BitVec.ofNat 64 lockBlockSize) = some (before, last) →
      SharingStep s (s.at c (.flush (before ++ [last])))
  | writeDone {s c b} : role c = .writer → s.net.phase c = .critical b → s.work c = .flush [] →
      SharingStep s { s.at c .finished with log := s.log ++ [.wrote b (s.data c)] }
  /-- `cflushopt(addr, LOCK_BLOCK_SIZE)` of `lock_read`. -/
  | readStart {s c b fuel ps} : role c = .reader → s.net.phase c = .critical b → s.work c = .entered →
      cflushopt fuel (BitVec.ofNat 64 (blockAddr start b)) (BitVec.ofNat 64 lockBlockSize) = some ps →
      SharingStep s (s.at c (.flush ps))
  | flushLine {s c b p ps} : s.net.phase c = .critical b → s.work c = .flush (p :: ps) →
      SharingStep s { s.at c (.flush ps) with memory := s.memory.flush 64 (host c) (line p) }
  /-- `memcpy(data, addr, LOCK_BLOCK_SIZE)`. -/
  | readCopy {s c b} : role c = .reader → s.net.phase c = .critical b → s.work c = .flush [] →
      SharingStep s (s.at c (.copy Finset.univ))
  | readByte {s c b todo k} : role c = .reader → s.net.phase c = .critical b → s.work c = .copy todo → k ∈ todo →
      SharingStep s { s.at c (.copy (todo.erase k)) with
        data := Function.update s.data c
          (Function.update (s.data c) k (s.memory.load 64 (host c) (cell start b k))) }
  /-- The checksum of the copy, and the one in the block. -/
  | readDone {s c b} : role c = .reader → s.net.phase c = .critical b → s.work c = .copy ∅ →
      SharingStep s { s.at c .finished with
        log := s.log ++
          [.read b (s.data c) (calculateCrc32 (payload (s.data c)) == storedCrc start s.memory (host c) b)] }
  | release {s c b} : s.net.phase c = .critical b → s.work c = .finished →
      SharingStep s { s with net := s.net.send c .top (lockWord .release b) }

/-- Before any message, with nothing stored to in any cache; the blocks may hold anything. -/
structure Unused (s : Sharing ι η) : Prop where
  net : s.net = Net.init
  quiet : ∀ l, Quiet l s.memory
  log : s.log = []

/-- A writer is in its copy or its flush of the block. -/
def Busy (s : Sharing ι η) (b : Nat) : Prop :=
  ∃ c, role c = .writer ∧ s.net.phase c = .critical b ∧ s.work c ≠ .entered ∧ s.work c ≠ .finished

end

/-- What an event makes of the last write of block `b`. -/
def Event.after (b : Nat) (last : Option Block) : Event → Option Block
  | .wrote i d => if i = b then some d else last
  | .read _ _ _ => last

/-- The last completed write of a block. -/
def lastWrite (b : Nat) (log : List Event) : Option Block := log.foldl (Event.after b) none

theorem lastWrite_concat (b : Nat) (log : List Event) (e : Event) :
    lastWrite b (log ++ [e]) = e.after b (lastWrite b log) := List.foldl_concat ..

/-- A write is sealed; a read gets the last write before it, and its comparison succeeds. -/
def Event.Right (before : List Event) : Event → Prop
  | .wrote _ d => ∃ content, d = withCrc content
  | .read b d ok => ok = true ∧ lastWrite b before = some d

/-- All events of the log are right. -/
def LogRight (log : List Event) : Prop := ∀ before e, before ++ [e] <+: log → e.Right before

theorem logRight_nil : LogRight [] := by
  intro before e h
  simpa using h.length_le

theorem LogRight.concat {log : List Event} {e : Event} (h : LogRight log) (he : e.Right log) : LogRight (log ++ [e]) := by
  intro before e' hp
  rcases List.prefix_concat_iff.mp hp with heq | hp
  · obtain ⟨hb, heq⟩ := List.append_inj' heq rfl
    cases heq
    rwa [hb]
  · exact h before e' hp

/-- What is read last was sealed. -/
theorem LogRight.sealed {log : List Event} (h : LogRight log) {b : Nat} {d : Block} (hd : lastWrite b log = some d) :
    ∃ content, d = withCrc content := by
  induction log using List.reverseRecOn with
  | nil => cases hd
  | append_singleton log e ih =>
    have hlog : LogRight log := fun before e' hp => h before e' (hp.trans (List.prefix_append log [e]))
    rw [lastWrite_concat] at hd
    cases e with
    | wrote i d' =>
      have hright : ∃ content, d' = withCrc content := h log _ List.prefix_rfl
      rw [Event.after] at hd
      split_ifs at hd with hi
      · cases hd
        exact hright
      · exact ih hlog hd
    | read i d' ok => exact ih hlog hd

/-! ## Addresses -/

section
variable {start b b' : Nat} {k k' : Fin blockSize}

/-- The line of a byte: the lines before the mapping and before the block, and the ones before it in the block. -/
theorem cell_line (hstart : start % 64 = 0) (b : Nat) (k : Fin blockSize) :
    cell start b k / 64 = start / 64 + b * 131072 + k / 64 ∧ k.val / 64 < 131072 := by
  have hk := k.isLt.trans_eq (lockBlockSize_eq.symm.trans lockBlockSize_lines)
  refine ⟨?_, Nat.div_lt_of_lt_mul hk⟩
  unfold cell blockAddr
  rw [lockBlockSize_lines]
  generalize k.val = i
  omega

/-- Two bytes of one line are in the same block. -/
theorem cell_line_inj (hstart : start % 64 = 0) (h : cell start b k / 64 = cell start b' k' / 64) : b = b' := by
  obtain ⟨hk, hlt⟩ := cell_line hstart b k
  obtain ⟨hk', hlt'⟩ := cell_line hstart b' k'
  rw [hk, hk'] at h
  omega

theorem cell_inj (h : cell start b k = cell start b k') : k = k' := Fin.ext (Nat.add_left_cancel h)

/-- What `mmap` returns, with room for all blocks. -/
structure Mapped (start : Nat) : Prop where
  aligned : start % 64 = 0
  low : 64 ≤ start
  high : start + blockNum * lockBlockSize < 2 ^ 63

theorem Mapped.block (h : Mapped start) (hb : b < blockNum) :
    (BitVec.ofNat 64 (blockAddr start b)).toNat = blockAddr start b ∧
      blockAddr start b + lockBlockSize < 2 ^ 63 ∧ 64 ≤ blockAddr start b := by
  have hhigh := h.high
  have hlow := h.low
  have hle : (b + 1) * lockBlockSize ≤ blockNum * lockBlockSize := Nat.mul_le_mul_right _ hb
  rw [Nat.add_mul, Nat.one_mul] at hle
  have hend : blockAddr start b + lockBlockSize < 2 ^ 63 := by
    unfold blockAddr
    omega
  refine ⟨?_, hend, ?_⟩
  · rw [BitVec.toNat_ofNat, Nat.mod_eq_of_lt (by omega)]
  · unfold blockAddr
    omega

theorem toNat_lockBlockSize : (BitVec.ofNat 64 lockBlockSize).toNat = lockBlockSize := by
  rw [BitVec.toNat_ofNat, lockBlockSize_lines]

end

/-! ## Flushes -/

theorem flushLoop_mono {bound : Address} {fuel fuel' : Nat} {uptr : Address} {r : List Address × Address}
    (h : flushLoop bound fuel uptr = some r) (hle : fuel ≤ fuel') : flushLoop bound fuel' uptr = some r := by
  induction fuel generalizing fuel' uptr r with
  | zero => cases h
  | succ fuel ih =>
    obtain ⟨n, rfl⟩ : ∃ n, fuel' = n + 1 := ⟨fuel' - 1, by omega⟩
    rw [flushLoop] at h ⊢
    split_ifs at h ⊢ with hlt
    · obtain ⟨r', hr', rfl⟩ := Option.map_eq_some_iff.mp h
      rw [ih hr' (by omega)]
      rfl
    · exact h

section
variable {start b fuel : Nat} {ps before : List Address} {last : Address}

/-- The ends of a block as addresses. -/
theorem Mapped.ends (hm : Mapped start) (hb : b < blockNum) :
    (BitVec.ofNat 64 (blockAddr start b) + BitVec.ofNat 64 lockBlockSize : Address).toNat =
        blockAddr start b + lockBlockSize ∧
      (BitVec.ofNat 64 (blockAddr start b) + BitVec.ofNat 64 lockBlockSize - 64 : Address).toNat =
        blockAddr start b + lockBlockSize - 64 := by
  obtain ⟨haddr, hhigh, hlow⟩ := hm.block hb
  have hsum : (BitVec.ofNat 64 (blockAddr start b) + BitVec.ofNat 64 lockBlockSize : Address).toNat =
      blockAddr start b + lockBlockSize := by
    rw [BitVec.toNat_add, haddr, toNat_lockBlockSize]
    omega
  refine ⟨hsum, ?_⟩
  rw [BitVec.toNat_sub, hsum, show (64 : Address).toNat = 64 from rfl]
  omega

theorem Mapped.cflush_eq (hm : Mapped start) (hb : b < blockNum) (hfuel : blockAddr start b + lockBlockSize ≤ fuel) :
    Cxl.cflush fuel (BitVec.ofNat 64 (blockAddr start b)) (BitVec.ofNat 64 lockBlockSize) =
      some ((List.range' (blockAddr start b / 64)
        ((blockAddr start b + lockBlockSize - 64 + 63) / 64 - blockAddr start b / 64)).map lineStart,
        lineStart ((blockAddr start b + lockBlockSize - 64 + 63) / 64)) := by
  obtain ⟨haddr, hhigh, hlow⟩ := hm.block hb
  have hsub := (hm.ends hb).2
  have hN := lockBlockSize_lines
  rw [Cxl.cflush, and_not_flushAlign, haddr, flushLoop_eq (by omega) _ _ (by omega) (by omega), hsub]

theorem Mapped.cflushopt_eq (hm : Mapped start) (hb : b < blockNum)
    (hfuel : blockAddr start b + lockBlockSize ≤ fuel) :
    Cxl.cflushopt fuel (BitVec.ofNat 64 (blockAddr start b)) (BitVec.ofNat 64 lockBlockSize) =
      some ((List.range' (blockAddr start b / 64)
        ((blockAddr start b + lockBlockSize + 63) / 64 - blockAddr start b / 64)).map lineStart) := by
  obtain ⟨haddr, hhigh, hlow⟩ := hm.block hb
  have hsum := (hm.ends hb).1
  have hN := lockBlockSize_lines
  rw [Cxl.cflushopt, and_not_flushAlign, haddr, flushLoop_eq (by omega) _ _ (by omega) (by omega), hsum, Option.map_some]

/-- The flush of a writer reaches all lines of its block. -/
theorem Mapped.cflush (hm : Mapped start) (hb : b < blockNum)
    (hf : Cxl.cflush fuel (BitVec.ofNat 64 (blockAddr start b)) (BitVec.ofNat 64 lockBlockSize) = some (before, last))
    (k : Fin blockSize) : ∃ p ∈ before ++ [last], line p = cell start b k / 64 := by
  have hk := k.isLt.trans_eq lockBlockSize_eq.symm
  have hhigh := (hm.block hb).2.1
  have hN := lockBlockSize_lines
  have heq := hm.cflush_eq hb (Nat.le_add_left (blockAddr start b + lockBlockSize) fuel)
  unfold Cxl.cflush at hf heq
  rw [flushLoop_mono hf (Nat.le_add_right ..)] at heq
  simp only [Option.some.injEq, Prod.mk.injEq] at heq
  obtain ⟨rfl, rfl⟩ := heq
  have hmem : cell start b k / 64 ∈ lines
      ((List.range' (blockAddr start b / 64) ((blockAddr start b + lockBlockSize - 64 + 63) / 64 -
        blockAddr start b / 64 + 1)).map lineStart) := by
    rw [mem_lines_range (by omega)]
    unfold cell
    omega
  rw [List.range'_concat, List.map_append, List.map_singleton] at hmem
  obtain ⟨p, hp, hl⟩ := hmem
  refine ⟨p, ?_, hl⟩
  convert hp using 4
  omega

/-- The flush of a reader reaches all lines of its block. -/
theorem Mapped.cflushopt (hm : Mapped start) (hb : b < blockNum)
    (hf : Cxl.cflushopt fuel (BitVec.ofNat 64 (blockAddr start b)) (BitVec.ofNat 64 lockBlockSize) = some ps)
    (k : Fin blockSize) : ∃ p ∈ ps, line p = cell start b k / 64 := by
  have hk := k.isLt.trans_eq lockBlockSize_eq.symm
  have hhigh := (hm.block hb).2.1
  have heq := hm.cflushopt_eq hb (Nat.le_add_left (blockAddr start b + lockBlockSize) fuel)
  unfold Cxl.cflushopt at hf heq
  obtain ⟨r, hr, rfl⟩ := Option.map_eq_some_iff.mp hf
  rw [flushLoop_mono hr (Nat.le_add_right ..), Option.map_some, Option.some.injEq] at heq
  have hmem : cell start b k / 64 ∈ lines
      ((List.range' (blockAddr start b / 64) ((blockAddr start b + lockBlockSize + 63) / 64 -
        blockAddr start b / 64)).map lineStart) := by
    rw [mem_lines_range (by omega)]
    unfold cell
    omega
  rw [heq]
  exact hmem

end

/-! ## The memory and the caches -/

section
variable {η : Type} [DecidableEq η] {start b b' : Nat} {m m' : Shared η Byte} {h h' : η} {d : Block} {r : Role} {w : Work}

/-- How far a client is with its block: the bytes that it sees in it, and the lines that are back in memory. -/
def Doing (start : Nat) (m : Shared η Byte) (h : η) (b : Nat) (d : Block) : Role → Work → Prop
  | .writer, .copy todo => ∀ k, QuietBut h (cell start b k / 64) m ∧
      (k ∉ todo → Sees 64 h (cell start b k) (d k) m)
  | .writer, .flush ps => ∀ k, QuietBut h (cell start b k / 64) m ∧ Sees 64 h (cell start b k) (d k) m ∧
      ((∀ p ∈ ps, line p ≠ cell start b k / 64) →
        Quiet (cell start b k / 64) m ∧ m.mem (cell start b k) = d k)
  | .reader, .flush ps => ∀ k, (∀ p ∈ ps, line p ≠ cell start b k / 64) →
      Sees 64 h (cell start b k) (m.mem (cell start b k)) m
  | .reader, .copy todo => ∀ k, Sees 64 h (cell start b k) (m.mem (cell start b k)) m ∧
      (k ∉ todo → d k = m.mem (cell start b k))
  | _, _ => True

/-- The hardware keeps what a client has done; no line of a block that is read has been stored to. -/
theorem Doing.ticks (hdo : Doing start m h b d r w) (ht : Relation.ReflTransGen (Tick 64) m m')
    (hquiet : r = .reader → ∀ k, Quiet (cell start b k / 64) m) : Doing start m' h b d r w := by
  cases r with
  | writer =>
    cases w with
    | copy todo => exact fun k => ⟨(hdo k).1.ticks ht, fun hk => ((hdo k).2 hk).ticks ht (hdo k).1⟩
    | flush ps =>
      refine fun k => ⟨(hdo k).1.ticks ht, (hdo k).2.1.ticks ht (hdo k).1, fun hps => ?_⟩
      obtain ⟨hq, hmem⟩ := (hdo k).2.2 hps
      exact ⟨hq.ticks ht, (hq.mem_ticks ht).trans hmem⟩
    | entered => trivial
    | finished => trivial
  | reader =>
    have hmem : ∀ k, m'.mem (cell start b k) = m.mem (cell start b k) := fun k => (hquiet rfl k).mem_ticks ht
    have hsees : ∀ k, Sees 64 h (cell start b k) (m.mem (cell start b k)) m →
        Sees 64 h (cell start b k) (m'.mem (cell start b k)) m' := by
      intro k hs
      rw [hmem k]
      exact hs.ticks ht ((hquiet rfl k).but h)
    cases w with
    | copy todo => exact fun k => ⟨hsees k (hdo k).1, fun hk => ((hdo k).2 hk).trans (hmem k).symm⟩
    | flush ps => exact fun k hps => hsees k (hdo k hps)
    | entered => trivial
    | finished => trivial

/-- A store to another block. -/
theorem Doing.store (hdo : Doing start m h b d r w) (hstart : start % 64 = 0) (hne : b ≠ b') (k' : Fin blockSize)
    (v : Byte) : Doing start (m.store 64 h' (cell start b' k') v) h b d r w := by
  have hline : ∀ k, cell start b k / 64 ≠ cell start b' k' / 64 := fun k he => hne (cell_line_inj hstart he)
  have hcell : ∀ k, cell start b k ≠ cell start b' k' := fun k he => hline k (by rw [he])
  cases r with
  | writer =>
    cases w with
    | copy todo => exact fun k => ⟨(hdo k).1.store (Or.inr (hline k)), fun hk => ((hdo k).2 hk).store (hcell k)⟩
    | flush ps =>
      refine fun k => ⟨(hdo k).1.store (Or.inr (hline k)), (hdo k).2.1.store (hcell k), fun hps => ?_⟩
      exact ⟨((hdo k).2.2 hps).1.store (hline k), ((hdo k).2.2 hps).2⟩
    | entered => trivial
    | finished => trivial
  | reader =>
    cases w with
    | copy todo => exact fun k => ⟨(hdo k).1.store (hcell k), (hdo k).2⟩
    | flush ps => exact fun k hps => (hdo k hps).store (hcell k)
    | entered => trivial
    | finished => trivial

/-- The next line of the flush. -/
theorem Doing.flushLine {p : Address} {ps : List Address} (hdo : Doing start m h b d r (.flush (p :: ps)))
    (hquiet : r = .reader → ∀ k, Quiet (cell start b k / 64) m) :
    Doing start (m.flush 64 h (line p)) h b d r (.flush ps) := by
  have ht := ticks_flush (w := 64) m h (line p)
  have hall : ∀ k, line p ≠ cell start b k / 64 → (∀ q ∈ ps, line q ≠ cell start b k / 64) →
      ∀ q ∈ p :: ps, line q ≠ cell start b k / 64 := by
    intro k hp hps q hq
    rcases List.mem_cons.mp hq with rfl | hq
    · exact hp
    · exact hps q hq
  cases r with
  | writer =>
    refine fun k => ⟨(hdo k).1.ticks ht, (hdo k).2.1.ticks ht (hdo k).1, fun hps => ?_⟩
    by_cases hp : line p = cell start b k / 64
    · rw [hp]
      exact ⟨(hdo k).1.flushed, (hdo k).2.1.flushed⟩
    · obtain ⟨hq, hmem⟩ := (hdo k).2.2 (hall k hp hps)
      exact ⟨hq.ticks ht, (hq.mem_ticks ht).trans hmem⟩
  | reader =>
    intro k hps
    by_cases hp : line p = cell start b k / 64
    · rw [hp]
      exact sees_flushed rfl
    · rw [(hquiet rfl k).mem_ticks ht]
      exact (hdo k (hall k hp hps)).ticks ht ((hquiet rfl k).but h)

end

end PmemProgram.Cxl
