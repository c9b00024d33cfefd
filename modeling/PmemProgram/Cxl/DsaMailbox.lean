import PmemProgram.Cxl.DsaMove
import PmemProgram.Cxl.Mailbox

/-!
# The mailbox with a DMA engine (`dsa_meta_write.c`, `dsa_meta_read.c`)

The two loops of `Mailbox`, with `dsa_move_data` in the place of `memcpy`. The calls of the engine return any status;
`dsa_move_data` returns nothing, so a loop goes on to the flag whether the block has been moved or not. Only the first
byte of the flag is tested, and `flag` is that byte.

* `DsaStep A` : the two loops and the two engines, with statuses from `A`; `published` and `cleared` list what the
  buffers were when the flag was set and when it was cleared;
* `published_when_copied` : with calls that succeed both agree; `published_torn` : one failed submission is enough.
-/

namespace PmemProgram.Cxl
open PmemProgram.Lib

/-- `DSA_JOB_NUM`. -/
def dsaJobNum : Nat := 1
/-- `DSA_MOVE_BLOCK`. -/
def dsaMoveBlock : Nat := 16384

theorem dsaMoveBlock_lt_blockSize : dsaMoveBlock < blockSize := by
  unfold blockSize dsaMoveBlock
  omega

theorem blockSize_lt : blockSize < 2 ^ 32 := by
  unfold blockSize
  omega

/-- A block in memory. -/
def Block.bytes (b : Block) : Nat → Byte := fun x => if h : x < blockSize then b ⟨x, h⟩ else 0

/-- The bytes of a block are the same. -/
def SameBlock (a b : Nat → Byte) : Prop := ∀ x < blockSize, a x = b x

/-- Where `dsa_meta_write` is: filling its buffer, before the test of the flag, in `dsa_move_data` with the rest of the
call, before its `memset`. -/
inductive DsaWriterPc
  | fill
  | test
  | move (c : Cmd DsaCall Copy (Option Bool))
  | mark

/-- Where `dsa_meta_read` is: before the test of the flag, in `dsa_move_data`, before its `memset`, before its
assertion. -/
inductive DsaReaderPc
  | test
  | move (c : Cmd DsaCall Copy (Option Bool))
  | clear
  | check

/-- The shared file, and the two processes with their buffers and their jobs. -/
structure DsaMail where
  flag : Byte
  data : Nat → Byte
  writer : DsaWriterPc
  source : Nat → Byte
  writerFlight : Nat → Option Move
  writerLog : List DsaEvent
  reader : DsaReaderPc
  dest : Nat → Byte
  readerFlight : Nat → Option Move
  readerLog : List DsaEvent
  published : List ((Nat → Byte) × (Nat → Byte))
  cleared : List ((Nat → Byte) × (Nat → Byte))

/-- What the engine of the writer works on. -/
def DsaMail.writing (s : DsaMail) : Copy := ⟨s.source, s.data, s.writerFlight, s.writerLog⟩

def DsaMail.wrote (s : DsaMail) (v : Copy) : DsaMail :=
  { s with data := v.dst, writerFlight := v.flight, writerLog := v.log }

/-- What the engine of the reader works on. -/
def DsaMail.reading (s : DsaMail) : Copy := ⟨s.data, s.dest, s.readerFlight, s.readerLog⟩

def DsaMail.didRead (s : DsaMail) (v : Copy) : DsaMail :=
  { s with dest := v.dst, readerFlight := v.flight, readerLog := v.log }

/-- The loop of `dsa_meta_write`. -/
inductive DsaWriterStep (A : DsaCall → Nat → Prop) : DsaMail → DsaMail → Prop
  /-- `fill_buffer_random` and the checksum. -/
  | fill {s} (d : Block) : s.writer = .fill →
      DsaWriterStep A s { s with source := (withCrc d).bytes, writer := .test }
  | full {s} : s.writer = .test → s.flag ≠ 0 → DsaWriterStep A s { s with writer := .fill }
  | empty {s} : s.writer = .test → s.flag = 0 → DsaWriterStep A s { s with
      writer := .move (dsaMoveData (blockSize + 1) dsaJobNum blockSize dsaMoveBlock), writerLog := [] }
  | move {s c c' v} : s.writer = .move c → Cmd.Small A c s.writing c' v →
      DsaWriterStep A s { s.wrote v with writer := .move c' }
  /-- The caller does not see whether the copy has failed. -/
  | moved {s r} : s.writer = .move (.ret r) → DsaWriterStep A s { s with writer := .mark }
  | mark {s} : s.writer = .mark →
      DsaWriterStep A s { s with flag := 0x10, published := s.published ++ [(s.data, s.source)], writer := .fill }
  | engine {s v} : Drift s.writing v → DsaWriterStep A s (s.wrote v)

/-- The loop of `dsa_meta_read`. -/
inductive DsaReaderStep (A : DsaCall → Nat → Prop) : DsaMail → DsaMail → Prop
  | empty {s} : s.reader = .test → s.flag ≠ 0x10 → DsaReaderStep A s s
  /-- The block is moved by a single job. -/
  | full {s} : s.reader = .test → s.flag = 0x10 → DsaReaderStep A s { s with
      reader := .move (dsaMoveData (blockSize + 1) dsaJobNum blockSize blockSize), readerLog := [] }
  | move {s c c' v} : s.reader = .move c → Cmd.Small A c s.reading c' v →
      DsaReaderStep A s { s.didRead v with reader := .move c' }
  | moved {s r} : s.reader = .move (.ret r) → DsaReaderStep A s { s with reader := .clear }
  | clear {s} : s.reader = .clear →
      DsaReaderStep A s { s with flag := 0, cleared := s.cleared ++ [(s.dest, s.data)], reader := .check }
  /-- The assertion holds. -/
  | passed {s} : s.reader = .check → CrcOk (fun i => s.dest i) → DsaReaderStep A s { s with reader := .test }
  | engine {s v} : Drift s.reading v → DsaReaderStep A s (s.didRead v)

def DsaStep (A : DsaCall → Nat → Prop) (s s' : DsaMail) : Prop := DsaWriterStep A s s' ∨ DsaReaderStep A s s'

/-- The writer has finished its `memset`, the reader is at the top of its loop. -/
structure DsaFresh (s : DsaMail) : Prop where
  flag : s.flag = 0
  writer : s.writer = .fill
  writerFlight : s.writerFlight = fun _ => none
  reader : s.reader = .test
  readerFlight : s.readerFlight = fun _ => none
  published : s.published = []
  cleared : s.cleared = []

/-- The flag is set on copied blocks only, and cleared on copied blocks only. -/
structure CopiedOnly (s : DsaMail) : Prop where
  published : ∀ p ∈ s.published, SameBlock p.1 p.2
  cleared : ∀ p ∈ s.cleared, SameBlock p.1 p.2

/-! ## With calls that succeed -/

/-- The engine of the writer is at rest outside `dsa_move_data`, and inside it the call will copy the block. -/
def DsaMail.WriterOk (s : DsaMail) : Prop :=
  match s.writer with
  | .move c => s.flag ≠ 0x10 ∧ c.Plain SameSrc ∧ dwp c (fun _ v => Moved blockSize dsaJobNum s.source v) s.writing
  | .mark => s.flag ≠ 0x10 ∧ s.writerFlight = (fun _ => none) ∧ SameBlock s.data s.source
  | _ => s.writerFlight = fun _ => none

/-- The same for the reader, for as long as the flag stands. -/
def DsaMail.ReaderOk (s : DsaMail) : Prop :=
  match s.reader with
  | .move c => s.flag = 0x10 ∧ c.Plain SameSrc ∧ dwp c (fun _ v => Moved blockSize dsaJobNum s.data v) s.reading
  | .clear => s.flag = 0x10 ∧ s.readerFlight = (fun _ => none) ∧ SameBlock s.dest s.data
  | _ => s.readerFlight = fun _ => none

structure DsaInv (s : DsaMail) : Prop extends CopiedOnly s where
  writer : s.WriterOk
  reader : s.ReaderOk

section
variable {s s' : DsaMail}

/-- An engine at rest changes nothing. -/
theorem drift_rest {v w : Copy} (hv : v.flight = fun _ => none) (h : Drift v w) : w = v := by
  have hdst : w.dst = v.dst := by
    funext x
    refine h.dst x fun ⟨i, m, hm, _⟩ => ?_
    rw [hv] at hm
    cases hm
  cases v
  cases w
  obtain rfl := h.src
  obtain rfl := h.flight
  obtain rfl := h.log
  obtain rfl := hdst
  rfl

theorem moved_drift {S N : Nat} {source : Nat → Byte} {v w : Copy} (hd : Drift v w) (h : Moved S N source v) :
    Moved S N source w := by
  rw [drift_rest h.flight hd]
  exact h

/-- An action of a copy, with its calls succeeding, keeps what the copy will do. -/
theorem copy_small {S N : Nat} {source : Nat → Byte} {c c' : Cmd DsaCall Copy (Option Bool)} {v w : Copy}
    (hc : c.Plain SameSrc) (h : dwp c (fun _ v => Moved S N source v) v)
    (hs : Cmd.Small (fun _ n => n = 0) c v c' w) :
    w.src = v.src ∧ c'.Plain SameSrc ∧ dwp c' (fun _ v => Moved S N source v) w := by
  obtain ⟨hsrc, hc'⟩ := hs.plain (P := SameSrc) (fun _ => rfl) hc
  exact ⟨hsrc, hc', Cmd.wp_small Drift.refl h hs⟩

/-- So does the work of the engine. -/
theorem copy_drift {S N : Nat} {source : Nat → Byte} {c : Cmd DsaCall Copy (Option Bool)} {v w : Copy}
    (hc : c.Plain SameSrc) (h : dwp c (fun _ v => Moved S N source v) v) (hd : Drift v w) :
    dwp c (fun _ v => Moved S N source v) w :=
  Cmd.wp_env Drift.trans (fun _ _ _ => moved_drift) hc.shared hd h

theorem DsaMail.writing_wrote {v : Copy} (h : v.src = s.source) : (s.wrote v).writing = v := by
  cases v
  cases h
  rfl

theorem DsaMail.reading_didRead {v : Copy} (h : v.src = s.data) : (s.didRead v).reading = v := by
  cases v
  cases h
  rfl

/-- While the flag does not stand the reader is outside its call, and what the writer changes does not concern it. -/
theorem DsaMail.ReaderOk.of_empty (h : s.ReaderOk) (hflag : s.flag ≠ 0x10) (hpc : s'.reader = s.reader)
    (hflight : s'.readerFlight = s.readerFlight) : s'.ReaderOk := by
  unfold DsaMail.ReaderOk at h ⊢
  rw [hpc]
  cases hr : s.reader with
  | move c =>
    rw [hr] at h
    exact absurd h.1 hflag
  | clear =>
    rw [hr] at h
    exact absurd h.1 hflag
  | test =>
    rw [hr] at h
    exact hflight.trans h
  | check =>
    rw [hr] at h
    exact hflight.trans h

/-- While the flag stands the writer is outside its call. -/
theorem DsaMail.WriterOk.of_full (h : s.WriterOk) (hflag : s.flag = 0x10) (hpc : s'.writer = s.writer)
    (hflight : s'.writerFlight = s.writerFlight) : s'.WriterOk := by
  unfold DsaMail.WriterOk at h ⊢
  rw [hpc]
  cases hw : s.writer with
  | move c =>
    rw [hw] at h
    exact absurd hflag h.1
  | mark =>
    rw [hw] at h
    exact absurd hflag h.1
  | fill =>
    rw [hw] at h
    exact hflight.trans h
  | test =>
    rw [hw] at h
    exact hflight.trans h

theorem sameBlock_append {l : List ((Nat → Byte) × (Nat → Byte))} {a b : Nat → Byte}
    (hl : ∀ p ∈ l, SameBlock p.1 p.2) (hab : SameBlock a b) : ∀ p ∈ l ++ [(a, b)], SameBlock p.1 p.2 := by
  intro p hp
  rcases List.mem_append.mp hp with hp | hp
  · exact hl p hp
  · obtain rfl := List.mem_singleton.mp hp
    exact hab

theorem DsaInv.writerStep (h : DsaInv s) (hs : DsaWriterStep (fun _ n => n = 0) s s') : DsaInv s' := by
  have hw := h.writer
  unfold DsaMail.WriterOk at hw
  cases hs with
  | fill d hpc =>
    rw [hpc] at hw
    exact ⟨⟨h.published, h.cleared⟩, hw, h.reader⟩
  | full hpc hflag =>
    rw [hpc] at hw
    exact ⟨⟨h.published, h.cleared⟩, hw, h.reader⟩
  | empty hpc hflag =>
    rw [hpc] at hw
    have hne : s.flag ≠ 0x10 := by
      rw [hflag]
      decide
    refine ⟨⟨h.published, h.cleared⟩, ⟨hne, plain_dsaMoveData _ _ _ _, ?_⟩, h.reader⟩
    have hidle : AtRest (DsaMail.writing { s with
        writer := .move (dsaMoveData (blockSize + 1) dsaJobNum blockSize dsaMoveBlock), writerLog := [] }) := ⟨hw, rfl⟩
    exact Cmd.wp_conseq (dsaMoveData_spec hidle (by decide) (by decide) (by decide) (by decide) (Nat.lt_succ_self _))
      fun _ _ ht => ht.2
  | @move c c' v hpc hsmall =>
    rw [hpc] at hw
    obtain ⟨hne, hplain, hwp⟩ := hw
    obtain ⟨hsrc, hplain', hwp'⟩ := copy_small hplain hwp hsmall
    refine ⟨⟨h.published, h.cleared⟩, ⟨hne, hplain', ?_⟩, h.reader.of_empty hne rfl rfl⟩
    change dwp c' _ (s.wrote v).writing
    rw [DsaMail.writing_wrote hsrc]
    exact hwp'
  | @moved r hpc =>
    rw [hpc] at hw
    obtain ⟨hne, -, hmoved⟩ := hw
    exact ⟨⟨h.published, h.cleared⟩, ⟨hne, hmoved.flight, hmoved.copied⟩, h.reader⟩
  | mark hpc =>
    rw [hpc] at hw
    obtain ⟨hne, hflight, hsame⟩ := hw
    exact ⟨⟨sameBlock_append h.published hsame, h.cleared⟩, hflight, h.reader.of_empty hne rfl rfl⟩
  | @engine v hd =>
    have hsrc : v.src = s.source := hd.src
    cases hpc : s.writer with
    | move c =>
      rw [hpc] at hw
      obtain ⟨hne, hplain, hwp⟩ := hw
      refine ⟨⟨h.published, h.cleared⟩, ?_, h.reader.of_empty hne rfl rfl⟩
      unfold DsaMail.WriterOk
      rw [show (s.wrote v).writer = .move c from hpc]
      refine ⟨hne, hplain, ?_⟩
      rw [DsaMail.writing_wrote hsrc]
      exact copy_drift hplain hwp hd
    | _ =>
      -- no job is in flight
      have hrest : s.writerFlight = fun _ => none := by
        rw [hpc] at hw
        first | exact hw | exact hw.2.1
      have hsame : v = s.writing := drift_rest hrest hd
      rw [hsame]
      exact h

theorem DsaInv.readerStep (h : DsaInv s) (hs : DsaReaderStep (fun _ n => n = 0) s s') : DsaInv s' := by
  have hr := h.reader
  unfold DsaMail.ReaderOk at hr
  cases hs with
  | empty hpc hflag => exact h
  | full hpc hflag =>
    rw [hpc] at hr
    refine ⟨⟨h.published, h.cleared⟩, h.writer, ⟨hflag, plain_dsaMoveData _ _ _ _, ?_⟩⟩
    have hidle : AtRest (DsaMail.reading { s with
        reader := .move (dsaMoveData (blockSize + 1) dsaJobNum blockSize blockSize), readerLog := [] }) := ⟨hr, rfl⟩
    have hpos := dsaMoveBlock_lt_blockSize
    have hlt := blockSize_lt
    have hmax : blockSize * dsaJobNum < 2 ^ 64 := by
      unfold dsaJobNum
      omega
    exact Cmd.wp_conseq (dsaMoveData_spec hidle (by omega) hlt (by decide) hmax (Nat.lt_succ_self _)) fun _ _ ht => ht.2
  | @move c c' v hpc hsmall =>
    rw [hpc] at hr
    obtain ⟨hflag, hplain, hwp⟩ := hr
    obtain ⟨hsrc, hplain', hwp'⟩ := copy_small hplain hwp hsmall
    refine ⟨⟨h.published, h.cleared⟩, h.writer.of_full hflag rfl rfl, ⟨hflag, hplain', ?_⟩⟩
    change dwp c' _ (s.didRead v).reading
    rw [DsaMail.reading_didRead hsrc]
    exact hwp'
  | @moved r hpc =>
    rw [hpc] at hr
    obtain ⟨hflag, -, hmoved⟩ := hr
    exact ⟨⟨h.published, h.cleared⟩, h.writer, hflag, hmoved.flight, hmoved.copied⟩
  | clear hpc =>
    rw [hpc] at hr
    obtain ⟨hflag, hflight, hsame⟩ := hr
    exact ⟨⟨h.published, sameBlock_append h.cleared hsame⟩, h.writer.of_full hflag rfl rfl, hflight⟩
  | passed hpc hok =>
    rw [hpc] at hr
    exact ⟨⟨h.published, h.cleared⟩, h.writer, hr⟩
  | @engine v hd =>
    have hsrc : v.src = s.data := hd.src
    cases hpc : s.reader with
    | move c =>
      rw [hpc] at hr
      obtain ⟨hflag, hplain, hwp⟩ := hr
      refine ⟨⟨h.published, h.cleared⟩, h.writer.of_full hflag rfl rfl, ?_⟩
      unfold DsaMail.ReaderOk
      rw [show (s.didRead v).reader = .move c from hpc]
      refine ⟨hflag, hplain, ?_⟩
      rw [DsaMail.reading_didRead hsrc]
      exact copy_drift hplain hwp hd
    | _ =>
      have hrest : s.readerFlight = fun _ => none := by
        rw [hpc] at hr
        first | exact hr | exact hr.2.1
      have hsame : v = s.reading := drift_rest hrest hd
      rw [hsame]
      exact h

theorem DsaFresh.inv (h : DsaFresh s) : DsaInv s := by
  refine ⟨⟨?_, ?_⟩, ?_, ?_⟩
  · rw [h.published]
    exact fun p hp => absurd hp List.not_mem_nil
  · rw [h.cleared]
    exact fun p hp => absurd hp List.not_mem_nil
  · unfold DsaMail.WriterOk
    rw [h.writer]
    exact h.writerFlight
  · unfold DsaMail.ReaderOk
    rw [h.reader]
    exact h.readerFlight

/-- **Published when copied.** In every run in which every submission and every wait has succeeded, the flag has been set
on blocks that are the source of their round, and cleared on blocks that the reader has a copy of. -/
theorem published_when_copied {s₀ : DsaMail} (h₀ : DsaFresh s₀)
    (h : Relation.ReflTransGen (DsaStep fun _ n => n = 0) s₀ s) : CopiedOnly s := by
  have hinv : DsaInv s := by
    induction h with
    | refl => exact h₀.inv
    | tail _ hs ih => exact hs.elim ih.writerStep ih.readerStep
  exact hinv.toCopiedOnly

end

/-! ## A failed submission -/

/-- The first submission fails: the jobs are finalised, and nothing has been moved. -/
theorem run_submit_fails {fuel S B : Nat} (hS : B % 2 ^ 64 < S) (v : Copy) :
    Cmd.Run (fun v w => v = w) (fun _ _ => True) (dsaMoveData (fuel + 1) 1 S B) v (some false) (v.finalize 0) := by
  have hsubmit : Cmd.Run (fun v w => v = w) (fun _ _ => True) (submitRound B 1 ⟨0, 0, 0, S⟩) v .error v :=
    Cmd.Run.bind (c := submitJob 0 0 0 B) (.ask (n := 1) trivial .ret) .ret
  have hfull : Cmd.Run (fun v w => v = w) (fun _ _ => True)
      (fullRounds 1 B (B * 1 % 2 ^ 64) (fuel + 1) ⟨0, 0, 0, S⟩) v .error v := by
    rw [fullRounds, if_pos (by rw [Nat.mul_one]; exact hS)]
    exact Cmd.Run.bind hsubmit .ret
  exact Cmd.Run.bind hfull (.act rfl rfl .ret)

/-- The writer is about to fill its buffer for the first time. -/
def startDsa : DsaMail :=
  ⟨0, fun _ => 0, .fill, fun _ => 0, fun _ => none, [], .test, fun _ => 0, fun _ => none, [], [], []⟩

/-- Some actions of the writer's call. -/
theorem writer_moves {A : DsaCall → Nat → Prop} {c c' : Cmd DsaCall Copy (Option Bool)} {v w : Copy}
    (h : Cmd.Smalls A c v c' w) (s : DsaMail) (hpc : s.writer = .move c) (hv : s.writing = v)
    (hc : c.Plain SameSrc) :
    Relation.ReflTransGen (DsaStep A) s { s.wrote w with writer := .move c' } := by
  induction h generalizing s with
  | @refl c v =>
    subst hv
    have hsame : ({ s.wrote s.writing with writer := .move c } : DsaMail) = s := by
      rw [← hpc]
      rfl
    rw [hsame]
  | @head c v c₁ v₁ c₂ v₂ hsmall _ ih =>
    subst hv
    obtain ⟨hsrc, hc₁⟩ := hsmall.plain (P := SameSrc) (fun _ => rfl) hc
    have hstep : DsaStep A s { s.wrote v₁ with writer := .move c₁ } := Or.inl (.move hpc hsmall)
    exact .head hstep (ih _ rfl (DsaMail.writing_wrote hsrc) hc₁)

/-- The block of the first round. -/
def firstSource : Nat → Byte := (withCrc fun _ => 1).bytes

/-- What the writer copies in its first round. -/
def firstCopy : Copy := ⟨firstSource, fun _ => 0, fun _ => none, []⟩

/-- However the first call ends, the writer publishes what is in the file then. -/
theorem reaches_published {A : DsaCall → Nat → Prop} {r : Option Bool} {w : Copy}
    (h : Cmd.Run (fun v w => v = w) A (dsaMoveData (blockSize + 1) dsaJobNum blockSize dsaMoveBlock) firstCopy r w) :
    ∃ s, Relation.ReflTransGen (DsaStep A) startDsa s ∧ s.published = [(w.dst, firstSource)] := by
  let filled : DsaMail := { startDsa with source := firstSource, writer := .test }
  let moving : DsaMail :=
    { filled with writer := .move (dsaMoveData (blockSize + 1) dsaJobNum blockSize dsaMoveBlock), writerLog := [] }
  have h₁ : DsaStep A startDsa filled := Or.inl (.fill _ rfl)
  have h₂ : DsaStep A filled moving := Or.inl (.empty rfl rfl)
  have h₃ := writer_moves h.smalls moving rfl rfl (plain_dsaMoveData _ _ _ _)
  have h₄ : DsaStep A { moving.wrote w with writer := .move (.ret r) } { moving.wrote w with writer := .mark } :=
    Or.inl (.moved rfl)
  have h₅ : DsaStep A { moving.wrote w with writer := .mark } _ := Or.inl (.mark rfl)
  exact ⟨_, ((((Relation.ReflTransGen.single h₁).tail h₂).trans h₃).tail h₄).tail h₅, rfl⟩

theorem published_when_copied_first : ∃ s, Relation.ReflTransGen (DsaStep fun _ n => n = 0) startDsa s ∧
    s.published.length = 1 ∧ CopiedOnly s := by
  have hspec := dsaMoveData_spec (v := firstCopy) ⟨rfl, rfl⟩ (show 0 < dsaMoveBlock by decide) (by decide)
    (show 0 < dsaJobNum by decide) (by decide) (Nat.lt_succ_self blockSize)
  obtain ⟨r, w, hw, -⟩ := Cmd.wp_exec (A := fun _ n => n = 0) Drift.refl (fun _ => rfl) hspec
    (plain_dsaMoveData _ _ _ _).total
  have hrun := Cmd.exec_run (R := fun v w => v = w) (A := fun _ n => n = 0) (fun _ => rfl) (fun _ => rfl) hw
  obtain ⟨s, hs, hp⟩ := reaches_published hrun
  exact ⟨s, hs, by rw [hp]; rfl, published_when_copied ⟨rfl, rfl, rfl, rfl, rfl, rfl, rfl⟩ hs⟩

/-- The first submission of the first round fails, and the block that was there before is published. -/
theorem published_torn :
    ¬ ∀ s₀ s, DsaFresh s₀ → Relation.ReflTransGen (DsaStep fun _ _ => True) s₀ s → CopiedOnly s := by
  intro h
  obtain ⟨s, hs, hp⟩ := reaches_published (run_submit_fails (show dsaMoveBlock % 2 ^ 64 < blockSize from
    dsaMoveBlock_lt_blockSize) firstCopy)
  have hcopied := h startDsa s ⟨rfl, rfl, rfl, rfl, rfl, rfl, rfl⟩ hs
  have hsize := four_lt_blockSize
  have hzero : 0 < blockSize := by omega
  have hsame := hcopied.published _ (by rw [hp]; exact List.mem_singleton.mpr rfl) 0 hzero
  -- the file holds zeros, the source starts with the byte 1
  have hsource : firstSource 0 = 1 := by
    rw [firstSource, Block.bytes, dif_pos hzero, withCrc]
    exact if_pos (by simp only; omega)
  change (0 : Byte) = firstSource 0 at hsame
  rw [hsource] at hsame
  exact absurd hsame (by decide)

end PmemProgram.Cxl
