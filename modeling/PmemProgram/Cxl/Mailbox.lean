import PmemProgram.Cxl.Crc
import PmemProgram.Cxl.Framing

/-!
# The mailbox of one block (`meta_write.c`, `meta_read.c`)

A flag of 64 bytes and a block are shared by a writer and a reader. Every `memcpy` and `memset` goes byte by byte in any
order, with the other process in between; only the first byte of the flag is ever tested.

* `Block`, `withCrc`, `CrcOk` : a block with its checksum in the last four bytes;
* `Mail`, `WriterStep`, `ReaderStep` : the two loops; `published` and `copied` list the blocks that the writer has set the
  flag for and those that the reader has copied out;
* `Untorn` : writer and reader are never at the block together, and the reader's copy is the block;
* `mailbox_in_order` : the reader gets the published blocks, each once and in order, and its assertion holds.
-/

namespace PmemProgram.Cxl

/-- `meta_size`. -/
def metaSize : Nat := 64

/-- `BLOCK_SIZE`. -/
@[irreducible] def blockSize : Nat := 8 * 1024 * 1024

theorem four_lt_blockSize : 4 < blockSize := by
  unfold blockSize
  omega

/-- The first byte of the flag. -/
def flagByte : Fin metaSize := ⟨0, by decide⟩

/-! ## Blocks -/

abbrev Block := Fin blockSize → Byte

/-- The bytes before the checksum. -/
def payload (b : Block) : List Byte := List.ofFn fun i : Fin (blockSize - 4) => b ⟨i, by omega⟩

/-- `*(uint32_t *)(dram_source + total_size - sizeof(uint32_t))`. -/
def sourceCrc (b : Block) : Word :=
  Buffer.word fun j => b ⟨blockSize - 4 + j, by have := four_lt_blockSize; omega⟩

/-- The buffer of the writer: random bytes, and their checksum behind them. -/
def withCrc (d : Block) : Block := fun i =>
  if i < blockSize - 4 then d i else (wordBytes (calculateCrc32 (payload d)))[i.val - (blockSize - 4)]?.getD 0

/-- The assertion `crc32 == source_crc32`. -/
def CrcOk (b : Block) : Prop := calculateCrc32 (payload b) = sourceCrc b

theorem payload_withCrc (d : Block) : payload (withCrc d) = payload d := by
  unfold payload
  congr 1
  funext i
  exact if_pos i.isLt

theorem crcOk_withCrc (d : Block) : CrcOk (withCrc d) := by
  unfold CrcOk
  rw [payload_withCrc]
  have hbytes : sourceCrc (withCrc d) = (Buffer.fill (fun _ => 0) (wordBytes (calculateCrc32 (payload d)))).word := by
    unfold sourceCrc
    congr 1
    funext j
    simp [withCrc, Buffer.fill]
  rw [hbytes, word_fill_wordBytes]

/-! ## The two processes -/

/-- Where `meta_write` is: in the `memset` before its loop, filling its buffer, before the test of the flag, in its
`memcpy` or in its `memset`, with the bytes that are still to come. -/
inductive WriterPc
  | reset (todo : Finset (Fin metaSize))
  | fill
  | test
  | copy (todo : Finset (Fin blockSize))
  | mark (todo : Finset (Fin metaSize))

/-- Where `meta_read` is: before the test of the flag, in its `memcpy`, in its `memset`, or before its assertion. -/
inductive ReaderPc
  | test
  | copy (todo : Finset (Fin blockSize))
  | clear (todo : Finset (Fin metaSize))
  | check

/-- The shared file, and the two processes with their buffers. -/
structure Mail where
  flag : Fin metaSize → Byte
  data : Block
  writer : WriterPc
  source : Block
  reader : ReaderPc
  dest : Block
  published : List Block
  copied : List Block

/-- The loop of `meta_write`. -/
inductive WriterStep : Mail → Mail → Prop
  /-- `fill_buffer_random` and the checksum. -/
  | fill {s} (d : Block) : s.writer = .fill → WriterStep s { s with source := withCrc d, writer := .test }
  /-- The flag is not `0x00`. -/
  | full {s} : s.writer = .test → s.flag flagByte ≠ 0 → WriterStep s { s with writer := .fill }
  | empty {s} : s.writer = .test → s.flag flagByte = 0 → WriterStep s { s with writer := .copy Finset.univ }
  | copyByte {s todo i} : s.writer = .copy todo → i ∈ todo →
      WriterStep s { s with data := Function.update s.data i (s.source i), writer := .copy (todo.erase i) }
  | copyDone {s} : s.writer = .copy ∅ → WriterStep s { s with writer := .mark Finset.univ }
  | markByte {s todo i} : s.writer = .mark todo → i ∈ todo →
      WriterStep s { s with
        flag := Function.update s.flag i 0x10
        writer := .mark (todo.erase i)
        published := if i = flagByte then s.published ++ [s.source] else s.published }
  | markDone {s} : s.writer = .mark ∅ → WriterStep s { s with writer := .fill }

/-- The loop of `meta_read`. -/
inductive ReaderStep : Mail → Mail → Prop
  /-- The flag is not `0x10`. -/
  | empty {s} : s.reader = .test → s.flag flagByte ≠ 0x10 → ReaderStep s s
  | full {s} : s.reader = .test → s.flag flagByte = 0x10 → ReaderStep s { s with reader := .copy Finset.univ }
  | copyByte {s todo i} : s.reader = .copy todo → i ∈ todo →
      ReaderStep s { s with dest := Function.update s.dest i (s.data i), reader := .copy (todo.erase i) }
  | copyDone {s} : s.reader = .copy ∅ →
      ReaderStep s { s with reader := .clear Finset.univ, copied := s.copied ++ [s.dest] }
  | clearByte {s todo i} : s.reader = .clear todo → i ∈ todo →
      ReaderStep s { s with flag := Function.update s.flag i 0, reader := .clear (todo.erase i) }
  | clearDone {s} : s.reader = .clear ∅ → ReaderStep s { s with reader := .check }
  /-- The assertion holds. -/
  | passed {s} : s.reader = .check → CrcOk s.dest → ReaderStep s { s with reader := .test }

/-! ## Taking turns at the block -/

/-- The writer has seen the mailbox empty and not set the flag yet. -/
def WriterPc.Writing : WriterPc → Prop
  | .copy _ => True
  | .mark todo => flagByte ∈ todo
  | _ => False

/-- The reader is in its `memcpy`. -/
def ReaderPc.Reading : ReaderPc → Prop
  | .copy _ => True
  | _ => False

/-- What the writer has written so far. -/
def WriterPc.Wrote (data source : Block) : WriterPc → Prop
  | .copy todo => CrcOk source ∧ ∀ i ∉ todo, data i = source i
  | .mark todo => flagByte ∈ todo → CrcOk source ∧ data = source
  | .test => CrcOk source
  | _ => True

/-- What the reader has read so far. -/
def ReaderPc.Read (data dest : Block) : ReaderPc → Prop
  | .copy todo => ∀ i ∉ todo, dest i = data i
  | .test => True
  | _ => CrcOk dest

/-- A mailbox that is marked full has a whole block: the writer's side, whatever the reader does. -/
structure Whole (s : Mail) : Prop where
  writing : s.writer.Writing → s.flag flagByte ≠ 0x10
  full : s.flag flagByte = 0x10 → CrcOk s.data
  wrote : s.writer.Wrote s.data s.source

/-- The flag keeps the two apart. -/
structure Untorn (s : Mail) : Prop extends Whole s where
  reading : s.reader.Reading → s.flag flagByte = 0x10
  read : s.reader.Read s.data s.dest

section
variable {s s' : Mail}

theorem Whole.flag_ne (h : Whole s) {todo : Finset (Fin blockSize)} (hpc : s.writer = .copy todo) :
    s.flag flagByte ≠ 0x10 := by
  apply h.writing
  rw [hpc]
  exact trivial

/-- Another flag with the same first byte. -/
theorem Whole.setFlag (h : Whole s) {flag : Fin metaSize → Byte} {pc : ReaderPc} (hflag : flag flagByte = s.flag flagByte) :
    Whole { s with flag := flag, reader := pc } :=
  ⟨fun hw hf => h.writing hw (hflag.symm.trans hf), fun hf => h.full (hflag.symm.trans hf), h.wrote⟩

/-- A flag that does not show the mailbox full. -/
theorem Whole.clearFlag (h : Whole s) {flag : Fin metaSize → Byte} {pc : ReaderPc} (hflag : flag flagByte ≠ 0x10) :
    Whole { s with flag := flag, reader := pc } :=
  ⟨fun _ => hflag, fun hf => absurd hf hflag, h.wrote⟩

theorem Whole.writerStep (h : Whole s) (hs : WriterStep s s') : Whole s' := by
  cases hs with
  | fill d hpc => exact ⟨False.elim, h.full, crcOk_withCrc d⟩
  | full hpc hflag => exact ⟨False.elim, h.full, trivial⟩
  | empty hpc hflag =>
    have hwrote := h.wrote
    rw [hpc] at hwrote
    have hne : s.flag flagByte ≠ 0x10 := by
      rw [hflag]
      decide
    exact ⟨fun _ => hne, h.full, hwrote, fun i hi => absurd (Finset.mem_univ i) hi⟩
  | @copyByte todo i hpc hi =>
    have hne := h.flag_ne hpc
    have hwrote := h.wrote
    rw [hpc] at hwrote
    refine ⟨fun _ => hne, fun hflag => absurd hflag hne, hwrote.1, fun j hj => ?_⟩
    by_cases hji : j = i
    · subst hji
      exact Function.update_self _ _ _
    · have hj' : j ∉ todo := fun hmem => hj (Finset.mem_erase.mpr ⟨hji, hmem⟩)
      exact (Function.update_of_ne hji _ _).trans (hwrote.2 j hj')
  | copyDone hpc =>
    have hne := h.flag_ne hpc
    have hwrote := h.wrote
    rw [hpc] at hwrote
    have hall : s.data = s.source := funext fun i => hwrote.2 i (Finset.notMem_empty i)
    exact ⟨fun _ => hne, h.full, fun _ => ⟨hwrote.1, hall⟩⟩
  | @markByte todo i hpc hi =>
    have hwrote := h.wrote
    have hwriting := h.writing
    rw [hpc] at hwrote hwriting
    by_cases hflag : i = flagByte
    · subst hflag
      obtain ⟨hok, hdata⟩ := hwrote hi
      have hno : flagByte ∉ todo.erase flagByte := Finset.notMem_erase _ _
      refine ⟨fun hmem => absurd hmem hno, fun _ => ?_, fun hmem => absurd hmem hno⟩
      change CrcOk s.data
      rw [hdata]
      exact hok
    · have hsame : Function.update s.flag i 0x10 flagByte = s.flag flagByte :=
        Function.update_of_ne (Ne.symm hflag) _ _
      refine ⟨fun hmem hfull => ?_, fun hfull => ?_, fun hmem => hwrote (Finset.mem_of_mem_erase hmem)⟩
      · exact hwriting (Finset.mem_of_mem_erase hmem) (hsame.symm.trans hfull)
      · exact h.full (hsame.symm.trans hfull)
  | markDone hpc => exact ⟨False.elim, h.full, trivial⟩

theorem Whole.readerStep (h : Whole s) (hs : ReaderStep s s') : Whole s' := by
  cases hs with
  | empty hpc hflag => exact h
  | full hpc hflag => exact ⟨h.writing, h.full, h.wrote⟩
  | copyByte hpc hi => exact ⟨h.writing, h.full, h.wrote⟩
  | copyDone hpc => exact ⟨h.writing, h.full, h.wrote⟩
  | @clearByte todo i hpc hi =>
    by_cases hflag : i = flagByte
    · subst hflag
      apply h.clearFlag
      rw [Function.update_self]
      decide
    · exact h.setFlag (Function.update_of_ne (Ne.symm hflag) _ _)
  | clearDone hpc => exact ⟨h.writing, h.full, h.wrote⟩
  | passed hpc hok => exact ⟨h.writing, h.full, h.wrote⟩

theorem Untorn.apart (h : Untorn s) (hw : s.writer.Writing) : ¬ s.reader.Reading := fun hr =>
  h.writing hw (h.reading hr)

/-- A reader outside its `memcpy` does not depend on the block. -/
theorem ReaderPc.Read.congr {pc : ReaderPc} {data data' dest : Block} (h : pc.Read data dest) (hpc : ¬ pc.Reading) :
    pc.Read data' dest := by
  cases pc with
  | test => exact trivial
  | copy todo => exact absurd trivial hpc
  | clear todo => exact h
  | check => exact h

theorem Untorn.writerStep (h : Untorn s) (hs : WriterStep s s') : Untorn s' := by
  refine ⟨h.toWhole.writerStep hs, ?_, ?_⟩
  · cases hs with
    | @markByte todo i hpc hi =>
      intro hr
      by_cases hflag : i = flagByte
      · subst hflag
        exact Function.update_self flagByte 0x10 s.flag
      · exact (Function.update_of_ne (Ne.symm hflag) _ _).trans (h.reading hr)
    | fill d hpc => exact h.reading
    | full hpc hflag => exact h.reading
    | empty hpc hflag => exact h.reading
    | copyByte hpc hi => exact h.reading
    | copyDone hpc => exact h.reading
    | markDone hpc => exact h.reading
  · cases hs with
    | @copyByte todo i hpc hi =>
      apply h.read.congr
      apply h.apart
      rw [hpc]
      exact trivial
    | fill d hpc => exact h.read
    | full hpc hflag => exact h.read
    | empty hpc hflag => exact h.read
    | copyDone hpc => exact h.read
    | markByte hpc hi => exact h.read
    | markDone hpc => exact h.read

theorem Untorn.readerStep (h : Untorn s) (hs : ReaderStep s s') : Untorn s' := by
  refine ⟨h.toWhole.readerStep hs, ?_, ?_⟩
  · cases hs with
    | empty hpc hflag => exact h.reading
    | full hpc hflag => exact fun _ => hflag
    | copyByte hpc hi =>
      intro _
      apply h.reading
      rw [hpc]
      exact trivial
    | copyDone hpc => exact False.elim
    | clearByte hpc hi => exact False.elim
    | clearDone hpc => exact False.elim
    | passed hpc hok => exact False.elim
  · have hread := h.read
    cases hs with
    | empty hpc hflag => exact hread
    | full hpc hflag => exact fun i hi => absurd (Finset.mem_univ i) hi
    | @copyByte todo i hpc hi =>
      rw [hpc] at hread
      intro j hj
      by_cases hji : j = i
      · subst hji
        exact Function.update_self _ _ _
      · have hj' : j ∉ todo := fun hmem => hj (Finset.mem_erase.mpr ⟨hji, hmem⟩)
        exact (Function.update_of_ne hji _ _).trans (hread j hj')
    | copyDone hpc =>
      have hreading := h.reading
      rw [hpc] at hread hreading
      have hall : s.dest = s.data := funext fun i => hread i (Finset.notMem_empty i)
      change CrcOk s.dest
      rw [hall]
      exact h.full (hreading trivial)
    | clearByte hpc hi =>
      rw [hpc] at hread
      exact hread
    | clearDone hpc =>
      rw [hpc] at hread
      exact hread
    | passed hpc hok => exact trivial

end

/-! ## One writer and one reader -/

/-- A step of either loop. -/
def MailStep (s s' : Mail) : Prop := WriterStep s s' ∨ ReaderStep s s'

/-- The writer has finished its `memset`, the reader is at the top of its loop. -/
structure Fresh (s : Mail) : Prop where
  flag : s.flag = fun _ => 0
  writer : s.writer = .fill
  reader : s.reader = .test
  published : s.published = []
  copied : s.copied = []

/-- The reader has copied the block and not reset the flag yet. -/
def ReaderPc.Taking : ReaderPc → Prop
  | .clear todo => flagByte ∈ todo
  | _ => False

/-- The blocks copied are those published, but for one that waits in the mailbox. -/
inductive Order (s : Mail) : Prop
  | empty : s.flag flagByte = 0 → ¬ s.reader.Taking → s.published = s.copied → Order s
  | full : s.flag flagByte = 0x10 → ¬ s.reader.Taking → s.published = s.copied ++ [s.data] → Order s
  | taken : s.flag flagByte = 0x10 → s.reader.Taking → s.published = s.copied → Order s

section
variable {s s' : Mail}

theorem Order.congr (ho : Order s) (hflag : s'.flag flagByte = s.flag flagByte)
    (htaking : s'.reader.Taking ↔ s.reader.Taking) (hdata : s'.data = s.data) (hp : s'.published = s.published)
    (hc : s'.copied = s.copied) : Order s' := by
  cases ho with
  | empty hf ht he => exact .empty (by rw [hflag, hf]) (by rwa [htaking]) (by rw [hp, hc, he])
  | full hf ht he => exact .full (by rw [hflag, hf]) (by rwa [htaking]) (by rw [hp, hc, hdata, he])
  | taken hf ht he => exact .taken (by rw [hflag, hf]) (by rwa [htaking]) (by rw [hp, hc, he])

theorem Order.writerStep (ho : Order s) (h : Untorn s) (hs : WriterStep s s') : Order s' := by
  cases hs with
  | fill d hpc => exact ho.congr rfl Iff.rfl rfl rfl rfl
  | full hpc hflag => exact ho.congr rfl Iff.rfl rfl rfl rfl
  | empty hpc hflag => exact ho.congr rfl Iff.rfl rfl rfl rfl
  | copyByte hpc hi =>
    have hne := h.flag_ne hpc
    cases ho with
    | empty hf ht hp => exact .empty hf ht hp
    | full hf ht hp => exact absurd hf hne
    | taken hf ht hp => exact absurd hf hne
  | copyDone hpc => exact ho.congr rfl Iff.rfl rfl rfl rfl
  | @markByte todo i hpc hi =>
    by_cases hflag : i = flagByte
    · subst hflag
      have hwrote := h.wrote
      have hwriting := h.writing
      rw [hpc] at hwrote hwriting
      have hne := hwriting hi
      cases ho with
      | empty hf ht hp =>
        refine .full (Function.update_self flagByte 0x10 s.flag) ht ?_
        simp [hp, (hwrote hi).2]
      | full hf ht hp => exact absurd hf hne
      | taken hf ht hp => exact absurd hf hne
    · exact ho.congr (Function.update_of_ne (Ne.symm hflag) _ _) Iff.rfl rfl (if_neg hflag) rfl
  | markDone hpc => exact ho.congr rfl Iff.rfl rfl rfl rfl

theorem Order.readerStep (ho : Order s) (h : Untorn s) (hs : ReaderStep s s') : Order s' := by
  cases hs with
  | empty hpc hflag => exact ho
  | full hpc hflag =>
    refine ho.congr rfl ?_ rfl rfl rfl
    rw [hpc]
    exact Iff.rfl
  | copyByte hpc hi =>
    refine ho.congr rfl ?_ rfl rfl rfl
    rw [hpc]
    exact Iff.rfl
  | copyDone hpc =>
    have hread := h.read
    have hreading := h.reading
    rw [hpc] at hread hreading
    have hfull := hreading trivial
    have hall : s.dest = s.data := funext fun i => hread i (Finset.notMem_empty i)
    -- the block is taken, but the flag still stands
    cases ho with
    | empty hf ht hp =>
      rw [hf] at hfull
      exact absurd hfull (by decide)
    | full hf ht hp =>
      refine .taken hf (Finset.mem_univ _) ?_
      rw [hp, hall]
    | taken hf ht hp =>
      rw [hpc] at ht
      exact ht.elim
  | @clearByte todo i hpc hi =>
    by_cases hflag : i = flagByte
    · subst hflag
      have htaking : s.reader.Taking := by
        rw [hpc]
        exact hi
      cases ho with
      | empty hf ht hp => exact absurd htaking ht
      | full hf ht hp => exact absurd htaking ht
      | taken hf ht hp => exact .empty (Function.update_self flagByte 0 s.flag) (Finset.notMem_erase _ _) hp
    · refine ho.congr (Function.update_of_ne (Ne.symm hflag) _ _) ?_ rfl rfl rfl
      rw [hpc]
      exact Finset.mem_erase.trans (and_iff_right (Ne.symm hflag))
  | clearDone hpc =>
    refine ho.congr rfl ?_ rfl rfl rfl
    rw [hpc]
    exact iff_of_false id (Finset.notMem_empty _)
  | passed hpc hok =>
    refine ho.congr rfl ?_ rfl rfl rfl
    rw [hpc]
    exact Iff.rfl

theorem MailStep.untorn (h : Untorn s) (hs : MailStep s s') : Untorn s' :=
  hs.elim h.writerStep h.readerStep

theorem MailStep.order (ho : Order s) (h : Untorn s) (hs : MailStep s s') : Order s' :=
  hs.elim (ho.writerStep h) (ho.readerStep h)

theorem Fresh.untorn (h : Fresh s) : Untorn s := by
  have hzero : s.flag flagByte ≠ 0x10 := by
    rw [h.flag]
    decide
  refine ⟨⟨fun _ => hzero, fun hf => absurd hf hzero, ?_⟩, fun hr => ?_, ?_⟩
  · rw [h.writer]
    exact trivial
  · rw [h.reader] at hr
    exact hr.elim
  · rw [h.reader]
    exact trivial

theorem Fresh.order (h : Fresh s) : Order s := by
  apply Order.empty
  · rw [h.flag]
  · rw [h.reader]
    exact id
  · rw [h.published, h.copied]

theorem Order.inOrder (ho : Order s) : s.copied <+: s.published ∧ s.published.length ≤ s.copied.length + 1 := by
  cases ho with
  | empty hf ht hp => exact ⟨hp ▸ List.prefix_rfl, by rw [hp]; omega⟩
  | full hf ht hp => exact ⟨⟨[s.data], hp.symm⟩, by rw [hp, List.length_append]; exact le_rfl⟩
  | taken hf ht hp => exact ⟨hp ▸ List.prefix_rfl, by rw [hp]; omega⟩

/-- **The handshake.** Whatever the order of the bytes and of the steps of the two processes, the reader has copied out the
blocks that the writer has published, but for the last one, each once and in order; and its assertion holds. -/
theorem mailbox_in_order {s₀ : Mail} (h₀ : Fresh s₀) (h : Relation.ReflTransGen MailStep s₀ s) :
    s.copied <+: s.published ∧ s.published.length ≤ s.copied.length + 1 ∧ (s.reader = .check → CrcOk s.dest) := by
  have hinv : Untorn s ∧ Order s := by
    induction h with
    | refl => exact ⟨h₀.untorn, h₀.order⟩
    | tail _ hs ih => exact ⟨hs.untorn ih.1, hs.order ih.2 ih.1⟩
  obtain ⟨huntorn, horder⟩ := hinv
  refine ⟨horder.inOrder.1, horder.inOrder.2, fun hpc => ?_⟩
  have hread := huntorn.read
  rw [hpc] at hread
  exact hread

end

/-! ## Runs through a copy -/

/-- A loop over the bytes that are still to come runs down to any part of them. -/
theorem run_todo {σ ι : Type} [DecidableEq ι] {r : σ → σ → Prop} {f : Finset ι → σ} {t : Finset ι}
    (hstep : ∀ todo, ∀ i ∈ todo, i ∉ t → r (f todo) (f (todo.erase i))) (todo : Finset ι) (ht : t ⊆ todo) :
    Relation.ReflTransGen r (f todo) (f t) := by
  induction todo using Finset.strongInduction with
  | H todo ih =>
    by_cases heq : t = todo
    · rw [heq]
    · obtain ⟨i, hi, hno⟩ := Finset.exists_of_ssubset (ht.ssubset_of_ne heq)
      have hsub : t ⊆ todo.erase i := fun j hj => Finset.mem_erase.mpr ⟨fun h => hno (h ▸ hj), ht hj⟩
      exact .head (hstep todo i hi hno) (ih _ (Finset.erase_ssubset hi) hsub)

/-- An update of one byte of a copy. -/
theorem copied_erase {n : Nat} {a b : Fin n → Byte} {todo : Finset (Fin n)} {i : Fin n} (hi : i ∈ todo) :
    Function.update (fun j => if j ∈ todo then a j else b j) i (b i) = fun j => if j ∈ todo.erase i then a j else b j := by
  funext j
  by_cases hji : j = i
  · subst hji
    simp
  · simp [Finset.mem_erase, hji]

/-- The writer has copied all bytes but those in `todo`. -/
def Mail.written (s : Mail) (todo : Finset (Fin blockSize)) : Mail :=
  { s with data := fun i => if i ∈ todo then s.data i else s.source i, writer := .copy todo }

/-- The reader has copied all bytes but those in `todo`. -/
def Mail.taken (s : Mail) (todo : Finset (Fin blockSize)) : Mail :=
  { s with dest := fun i => if i ∈ todo then s.dest i else s.data i, reader := .copy todo }

/-- A `memset` to `0` has written all bytes of the flag but those in `todo`. -/
def Mail.zeroed (s : Mail) (todo : Finset (Fin metaSize)) : Mail :=
  { s with flag := fun i => if i ∈ todo then s.flag i else 0 }

theorem writer_copies (s : Mail) (t : Finset (Fin blockSize)) :
    Relation.ReflTransGen WriterStep { s with writer := .copy Finset.univ } (s.written t) := by
  have hrun : Relation.ReflTransGen WriterStep (s.written Finset.univ) (s.written t) := by
    apply run_todo _ Finset.univ (Finset.subset_univ t)
    intro todo i hi _
    have hstep := WriterStep.copyByte (s := s.written todo) rfl hi
    simp only [Mail.written, copied_erase hi] at hstep ⊢
    exact hstep
  simpa [Mail.written] using hrun

theorem reader_copies (s : Mail) (t : Finset (Fin blockSize)) :
    Relation.ReflTransGen ReaderStep { s with reader := .copy Finset.univ } (s.taken t) := by
  have hrun : Relation.ReflTransGen ReaderStep (s.taken Finset.univ) (s.taken t) := by
    apply run_todo _ Finset.univ (Finset.subset_univ t)
    intro todo i hi _
    have hstep := ReaderStep.copyByte (s := s.taken todo) rfl hi
    simp only [Mail.taken, copied_erase hi] at hstep ⊢
    exact hstep
  simpa [Mail.taken] using hrun

theorem reader_clears (s : Mail) (hpc : s.reader = .clear Finset.univ) :
    Relation.ReflTransGen ReaderStep s { s.zeroed ∅ with reader := .clear ∅ } := by
  let clear : Finset (Fin metaSize) → Mail := fun todo => { s.zeroed todo with reader := .clear todo }
  have hrun : Relation.ReflTransGen ReaderStep (clear Finset.univ) (clear ∅) := by
    apply run_todo _ Finset.univ (Finset.subset_univ ∅)
    intro todo i hi _
    have hstep := ReaderStep.clearByte (s := clear todo) rfl hi
    simp only [clear, Mail.zeroed, copied_erase hi] at hstep ⊢
    exact hstep
  have hall : clear Finset.univ = s := by simp [clear, Mail.zeroed, ← hpc]
  rwa [hall] at hrun

/-- The writer is about to fill its buffer for the first time. -/
def startMail : Mail := ⟨fun _ => 0, fun _ => 0, .fill, fun _ => 0, .test, fun _ => 0, [], []⟩

/-- The writer has published its first block `d`, and the reader has copied it out. -/
theorem reachable_copied (d : Block) : ∃ s, Relation.ReflTransGen MailStep startMail s ∧ s.published = [withCrc d] ∧
    s.copied = [withCrc d] ∧ s.reader = .check := by
  let filled : Mail := { startMail with source := withCrc d, writer := .test }
  let marking : Mail := { filled.written ∅ with writer := .mark Finset.univ }
  let marked : Mail := { marking with
    flag := Function.update marking.flag flagByte 0x10
    writer := .mark (Finset.univ.erase flagByte)
    published := [withCrc d] }
  let read : Mail := { marked.taken ∅ with reader := .clear Finset.univ, copied := [withCrc d] }
  have hwriter : WriterStep ≤ MailStep := fun _ _ h => Or.inl h
  have hreader : ReaderStep ≤ MailStep := fun _ _ h => Or.inr h
  have h₁ : MailStep startMail filled := Or.inl (.fill d rfl)
  have h₂ : MailStep filled { filled with writer := .copy Finset.univ } := Or.inl (.empty rfl rfl)
  have h₃ : Relation.ReflTransGen MailStep { filled with writer := .copy Finset.univ } (filled.written ∅) :=
    Relation.ReflTransGen.mono hwriter _ _ (writer_copies filled ∅)
  have h₄ : MailStep (filled.written ∅) marking := Or.inl (.copyDone rfl)
  have h₅ : MailStep marking marked := Or.inl (.markByte (i := flagByte) rfl (Finset.mem_univ _))
  -- the reader goes on before the other bytes of the flag are set
  have hfull : marked.flag flagByte = 0x10 := Function.update_self flagByte 0x10 marking.flag
  have h₆ : MailStep marked { marked with reader := .copy Finset.univ } := Or.inr (.full rfl hfull)
  have h₇ : Relation.ReflTransGen MailStep { marked with reader := .copy Finset.univ } (marked.taken ∅) :=
    Relation.ReflTransGen.mono hreader _ _ (reader_copies marked ∅)
  have h₈ : MailStep (marked.taken ∅) read := by
    have hdone := ReaderStep.copyDone (s := marked.taken ∅) rfl
    exact Or.inr (by simpa [Mail.taken, Mail.written, read, marked, marking, filled, startMail] using hdone)
  have h₉ : Relation.ReflTransGen MailStep read { read.zeroed ∅ with reader := .clear ∅ } :=
    Relation.ReflTransGen.mono hreader _ _ (reader_clears read rfl)
  have h₁₀ : MailStep { read.zeroed ∅ with reader := .clear ∅ } { read.zeroed ∅ with reader := .check } :=
    Or.inr (.clearDone rfl)
  exact ⟨_, ((((((((Relation.ReflTransGen.single h₁).tail h₂).trans h₃).tail h₄).tail h₅).tail h₆).trans h₇).tail h₈).trans
    (h₉.tail h₁₀), rfl, rfl, rfl⟩

theorem mailbox_in_order_first : ∃ s, Relation.ReflTransGen MailStep startMail s ∧
    s.published = [withCrc fun _ => 0] ∧ s.copied = [withCrc fun _ => 0] ∧ s.copied <+: s.published ∧ CrcOk s.dest := by
  obtain ⟨s, hs, hpublished, hcopied, hcheck⟩ := reachable_copied fun _ => 0
  obtain ⟨horder, -, hcrc⟩ := mailbox_in_order ⟨rfl, rfl, rfl, rfl, rfl⟩ hs
  exact ⟨s, hs, hpublished, hcopied, horder, hcrc hcheck⟩

end PmemProgram.Cxl
