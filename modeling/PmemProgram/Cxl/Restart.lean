import PmemProgram.Cxl.Mailbox

/-!
# Another writer (`meta_write.c`, before its loop)

A `meta_write` that starts sets the flag to `0` before it knows what the reader does.

* `StartStep` : stopping the writer and starting another one, with its `memset` byte by byte;
* `restart_safe` : as long as that `memset` reaches the first byte of the flag outside the reader's `memcpy`, the assertion
  of the reader holds in every run;
* `torn_by_restart` : a run in which it does not.
-/

namespace PmemProgram.Cxl

/-- A `meta_write` is stopped and another one started; its `memset` writes the first byte of the flag only if `ok`. -/
inductive StartStep (ok : Mail → Prop) : Mail → Mail → Prop
  | start {s} (source : Block) : StartStep ok s { s with writer := .reset Finset.univ, source := source }
  | resetByte {s todo i} : s.writer = .reset todo → i ∈ todo → (i = flagByte → ok s) →
      StartStep ok s { s with flag := Function.update s.flag i 0, writer := .reset (todo.erase i) }
  | resetDone {s} : s.writer = .reset ∅ → StartStep ok s { s with writer := .fill }

/-- A step of the writer, of the reader, or between two writers. -/
def RestartStep (ok : Mail → Prop) (s s' : Mail) : Prop := MailStep s s' ∨ StartStep ok s s'

/-- The reader is not in its `memcpy`. -/
def Idle (s : Mail) : Prop := ¬ s.reader.Reading

section
variable {s s' s₀ : Mail} {ok : Mail → Prop}

theorem Whole.startStep (h : Whole s) (hs : StartStep ok s s') : Whole s' := by
  cases hs with
  | start source => exact ⟨False.elim, h.full, trivial⟩
  | @resetByte todo i hpc hi hok =>
    refine ⟨False.elim, fun hfull => ?_, trivial⟩
    by_cases hflag : i = flagByte
    · subst hflag
      have hzero : (0 : Byte) = 0x10 := (Function.update_self flagByte 0 s.flag).symm.trans hfull
      exact absurd hzero (by decide)
    · exact h.full ((Function.update_of_ne (Ne.symm hflag) _ _).symm.trans hfull)
  | resetDone hpc => exact ⟨False.elim, h.full, trivial⟩

theorem Untorn.startStep (h : Untorn s) (hs : StartStep Idle s s') : Untorn s' := by
  refine ⟨h.toWhole.startStep hs, ?_, ?_⟩
  · cases hs with
    | start source => exact h.reading
    | @resetByte todo i hpc hi hok =>
      intro hr
      have hflag : i ≠ flagByte := fun heq => hok heq hr
      exact (Function.update_of_ne (Ne.symm hflag) _ _).trans (h.reading hr)
    | resetDone hpc => exact h.reading
  · cases hs with
    | start source => exact h.read
    | resetByte hpc hi hok => exact h.read
    | resetDone hpc => exact h.read

theorem RestartStep.whole (h : Whole s) (hs : RestartStep ok s s') : Whole s' := by
  rcases hs with (hs | hs) | hs
  · exact h.writerStep hs
  · exact h.readerStep hs
  · exact h.startStep hs

theorem RestartStep.untorn (h : Untorn s) (hs : RestartStep Idle s s') : Untorn s' := by
  rcases hs with (hs | hs) | hs
  · exact h.writerStep hs
  · exact h.readerStep hs
  · exact h.startStep hs

/-- **Another writer is safe** if it resets the flag outside the reader's `memcpy`: from any shared file that is not marked
full with a torn block, whenever writers are stopped and started, the assertion of the reader holds. No run whatever leaves
a file that is marked full with a torn block. -/
theorem restart_safe (hwriter : s₀.writer = .reset Finset.univ) (hreader : s₀.reader = .test)
    (hfull : s₀.flag flagByte = 0x10 → CrcOk s₀.data) :
    (∀ s, Relation.ReflTransGen (RestartStep Idle) s₀ s → s.reader = .check → CrcOk s.dest) ∧
      ∀ s, Relation.ReflTransGen (RestartStep fun _ => True) s₀ s → s.flag flagByte = 0x10 → CrcOk s.data := by
  have hwhole : Whole s₀ := by
    refine ⟨fun hw => ?_, hfull, ?_⟩
    · rw [hwriter] at hw
      exact hw.elim
    · rw [hwriter]
      exact trivial
  have huntorn : Untorn s₀ := by
    refine ⟨hwhole, fun hr => ?_, ?_⟩
    · rw [hreader] at hr
      exact hr.elim
    · rw [hreader]
      exact trivial
  constructor
  · intro s hs hpc
    have h : Untorn s := by
      clear hpc
      induction hs with
      | refl => exact huntorn
      | tail _ hstep ih => exact hstep.untorn ih
    have hread := h.read
    rw [hpc] at hread
    exact hread
  · intro s hs
    have h : Whole s := by
      induction hs with
      | refl => exact hwhole
      | tail _ hstep ih => exact hstep.whole ih
    exact h.full

end

/-! ## A torn copy -/

/-- The first byte of the block. -/
def firstByte : Fin blockSize := ⟨0, by have := four_lt_blockSize; omega⟩

/-- One other byte, and the checksum does not fit any more. -/
theorem not_crcOk_update {b : Block} (hok : CrcOk b) (hb : b firstByte = 0) : ¬ CrcOk (Function.update b firstByte 1) := by
  have hsize := four_lt_blockSize
  intro hok'
  have hcrc : sourceCrc (Function.update b firstByte 1) = sourceCrc b := by
    unfold sourceCrc
    congr 1
    funext j
    apply Function.update_of_ne
    simp only [firstByte, ne_eq, Fin.mk.injEq]
    omega
  have htail : (payload (Function.update b firstByte 1)).tail = (payload b).tail := by
    apply List.ext_getElem
    · simp [payload]
    · intro i h₁ h₂
      simp [payload, firstByte, Function.update_apply]
  have hcons : ∀ b : Block, payload b = b firstByte :: (payload b).tail := by
    intro b
    have hne : payload b ≠ [] := by
      apply List.ne_nil_of_length_pos
      simp only [payload, List.length_ofFn]
      omega
    have hhead : (payload b).head hne = b firstByte := by
      rw [List.head_eq_getElem]
      simp [payload, firstByte]
    rw [← hhead]
    exact (List.cons_head_tail hne).symm
  unfold CrcOk at hok hok'
  rw [hcrc, ← hok, hcons, hcons b, htail, Function.update_self, hb] at hok'
  exact absurd (calculateCrc32_cons_inj hok') (by decide +kernel)

/-- A block of zeros waits in the mailbox; a writer is about to start. -/
def waitingMail : Mail :=
  ⟨fun _ => 0x10, withCrc fun _ => 0, .reset Finset.univ, fun _ => 0, .test, fun _ => 0, [], []⟩

theorem crcOk_waitingMail : CrcOk waitingMail.data := crcOk_withCrc fun _ => 0

theorem restart_safe_waiting : waitingMail.flag flagByte = 0x10 ∧
    (∀ s, Relation.ReflTransGen (RestartStep Idle) waitingMail s → s.reader = .check → CrcOk s.dest) ∧
    ∀ s, Relation.ReflTransGen (RestartStep fun _ => True) waitingMail s → s.flag flagByte = 0x10 → CrcOk s.data :=
  ⟨rfl, restart_safe rfl rfl fun _ => crcOk_waitingMail⟩

theorem start_resets (s : Mail) (hpc : s.writer = .reset Finset.univ) :
    Relation.ReflTransGen (RestartStep fun _ => True) s { s.zeroed ∅ with writer := .reset ∅ } := by
  let reset : Finset (Fin metaSize) → Mail := fun todo => { s.zeroed todo with writer := .reset todo }
  have hrun : Relation.ReflTransGen (RestartStep fun _ => True) (reset Finset.univ) (reset ∅) := by
    apply run_todo _ Finset.univ (Finset.subset_univ ∅)
    intro todo i hi _
    have hstep : StartStep (fun _ => True) (reset todo) _ := .resetByte rfl hi fun _ => trivial
    simp only [reset, Mail.zeroed, copied_erase hi] at hstep ⊢
    exact Or.inr hstep
  have hall : reset Finset.univ = s := by simp [reset, Mail.zeroed, ← hpc]
  rwa [hall] at hrun

/-- The reader has copied all but the first byte when the new writer resets the flag, finds it `0` and writes the first
byte of another block. -/
theorem torn_by_restart : ∃ s, Relation.ReflTransGen (RestartStep fun _ => True) waitingMail s ∧ s.reader = .check ∧
    ¬ CrcOk s.dest := by
  have hloop : ReaderStep ≤ RestartStep fun _ => True := fun _ _ h => Or.inl (Or.inr h)
  let d : Block := fun i => if i = firstByte then 1 else 0
  let reading : Mail := waitingMail.taken {firstByte}
  let erased : Mail := { reading.zeroed ∅ with writer := .reset ∅ }
  let filled : Mail := { erased with source := withCrc d, writer := .test }
  let copying : Mail := { filled with
    data := Function.update filled.data firstByte (filled.source firstByte), writer := .copy (Finset.univ.erase firstByte) }
  let torn : Mail := { copying with
    dest := Function.update copying.dest firstByte (copying.data firstByte)
    reader := .copy (Finset.erase {firstByte} firstByte) }
  let taken : Mail := { torn with reader := .clear Finset.univ, copied := torn.copied ++ [torn.dest] }
  let cleared : Mail := { taken.zeroed ∅ with reader := .clear ∅ }
  have h₀ : RestartStep (fun _ => True) waitingMail { waitingMail with reader := .copy Finset.univ } :=
    Or.inl (Or.inr (.full rfl rfl))
  have h₁ : Relation.ReflTransGen (RestartStep fun _ => True) waitingMail reading :=
    .head h₀ (Relation.ReflTransGen.mono hloop _ _ (reader_copies waitingMail {firstByte}))
  have h₂ : Relation.ReflTransGen (RestartStep fun _ => True) reading erased := start_resets reading rfl
  have h₃ : RestartStep (fun _ => True) erased { erased with writer := .fill } := Or.inr (.resetDone rfl)
  have h₄ : RestartStep (fun _ => True) { erased with writer := .fill } filled := Or.inl (Or.inl (.fill d rfl))
  have h₅ : RestartStep (fun _ => True) filled { filled with writer := .copy Finset.univ } :=
    Or.inl (Or.inl (.empty rfl rfl))
  have h₆ : RestartStep (fun _ => True) { filled with writer := .copy Finset.univ } copying :=
    Or.inl (Or.inl (.copyByte rfl (Finset.mem_univ _)))
  have h₇ : RestartStep (fun _ => True) copying torn := Or.inl (Or.inr (.copyByte rfl (Finset.mem_singleton_self _)))
  have h₈ : RestartStep (fun _ => True) torn taken := by
    apply Or.inl
    apply Or.inr
    apply ReaderStep.copyDone
    change ReaderPc.copy (Finset.erase {firstByte} firstByte) = .copy ∅
    rw [Finset.erase_singleton]
  have h₉ : Relation.ReflTransGen (RestartStep fun _ => True) taken cleared :=
    Relation.ReflTransGen.mono hloop _ _ (reader_clears taken rfl)
  have h₁₀ : RestartStep (fun _ => True) cleared { cleared with reader := .check } := Or.inl (Or.inr (.clearDone rfl))
  refine ⟨_, (((((((h₁.trans h₂).tail h₃).tail h₄).tail h₅).tail h₆).tail h₇).tail h₈ |>.trans h₉).tail h₁₀, rfl, ?_⟩
  have hsize : (firstByte : Nat) < blockSize - 4 := by
    have := four_lt_blockSize
    simp only [firstByte]
    omega
  have hdest : torn.dest = Function.update (withCrc fun _ => 0) firstByte 1 := by
    funext i
    by_cases hi : i = firstByte
    · subst hi
      simp [torn, copying, filled, withCrc, hsize, d]
    · simp [torn, copying, filled, erased, reading, Mail.zeroed, Mail.taken, waitingMail, hi]
  change ¬ CrcOk torn.dest
  rw [hdest]
  apply not_crcOk_update (crcOk_withCrc _)
  simp [withCrc, hsize]

end PmemProgram.Cxl
