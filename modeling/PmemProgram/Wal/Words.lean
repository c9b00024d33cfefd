import PmemProgram.Wal.Lengths

/-!
# The words in NVM and the guard in memory

* `Words n s` : the two words say what the guard has in memory, modulo `2 ^ 48` for the synced length; an append-mode file
  has at least the synced bytes, those of the ring and `n` more;
* `RingState.words` : so it is between the calls, whatever calls have failed;
* `decodes` : below `2 ^ 48` synced bytes the words are read back as they are in memory, but for a ring that is exactly
  full; `decodes_not_offset` : the length of the file says nothing about this without `O_APPEND`.
-/

namespace PmemProgram.Wal
open PmemProgram.Lib PmemProgram.Lib.Ring

structure Words (n : Nat) (s : Sys) : Prop where
  fsyncWord : getFsyncLen s.mapped.mixed = s.guard.fsyncLen % 2 ^ 48
  startWord : s.guard.fsyncLen < 2 ^ 48 → getBufStart s.mapped.mixed = s.guard.start
  bufEnd : s.mapped.bufEnd = (s.guard.start + s.guard.len) % s.guard.capacity
  file : s.desc.append = true → s.guard.fsyncLen + s.guard.len + n ≤ s.file.data.length

section
variable {cap k n pos : Nat} {s t : Sys} {d : List Byte} {g : Aofguard} {A B : Syscall → Nat → Prop}

theorem ticks_fsyncLen (ht : TicksOf B s t) : t.guard.fsyncLen = s.guard.fsyncLen := by
  induction ht with
  | refl => rfl
  | tail _ hstep ih => exact hstep.fields.2.1.trans ih

theorem ticks_mapped (ht : TicksOf B s t) : t.mapped = s.mapped := (Copies.ticks ht).2

theorem Words.ticks (h : Words n s) (ht : TicksOf B s t) : Words n t := by
  obtain ⟨hdata, -, hdesc, hlen⟩ := ticks_keep ht
  obtain ⟨hcap, hst, -, -⟩ := ticks_fields ht
  have hfl := ticks_fsyncLen ht
  have hmapped := ticks_mapped ht
  refine ⟨?_, fun h48 => ?_, ?_, fun happ => ?_⟩
  · rw [hmapped, hfl, h.fsyncWord]
  · rw [hmapped, hst]
    exact h.startWord (hfl ▸ h48)
  · rw [hmapped, hst, hlen, hcap, h.bufEnd]
  · rw [hfl, hlen, hdata]
    exact h.file (hdesc ▸ happ)

theorem sadd_le (a b : Nat) : sadd a b ≤ a + b := Nat.mod_le _ _

/-! ## Credit -/

theorem updateAfterFsync_words (hb : Blocks cap) (h : InRing cap s) (hw : Words 0 s) (hk : blockSize * k ≤ s.guard.len) :
    awp A B (fun _ => True) (updateAfterFsync k) (fun _ t => Words 0 t) s := by
  have hsmall := hb.small
  have hlen := h.len_le
  unfold updateAfterFsync
  refine (Cmd.wp_ite ..).mpr ⟨fun _ => hw, fun _ => ?_⟩
  have hmod : blockSize * k % 2 ^ 64 = blockSize * k := Nat.mod_eq_of_lt (by omega)
  have hdvd : blockSize ∣ (s.guard.start + blockSize * k) % cap := by
    rw [Nat.dvd_mod_iff hb.dvd]
    exact Nat.dvd_add h.start_dvd (Nat.dvd_mul_right _ _)
  simp only [Cmd.wp_bind, Cmd.wp_get, hmod, h.capacity]
  apply (wp_ringBufForward hb h.start_lt (by omega)).mpr
  simp only [Cmd.wp_check, setGuard, Cmd.wp_modify]
  refine ⟨Nat.mod_eq_zero_of_dvd hdvd, hk, Cmd.wp_step fun s₁ hs₁ => ⟨trivial, ?_⟩⟩
  obtain ⟨hdata, hnvm, hdesc, hlen₁⟩ := ticks_keep hs₁
  obtain ⟨hcap, hst, -, -⟩ := ticks_fields hs₁
  have hfl : s₁.guard.fsyncLen = sadd s.guard.fsyncLen (blockSize * k) := ticks_fsyncLen hs₁
  have hmapped : s₁.mapped = s.mapped := by rw [Sys.mapped, Sys.mapped, hnvm]
  have hsome : s₁.nvm.isSome = true := by
    rw [hnvm]
    exact h.mapped
  refine ⟨?_, fun _ => ?_, ?_, fun happ => ?_⟩
  · rw [mapped_map hsome]
    show getFsyncLen (makeMixedMeta _ _) = s₁.guard.fsyncLen % 2 ^ 48
    rw [getFsyncLen_make, hfl]
  · rw [mapped_map hsome]
    show getBufStart (makeMixedMeta _ _) = s₁.guard.start
    rw [getBufStart_make hb (Nat.mod_lt _ hb.pos) hdvd, hst]
  · -- the end of the ring stays where it is
    rw [mapped_map hsome]
    show s₁.mapped.bufEnd = (s₁.guard.start + s₁.guard.len) % s₁.guard.capacity
    have hend : s.guard.start + blockSize * k + (s.guard.len - blockSize * k) = s.guard.start + s.guard.len := by omega
    rw [hmapped, hw.bufEnd, hst, hlen₁, hcap]
    show _ = ((s.guard.start + blockSize * k) % cap + (s.guard.len - blockSize * k)) % s.guard.capacity
    rw [h.capacity, Nat.mod_add_mod, hend]
  · have hold := hw.file (hdesc ▸ happ)
    have hle := sadd_le s.guard.fsyncLen (blockSize * k)
    show s₁.guard.fsyncLen + s₁.guard.len + 0 ≤ s₁.file.data.length
    have hlen₂ : s₁.guard.len = s.guard.len - blockSize * k := hlen₁
    have hdata₂ : s₁.file.data.length = s.file.data.length := congrArg List.length hdata
    omega

theorem creditAfsync_words (hb : Blocks cap) (h : InRing cap s) (hw : Words 0 s) :
    awp A B (fun _ => True) creditAfsync (fun _ t => Words 0 t) s := by
  simp only [creditAfsync, Cmd.wp_bind, Cmd.wp_get, Cmd.wp_pure, setGuard, Cmd.wp_modify]
  exact Cmd.wp_conseq (updateAfterFsync_words hb h hw h.request_le) fun _ t ht =>
    ⟨ht.fsyncWord, ht.startWord, ht.bufEnd, ht.file⟩

/-- `sem_done` is taken, and the requested blocks are credited. -/
theorem takenCredit_words (hb : Blocks cap) (h : InRing cap s) (hw : Words 0 s) :
    awp A B (fun _ => True) creditAfsync (fun _ t => Words 0 t)
      { s with guard := { s.guard with semDone := s.guard.semDone - 1 } } :=
  creditAfsync_words hb (h.taken _).1 ⟨hw.fsyncWord, hw.startWord, hw.bufEnd, hw.file⟩

theorem handleAfsyncIfFinish_words (hb : Blocks cap) (h : InRing cap s) (hw : Words 0 s) :
    awp A B (fun _ => True) handleAfsyncIfFinish (fun _ t => Words 0 t) s := by
  simp only [handleAfsyncIfFinish, Cmd.wp_bind, Cmd.wp_get, Cmd.wp_ite, Cmd.wp_succeeds, Cmd.wp_pure]
  refine ⟨fun _ => hw, fun _ n _ => ⟨fun _ => Cmd.wp_stepGet fun s₁ hs₁ => ⟨trivial, ?_⟩, fun _ => hw⟩⟩
  have h₁ := (h.ticks hs₁).1
  have hw₁ := hw.ticks hs₁
  by_cases hd : 0 < s₁.guard.semDone
  · rw [if_pos hd]
    exact ⟨fun _ => takenCredit_words hb h₁ hw₁, fun hf => absurd rfl hf⟩
  · rw [if_neg hd]
    exact ⟨fun hf => absurd hf Bool.false_ne_true, fun _ => hw₁⟩

theorem waitAfsyncDone_words (hb : Blocks cap) (h : InRing cap s) (hw : Words 0 s) :
    awp A B (fun _ => True) waitAfsyncDone (fun _ t => Words 0 t) s := by
  simp only [waitAfsyncDone, Cmd.wp_bind, Cmd.wp_get, Cmd.wp_ite, Cmd.wp_succeeds, Cmd.wp_pure]
  refine ⟨fun _ => hw, fun _ n _ => ⟨fun _ => Cmd.wp_await fun s₁ hs₁ => ⟨trivial, fun s₂ hs₂ => ?_⟩, fun _ => hw⟩⟩
  split_ifs at hs₂ with hd
  cases hs₂
  exact takenCredit_words hb (h.ticks hs₁).1 (hw.ticks hs₁)

theorem doFsync_words (hb : Blocks cap) (h : InRing cap s) (hw : Words 0 s) :
    awp A B (fun _ => True) doFsync (fun _ t => Words 0 t) s := by
  simp only [doFsync, Cmd.wp_bind, Cmd.wp_ite, Cmd.wp_succeeds, Cmd.wp_pure]
  refine fun n _ => ⟨fun _ => Cmd.wp_step fun s₁ hs₁ => ⟨trivial, ?_⟩, fun _ => hw⟩
  have h₁ := (h.ticks hs₁).1
  have hw₁ := hw.ticks hs₁
  simp only [Cmd.wp_get]
  exact updateAfterFsync_words hb ⟨h₁.capacity, h₁.start_lt, h₁.start_dvd, h₁.len_le, h₁.request_le, h₁.mapped⟩
    ⟨hw₁.fsyncWord, hw₁.startWord, hw₁.bufEnd, hw₁.file⟩ (Nat.mul_div_le _ _)

theorem makeRoom_words (hb : Blocks cap) (h : InRing cap s) (hw : Words 0 s) :
    awp A B (fun _ => True) (makeRoom n) (fun _ t => Words 0 t) s := by
  simp only [makeRoom, Cmd.wp_bind, Cmd.wp_get, Cmd.wp_ite, Cmd.wp_pure]
  refine ⟨fun _ => ⟨fun _ => hw, fun _ => ?_⟩, fun _ => hw⟩
  have hwait := waitAfsyncDone_ring (A := A) (B := B) (I := fun _ => True) hb h fun _ _ => trivial
  refine Cmd.wp_conseq (Cmd.wp_and hwait (waitAfsyncDone_words hb h hw)) fun ok t ht => ?_
  obtain ⟨hring, ht⟩ := ht
  exact ⟨fun _ => ⟨fun _ => doFsync_words hb hring.1 ht, fun _ => ht⟩, fun _ => ht⟩

/-! ## The record -/

theorem Desc.write_append_eq (c : Desc) (f : File) (d : List Byte) : (c.write f d).2.append = c.append := by
  unfold Desc.write
  split_ifs <;> rfl

/-- In append mode the file gets all the bytes written. -/
theorem Words.write (h : Words 0 s) (d : List Byte) : Words d.length (s.write d) := by
  refine ⟨h.fsyncWord, h.startWord, h.bufEnd, fun happ => ?_⟩
  have happ' : s.desc.append = true := (Desc.write_append_eq ..).symm.trans happ
  have hold := h.file happ'
  show s.guard.fsyncLen + s.guard.len + d.length ≤ (s.desc.write s.file d).1.data.length
  rw [(Desc.write_append happ' _ _).1, List.length_append]
  omega

theorem Words.mono {n' : Nat} (h : Words n s) (hn : n' ≤ n) : Words n' s := by
  refine ⟨h.fsyncWord, h.startWord, h.bufEnd, fun happ => ?_⟩
  have := h.file happ
  omega

theorem beforeCopy_words (hb : Blocks cap) (h : InRing cap s) (hw : Words 0 s) :
    awp A B (fun _ => True) (beforeCopy d) (fun o t => Words 0 t ∧
      (d.length < 2 ^ 64 - 1 → o.isSome = true → Words d.length t)) s := by
  simp only [beforeCopy, Cmd.wp_bind, Cmd.wp_ite, Cmd.wp_pure, Cmd.wp_get, Cmd.wp_check]
  have hfinish := handleAfsyncIfFinish_ring (A := A) (B := B) (I := fun _ => True) hb h fun _ _ => trivial
  refine Cmd.wp_conseq (Cmd.wp_and hfinish (handleAfsyncIfFinish_words hb h hw)) fun ok s₁ h₁ => ?_
  obtain ⟨⟨h₁, -⟩, hw₁⟩ := h₁
  refine ⟨fun _ => ?_, fun _ => ⟨hw₁, fun _ hf => by cases hf⟩⟩
  have hroom := makeRoom_ring (A := A) (B := B) (I := fun _ => True) hb h₁ d.length fun _ _ => trivial
  refine Cmd.wp_conseq (Cmd.wp_and hroom (makeRoom_words hb h₁ hw₁)) fun ok s₂ h₂ => ?_
  obtain ⟨⟨h₂, -, hfit⟩, hw₂⟩ := h₂
  refine ⟨fun hok => ?_, fun _ => ⟨hw₂, fun _ hf => by cases hf⟩⟩
  rw [h₂.capacity]
  refine ⟨hfit hok, wp_syscallWrite_part ⟨hw₂, fun hlt hsome => ?_⟩ fun _ s₃ hs₃ => ⟨trivial, fun k _ => ?_⟩⟩
  · rw [if_neg (by omega)] at hsome
    cases hsome
  · have hwrite := (hw₂.ticks hs₃).write (d.take k)
    refine ⟨hwrite.mono (Nat.zero_le _), fun _ hsome => ?_⟩
    split_ifs at hsome with hall
    · rw [hall, List.take_length] at hwrite ⊢
      exact hwrite
    · cases hsome

/-- A copy into the ring changes neither the words nor the guard nor the file. -/
theorem nvmMemcpy_words (h : InRing cap s) (hw : Words n s) :
    awp A B (fun _ => True) (nvmMemcpy pos d) (fun _ t => InRing cap t ∧ Words n t) s := by
  refine Cmd.wp_pieces fun s₁ hs₁ => ⟨trivial, fun _ => trivial, ?_⟩
  obtain ⟨h₁, -⟩ := h.ticks hs₁
  have hw₁ := hw.ticks hs₁
  refine ⟨⟨h₁.capacity, h₁.start_lt, h₁.start_dvd, h₁.len_le, h₁.request_le, ?_⟩, ?_, fun h48 => ?_, ?_, hw₁.file⟩
  · rw [Option.isSome_map]
    exact h₁.mapped
  · rw [mapped_map h₁.mapped]
    exact hw₁.fsyncWord
  · rw [mapped_map h₁.mapped]
    exact hw₁.startWord h48
  · rw [mapped_map h₁.mapped]
    exact hw₁.bufEnd

theorem copyToRing_words (h : InRing cap s) (hw : Words n s) :
    awp A B (fun _ => True) (copyToRing pos cap d) (fun _ t => Words n t) s := by
  unfold copyToRing
  refine (Cmd.wp_ite ..).mpr ⟨fun _ => Cmd.wp_conseq (nvmMemcpy_words h hw) fun _ _ ht => ht.2, fun _ => ?_⟩
  simp only [Cmd.wp_bind]
  refine Cmd.wp_conseq (nvmMemcpy_words h hw) fun _ t ht => ?_
  exact Cmd.wp_conseq (nvmMemcpy_words ht.1 ht.2) fun _ _ hu => hu.2

theorem requestAfsync_words (hw : Words n s) : awp A B (fun _ => True) requestAfsync (fun _ t => Words n t) s := by
  simp only [requestAfsync, Cmd.wp_bind, Cmd.wp_get, Cmd.wp_ite, Cmd.wp_succeeds, Cmd.wp_pure, setGuard, Cmd.wp_modify]
  have hset : Words n { s with guard := { s.guard with blockCount := s.guard.len / blockSize } } :=
    ⟨hw.fsyncWord, hw.startWord, hw.bufEnd, hw.file⟩
  refine ⟨fun _ n _ => ⟨fun _ => Cmd.wp_step fun s₁ hs₁ => ⟨trivial, ?_⟩, fun _ => hset⟩, fun _ => hw⟩
  have hw₁ := hset.ticks hs₁
  exact ⟨hw₁.fsyncWord, hw₁.startWord, hw₁.bufEnd, hw₁.file⟩

/-- The record is counted in memory and in `buf_end`. -/
theorem copyRecord_words (hb : Blocks cap) (h : InRing cap s) (hw : Words d.length s) (hcap : g.capacity = cap)
    (hst : g.start = s.guard.start) (hlen : g.len = s.guard.len) (hroom : g.len + d.length ≤ cap) :
    awp A B (fun _ => True) (copyRecord d g) (fun _ t => Words 0 t) s := by
  have hsmall := hb.small
  rw [hlen] at hroom
  simp only [copyRecord, Cmd.wp_bind, hcap, hst, hlen]
  apply (wp_ringBufForward hb h.start_lt h.len_le).mpr
  have hcopy := copyToRing_ring (A := A) (B := B) (I := fun _ => True) (d := d) hb h hroom fun _ _ => trivial
  refine Cmd.wp_conseq (Cmd.wp_and hcopy (copyToRing_words h hw)) fun _ t ht => ?_
  obtain ⟨⟨ht, hcopies, hkeep, -⟩, hwt⟩ := ht
  rw [sadd_eq (by omega)]
  simp only [setGuard, Cmd.wp_modify, Cmd.wp_check]
  refine ⟨hroom, (wp_ringBufForward hb h.start_lt hroom).mpr (Cmd.wp_step fun s₁ hs₁ => ⟨trivial, ?_⟩)⟩
  obtain ⟨hdata, hnvm, hdesc, hlen₁⟩ := ticks_keep hs₁
  obtain ⟨hcap₁, hst₁, -, -⟩ := ticks_fields hs₁
  have hfl₁ : s₁.guard.fsyncLen = t.guard.fsyncLen := (ticks_fsyncLen hs₁).trans rfl
  have hmapped : s₁.mapped = t.mapped := by rw [Sys.mapped, Sys.mapped, hnvm]
  have hsome : s₁.nvm.isSome = true := by
    rw [hnvm]
    exact ht.mapped
  apply requestAfsync_words
  refine ⟨?_, fun h48 => ?_, ?_, fun happ => ?_⟩
  · rw [mapped_map hsome]
    show getFsyncLen s₁.mapped.mixed = s₁.guard.fsyncLen % 2 ^ 48
    rw [hmapped, hfl₁, hwt.fsyncWord]
  · rw [mapped_map hsome]
    show getBufStart s₁.mapped.mixed = s₁.guard.start
    rw [hmapped, hst₁]
    exact hwt.startWord (hfl₁ ▸ h48)
  · rw [mapped_map hsome]
    show (s.guard.start + (s.guard.len + d.length)) % cap = (s₁.guard.start + s₁.guard.len) % s₁.guard.capacity
    have hlen₂ : s₁.guard.len = s.guard.len + d.length := hlen₁
    have hst₂ : s₁.guard.start = s.guard.start := hst₁.trans hcopies.start
    have hcap₂ : s₁.guard.capacity = cap := hcap₁.trans ht.capacity
    rw [hlen₂, hst₂, hcap₂]
  · have hold := hwt.file (hdesc ▸ happ)
    show s₁.guard.fsyncLen + s₁.guard.len + 0 ≤ s₁.file.data.length
    have hlen₂ : s₁.guard.len = s.guard.len + d.length := hlen₁
    have hdata₂ : s₁.file.data.length = t.file.data.length := congrArg List.length hdata
    omega

/-! ## The first words -/

/-- The end that the recovery branch has read. -/
theorem decodeLen_forward {st e : Nat} (hs : st < cap) (he : e < cap) : (st + decodeLen cap st e) % cap = e := by
  unfold decodeLen
  split_ifs with hle
  · rw [Nat.add_sub_of_le hle, Nat.mod_eq_of_lt he]
  · rw [show st + (cap + e - st) = e + cap by omega, Nat.add_mod_right, Nat.mod_eq_of_lt he]

/-- A guard that is being set up: its words are read or stored, and an append-mode file has `n` bytes of the log. -/
structure WordsSet (n : Nat) (s : Sys) : Prop where
  fsyncWord : getFsyncLen s.mapped.mixed = s.guard.fsyncLen % 2 ^ 48
  startWord : s.guard.fsyncLen < 2 ^ 48 → getBufStart s.mapped.mixed = s.guard.start
  bufEnd : s.mapped.bufEnd = (s.guard.start + s.guard.len) % s.guard.capacity
  small : s.guard.len < 2 ^ 36
  file : s.desc.append = true → s.guard.fsyncLen + n ≤ s.file.data.length
  stopped : s.guard.thread = .none

theorem WordsSet.write (h : WordsSet n s) (d : List Byte) : WordsSet (n + d.length) (s.write d) := by
  refine ⟨h.fsyncWord, h.startWord, h.bufEnd, h.small, fun happ => ?_, h.stopped⟩
  have happ' : s.desc.append = true := (Desc.write_append_eq ..).symm.trans happ
  have hold := h.file happ'
  show s.guard.fsyncLen + (n + d.length) ≤ (s.desc.write s.file d).1.data.length
  rw [(Desc.write_append happ' _ _).1, List.length_append]
  omega

/-- A full `write` of a part of the ring. -/
theorem syscallWrite_wordsSet (h : WordsSet n s) (hd : d.length < 2 ^ 64 - 1) :
    awp A B (fun _ => True) (syscallWrite d) (fun k t => t.guard = s.guard ∧ (k = d.length → WordsSet (n + d.length) t)) s := by
  refine wp_syscallWrite_part ⟨rfl, fun hk => by omega⟩ fun _ t ht => ⟨trivial, fun k _ => ?_⟩
  obtain rfl := ticks_none ht h.stopped
  refine ⟨rfl, fun hk => ?_⟩
  rw [hk, List.take_length]
  exact h.write d

theorem rewriteTail_wordsSet (h : WordsSet 0 s) (hle : s.guard.start + s.guard.len < 2 ^ 64)
    (hlt : s.guard.start < s.guard.capacity) :
    awp A B (fun _ => True) rewriteTail (fun ok t => ok = true → t.guard.len = s.guard.len ∧ WordsSet s.guard.len t) s := by
  have hsmall := h.small
  simp only [rewriteTail, Cmd.wp_bind, Cmd.wp_get, Cmd.wp_ite, Cmd.wp_pure]
  rw [sadd_eq hle]
  refine ⟨fun _ => ?_, fun hwrap => ?_⟩
  · refine Cmd.wp_conseq (syscallWrite_wordsSet h (by rw [length_slice]; omega)) fun k t ht hk => ?_
    rw [length_slice, Nat.zero_add] at ht
    exact ⟨congrArg Aofguard.len ht.1, ht.2 (beq_iff_eq.mp hk)⟩
  · have hfront : s.guard.capacity - s.guard.start < s.guard.len := by omega
    refine Cmd.wp_conseq (syscallWrite_wordsSet h (by rw [length_slice]; omega)) fun k t ht => ⟨fun hk => ?_, fun _ hf => ?_⟩
    · rw [length_slice] at ht
      have hset := ht.2 hk
      refine Cmd.wp_conseq (syscallWrite_wordsSet hset (by rw [length_slice]; omega)) fun k' u hu hk' => ?_
      rw [length_slice] at hu
      have hall := hu.2 (beq_iff_eq.mp hk')
      rw [Nat.zero_add, Nat.add_sub_of_le hfront.le] at hall
      exact ⟨congrArg Aofguard.len (hu.1.trans ht.1), hall⟩
    · cases hf

theorem recover_wordsSet (hsmall : s.guard.capacity ≤ 2 ^ 36) (hstop : s.guard.thread = .none) :
    awp A B (fun _ => True) (recover s.file.data.length) (fun ok t => ok = true → WordsSet t.guard.len t) s := by
  simp only [recover, setGuard, Cmd.wp_bind, Cmd.wp_get, Cmd.wp_ite, Cmd.wp_pure, Cmd.wp_modify]
  refine ⟨fun _ hf => ?_, fun hst => ⟨fun _ hf => ?_, fun hend => ⟨fun _ hf => ?_, fun hsize => ?_⟩⟩⟩
  · cases hf
  · cases hf
  · cases hf
  have hst' := Nat.not_le.mp hst
  have hend' := Nat.not_le.mp hend
  have hlen := decodeLen_le hst' hend'
  have hset : ∀ f : File, getFsyncLen s.mapped.mixed ≤ f.data.length →
      WordsSet 0 ⟨f, s.desc, s.nvm, { s.guard with
        fsyncLen := getFsyncLen s.mapped.mixed
        start := getBufStart s.mapped.mixed
        len := decodeLen s.guard.capacity (getBufStart s.mapped.mixed) s.mapped.bufEnd }⟩ := by
    intro f hf
    refine ⟨?_, fun _ => rfl, (decodeLen_forward hst' hend').symm, by show decodeLen _ _ _ < 2 ^ 36; omega, fun _ => hf, hstop⟩
    show getFsyncLen s.mapped.mixed = getFsyncLen s.mapped.mixed % 2 ^ 48
    rw [getFsyncLen_eq, Nat.mod_mod]
  have htail : ∀ f : File, getFsyncLen s.mapped.mixed ≤ f.data.length →
      awp A B (fun _ => True) rewriteTail (fun ok t => ok = true → WordsSet t.guard.len t) ⟨f, s.desc, s.nvm, { s.guard with
        fsyncLen := getFsyncLen s.mapped.mixed
        start := getBufStart s.mapped.mixed
        len := decodeLen s.guard.capacity (getBufStart s.mapped.mixed) s.mapped.bufEnd }⟩ := by
    intro f hf
    have hsum : getBufStart s.mapped.mixed + decodeLen s.guard.capacity (getBufStart s.mapped.mixed) s.mapped.bufEnd < 2 ^ 64 := by
      omega
    refine Cmd.wp_conseq (rewriteTail_wordsSet (hset f hf) hsum hst') fun ok t ht hok => ?_
    obtain ⟨hkeep, hwords⟩ := ht hok
    rw [hkeep]
    exact hwords
  refine ⟨fun hlt => ?_, fun _ => ⟨fun _ => htail s.file (Nat.not_lt.mp hsize), fun hf => absurd trivial hf⟩⟩
  simp only [syscallFtruncate, Cmd.wp_bind, Cmd.wp_succeeds, Cmd.wp_get, Cmd.wp_ite, Cmd.wp_pure]
  refine fun n _ => ⟨fun _ => Cmd.wp_step fun t ht => ?_, fun _ => ⟨fun hf => ?_, fun _ hf => ?_⟩⟩
  · obtain rfl := ticks_none ht hstop
    refine ⟨trivial, fun _ => htail _ ?_, fun hf => absurd trivial hf⟩
    simp [File.truncate]
    omega
  · cases hf
  · cases hf

theorem resetMeta_wordsSet (hsome : s.nvm.isSome = true) (hstop : s.guard.thread = .none) :
    awp A B (fun _ => True) (resetMeta s.file.data.length) (fun _ t => WordsSet t.guard.len t) s := by
  simp only [resetMeta, setGuard, nvmSet64, Cmd.wp_bind, Cmd.wp_modify, Cmd.wp_pure]
  refine Cmd.wp_step fun t ht => ⟨trivial, Cmd.wp_step fun u hu => ⟨trivial, ?_⟩⟩
  obtain rfl := ticks_none ht hstop
  obtain rfl := ticks_none hu hstop
  obtain ⟨x, hx⟩ := Option.isSome_iff_exists.mp hsome
  refine ⟨?_, fun h48 => ?_, ?_, by show 0 < 2 ^ 36; omega, fun _ => le_rfl, hstop⟩
  · simp [Sys.mapped, hx, getFsyncLen_eq]
  · simp [Sys.mapped, hx, getBufStart_small h48]
  · simp [Sys.mapped, hx]

/-- What `aofguard_init` leaves. -/
theorem aofguardInit_words {nvmSize : Nat} {reset : Bool} {f : File} {nvm : Option NvmFile} {c : Desc} {s : Sys}
    (hr : Runs (aofguardInit nvmSize reset) (.boot f nvm c) true s) : Words 0 s := by
  have hn : SizeOk nvmSize := sizeOk_of_run hr
  have hsmall := hn.blocks.small
  have hno : ∀ {t : Sys}, false = true → Words 0 t := fun hf => absurd hf Bool.false_ne_true
  have hwp : awp AnyReply AnyReply (fun _ => True) (aofguardInit nvmSize reset)
      (fun ok t => ok = true → Words 0 t) (.boot f nvm c) := by
    unfold aofguardInit
    rw [if_neg (Nat.not_lt.mpr hn.1), if_neg (Nat.not_lt.mpr hn.2)]
    simp only [Cmd.wp_bind, Cmd.wp_get, Cmd.wp_ite, Cmd.wp_succeeds, Cmd.wp_pure]
    refine Cmd.wp_conseq (openNvm_mapped _ rfl) fun opened t ht => ⟨fun hok => fun _ _ _ _ => ⟨fun _ => ?_, fun _ => hno⟩,
      fun _ => hno⟩
    obtain ⟨hsome, hstop⟩ := ht hok
    simp only [setUp, setGuard, Cmd.wp_bind, Cmd.wp_get, Cmd.wp_modify, Cmd.wp_ite, Cmd.wp_pure]
    have hstart : ∀ u, WordsSet u.guard.len u → awp AnyReply AnyReply (fun _ => True) startThread
        (fun ok v => ok = true → Words 0 v) u := by
      intro u hu
      simp only [startThread, setGuard, Cmd.wp_bind, Cmd.wp_modify, Cmd.wp_succeeds, Cmd.wp_ite, Cmd.wp_pure]
      exact fun _ _ _ _ _ _ => ⟨fun _ _ => ⟨hu.fsyncWord, hu.startWord, hu.bufEnd, hu.file⟩, fun _ => hno⟩
    refine ⟨fun _ => ?_, fun _ => ?_⟩
    · have hrec := recover_wordsSet (A := AnyReply) (B := AnyReply)
        (s := { t with guard := { t.guard with capacity := blockSize * (nvmSize / blockSize) } }) hsmall hstop
      exact Cmd.wp_conseq hrec fun ok u hu => ⟨fun hok => hstart u (hu hok), fun _ => hno⟩
    · have hreset := resetMeta_wordsSet (A := AnyReply) (B := AnyReply)
        (s := { t with guard := { t.guard with capacity := blockSize * (nvmSize / blockSize) } }) hsome hstop
      exact Cmd.wp_conseq hreset fun ok u hu => ⟨fun _ => hstart u hu, fun _ => hno⟩
  exact Cmd.wp_run hwp hr rfl

end

/-- The words are right between the calls. -/
theorem RingState.words {nvmSize : Nat} {s : Sys} (h : RingState nvmSize s) : Words 0 s := by
  have hb := h.sizeOk.blocks
  have hsmall := hb.small
  induction h with
  | init hr => exact aofguardInit_words hr
  | tick _ ht ih => exact ih.ticks (.single ht)
  | refused hs _ hr ih => exact (Cmd.wp_run (beforeCopy_words (A := AnyReply) (B := AnyReply) hb hs.inRing ih) hr).1
  | @copied s t u d g ok hs hd hr hcap hr' ih =>
    have hbefore := beforeCopy_ring (A := AnyReply) (B := AnyReply) (I := fun _ => True) hb hs.inRing hd fun _ _ => trivial
    obtain ⟨ht, -, hready⟩ := Cmd.wp_run hbefore hr
    obtain ⟨hgcap, hbig | hg⟩ := hready g rfl
    · omega
    · have hwords := Cmd.wp_run (beforeCopy_words (A := AnyReply) (B := AnyReply) hb hs.inRing ih) hr
      have hwt := hwords.2 (by omega) rfl
      exact Cmd.wp_run (copyRecord_words (A := AnyReply) (B := AnyReply) hb ht hwt hgcap hg.start hg.len hg.room) hr'

/-! ## Reading the words -/

/-- The words of `s` give back the synced length, the start of the ring, and its length unless the ring is full. -/
structure Decodes (s : Sys) : Prop where
  fsyncLen : getFsyncLen s.mapped.mixed = s.guard.fsyncLen
  start : getBufStart s.mapped.mixed = s.guard.start
  len : decodeLen s.guard.capacity (getBufStart s.mapped.mixed) s.mapped.bufEnd =
    if s.guard.len = s.guard.capacity then 0 else s.guard.len

theorem Words.decoded {cap : Nat} {s : Sys} (hw : Words 0 s) (h : InRing cap s) (h48 : s.guard.fsyncLen < 2 ^ 48) :
    Decodes s := by
  have hst := hw.startWord h48
  have hcap := h.capacity
  refine ⟨hw.fsyncWord.trans (Nat.mod_eq_of_lt h48), hst, ?_⟩
  rw [hst, hw.bufEnd]
  exact decodeLen_end (hcap ▸ h.start_lt) (hcap ▸ h.len_le)

/-- Packing what was read out of a word gives the word back. -/
theorem makeMixedMeta_get {w : Nat} (hw : w < 2 ^ 64) : makeMixedMeta (getFsyncLen w) (getBufStart w) = w := by
  rw [makeMixedMeta_eq, getBufStart_eq, getFsyncLen_eq, Nat.mul_div_cancel_left _ (by decide)]
  omega

theorem makeMixedMeta_zero {fl : Nat} (h : fl < 2 ^ 48) : makeMixedMeta fl 0 = fl := by
  rw [makeMixedMeta_eq, Nat.zero_div]
  omega

/-- The fresh and reset branch stores the length as it is. -/
theorem resetMeta_mixed {A B : Syscall → Nat → Prop} {size : Nat} {s : Sys} (hsome : s.nvm.isSome = true) :
    awp A B (fun _ => True) (resetMeta size) (fun _ t => t.guard.fsyncLen = size ∧ t.mapped.mixed = size) s := by
  simp only [resetMeta, setGuard, nvmSet64, Cmd.wp_bind, Cmd.wp_modify, Cmd.wp_pure]
  refine Cmd.wp_step fun t ht => ⟨trivial, Cmd.wp_step fun u hu => ⟨trivial, ?_, ?_⟩⟩
  · exact (ticks_fsyncLen hu).trans (ticks_fsyncLen ht)
  · obtain ⟨-, hnvm, -, -⟩ := ticks_keep ht
    obtain ⟨-, hnvm', -, -⟩ := ticks_keep hu
    have hsome₁ : t.nvm.isSome = true := by
      rw [hnvm]
      exact hsome
    have hsome₂ : u.nvm.isSome = true := by
      rw [hnvm', Option.isSome_map]
      exact hsome₁
    have hmapped : u.mapped = _ := ticks_mapped hu
    rw [mapped_map hsome₂, hmapped, mapped_map hsome₁]

/-- **The words in NVM decode to the state in memory** while the synced length is below `2 ^ 48`, as it is in append mode
when the file is; every word is what its parts pack to; and the plain store of the fresh and reset branch is packed. -/
theorem decodes {nvmSize : Nat} :
    (∀ s, RingState nvmSize s → s.guard.fsyncLen < 2 ^ 48 ∨ (s.desc.append = true ∧ s.file.data.length < 2 ^ 48) →
      Decodes s) ∧
    (∀ w, w < 2 ^ 64 → makeMixedMeta (getFsyncLen w) (getBufStart w) = w) ∧
    ∀ size s ok t, size < 2 ^ 48 → s.nvm.isSome = true → Runs (resetMeta size) s ok t →
      t.mapped.mixed = t.guard.fsyncLen ∧ t.mapped.mixed = makeMixedMeta t.guard.fsyncLen 0 := by
  refine ⟨fun s hs hlen => ?_, fun w hw => makeMixedMeta_get hw, fun size s ok t h48 hsome hr => ?_⟩
  · have hw := hs.words
    refine hw.decoded hs.inRing ?_
    obtain h48 | ⟨happ, h48⟩ := hlen
    · exact h48
    · have hfile := hw.file happ
      omega
  · obtain ⟨hfl, hmixed⟩ := Cmd.wp_run (resetMeta_mixed (A := AnyReply) (B := AnyReply) hsome) hr
    rw [hfl, hmixed, makeMixedMeta_zero h48]
    exact ⟨rfl, rfl⟩

/-- A log with one synced byte and five bytes in the second block of the ring, and a reset at seven bytes. -/
theorem decodes_secondBlock : (∃ s, RingState twoBlocks s ∧ s.guard.fsyncLen = 1 ∧ s.guard.start = blockSize ∧
      s.guard.len = 5 ∧ Decodes s) ∧
    makeMixedMeta (getFsyncLen (2 ^ 48 + 7)) (getBufStart (2 ^ 48 + 7)) = 2 ^ 48 + 7 ∧
    ∃ t, Runs (resetMeta 7) newLog true t ∧ t.mapped.mixed = t.guard.fsyncLen ∧
      t.mapped.mixed = makeMixedMeta t.guard.fsyncLen 0 := by
  obtain ⟨hstates, hwords, hreset⟩ := @decodes twoBlocks
  have hrun : ∀ {α : Type} {c : Cmd Syscall Sys α} {s t : Sys} {a : α}, c.exec s = some (a, t) → Runs c s a t :=
    fun h => Cmd.exec_run (fun _ => .refl) (fun _ => trivial) h
  have hinit : ∃ s, (aofguardInit twoBlocks false).exec (.boot (.durable [1])
      (some ⟨128 + 2 ^ 21, 2 ^ 48 + 1, 2 ^ 20 + 5, fun _ => 7⟩) ⟨true, true, 0⟩) = some (true, s) ∧
      s.guard = ⟨1, 2 ^ 21, 2 ^ 20, 5, 0, 0, 0, .idle⟩ := ⟨_, rfl, rfl⟩
  obtain ⟨s, hs, hguard⟩ := hinit
  have hstate : RingState twoBlocks s := .init (hrun hs)
  refine ⟨⟨s, hstate, by rw [hguard], by rw [hguard]; rfl, by rw [hguard], ?_⟩, hwords _ (by decide), ?_⟩
  · exact hstates s hstate (Or.inl (by rw [hguard]; decide))
  · have hreset₇ : Runs (resetMeta 7) newLog true _ := hrun rfl
    exact ⟨_, hreset₇, hreset 7 newLog true _ (by decide) rfl hreset₇⟩

/-! ## Without `O_APPEND` -/

section
variable {cap : Nat} {s : Sys} {d : List Byte}

theorem exec_beforeCopy (hcap : s.guard.capacity = cap) (hsmall : cap < 2 ^ 63) (hw : s.desc.writable = true)
    (h0 : s.guard.blockCount = 0) (hroom : s.guard.len + d.length ≤ cap) :
    (beforeCopy d).exec s = some (some s.guard, s.write d) := by
  have hsum : sadd s.guard.len d.length = s.guard.len + d.length := sadd_eq (by omega)
  simp only [beforeCopy, handleAfsyncIfFinish, makeRoom, Cmd.exec_bind, Cmd.exec_get, Cmd.exec_ite, Cmd.exec_pure,
    Option.bind_some, h0, if_true, hsum, hcap, if_neg (Nat.not_lt.mpr hroom), Cmd.exec_check, if_pos hroom,
    exec_syscallWrite hw (show d.length < 2 ^ 63 by omega)]

/-- A block in an empty ring, asked to be synced. -/
theorem exec_copyRecord_block (hb : Blocks cap) (hcap : s.guard.capacity = cap) (hst : s.guard.start = 0)
    (hlen : s.guard.len = 0) (h0 : s.guard.blockCount = 0) (hd : d.length = blockSize) :
    ∃ x, (copyRecord d s.guard).exec s = some (true, { s with
      nvm := x, guard := { s.guard with len := blockSize, blockCount := 1, semStart := s.guard.semStart + 1 } }) := by
  have hsmall := hb.small
  have hle := hb.le
  have hblock : blockSize < 2 ^ 21 := by decide
  have hfwd : ∀ (t : Sys) (a : Nat), a ≤ cap → (ringBufForward 0 a cap).exec t = some ((0 + a) % cap, t) :=
    fun t a ha => exec_ringBufForward hb hb.pos ha
  have hcopy : ∀ t : Sys, ∃ x, (copyToRing 0 cap d).exec t = some ((), { t with nvm := x }) := by
    intro t
    unfold copyToRing
    rw [sadd_eq (by omega), if_pos (by omega)]
    exact ⟨_, rfl⟩
  obtain ⟨x, hx⟩ := hcopy s
  have hsum : sadd 0 d.length = blockSize := by
    rw [sadd_eq (by omega), Nat.zero_add, hd]
  refine ⟨x.map fun x => { x with bufEnd := (0 + blockSize) % cap }, ?_⟩
  simp only [copyRecord, requestAfsync, setGuard, nvmSet64, Cmd.exec_bind, hst, hlen, hcap, hfwd s 0 (Nat.zero_le _),
    Option.bind_some, Nat.zero_mod, Nat.add_zero, hx, hsum, Cmd.exec_modify, Cmd.exec_check,
    if_pos (show blockSize ≤ cap by omega), hfwd _ blockSize (by omega), Cmd.exec_step, Cmd.exec_get, Cmd.exec_ite,
    Cmd.exec_succeeds, h0]
  rw [if_pos ⟨le_rfl, trivial⟩, if_pos trivial, show blockSize / blockSize = 1 by decide]
  rfl

/-- A call whose record never fits credits the blocks of the outstanding request all the same. -/
theorem exec_beforeCopy_credits (hb : Blocks cap) (h : InRing cap s) (hpos : s.guard.blockCount ≠ 0)
    (hdone : 0 < s.guard.semDone) (hbig : cap < d.length) (hd : d.length < 2 ^ 63) :
    ∃ t, (beforeCopy d).exec s = some (none, t) ∧
      t.guard.fsyncLen = sadd s.guard.fsyncLen (blockSize * s.guard.blockCount) ∧ t.file = s.file := by
  have hsmall := hb.small
  have hlen := h.len_le
  obtain ⟨t, ht, hfile, -, hguard⟩ :=
    exec_handleAfsyncIfFinish hb h.capacity h.start_lt h.start_dvd h.request_le hlen hpos hdone
  refine ⟨t, ?_, by rw [hguard], hfile⟩
  have hcap : t.guard.capacity = cap := by
    rw [hguard]
    exact h.capacity
  have hlen' : t.guard.len = s.guard.len - blockSize * s.guard.blockCount := by rw [hguard]
  have hblock : t.guard.len % blockSize ≤ t.guard.len := Nat.mod_le _ _
  have hfull : cap < sadd t.guard.len d.length := by
    rw [sadd_eq (by omega)]
    omega
  have hrest : cap < sadd (t.guard.len % blockSize) d.length := by
    rw [sadd_eq (by omega)]
    omega
  have hroom : (makeRoom d.length).exec t = some (false, t) := by
    simp only [makeRoom, Cmd.exec_bind, Cmd.exec_get, Cmd.exec_ite, Cmd.exec_pure, Option.bind_some, hcap, if_pos hfull,
      if_pos hrest]
  simp only [beforeCopy, Cmd.exec_bind, ht, Cmd.exec_ite, Option.bind_some, if_true, hroom, Bool.false_eq_true, if_false,
    Cmd.exec_pure]

end

/-- A block written over the start of a long log: the file stays below `2 ^ 48` bytes, and the synced length does not. -/
theorem ringState_over {f : File} {d big : List Byte} (hf : f.data.length = 2 ^ 48 - 1) (hd : d.length = blockSize)
    (hbig : big.length = 2 ^ 40) :
    ∃ s, RingState twoBlocks s ∧ s.file.data.length < 2 ^ 48 ∧ 2 ^ 48 ≤ s.guard.fsyncLen := by
  have hn := sizeOk_twoBlocks
  have hb := hn.blocks
  have hsmall := hb.small
  have hle := hb.le
  have hblock : 0 < blockSize ∧ blockSize < 2 ^ 21 := by decide
  have hrun : ∀ {α : Type} {c : Cmd Syscall Sys α} {s t : Sys} {a : α}, c.exec s = some (a, t) → Runs c s a t :=
    fun h => Cmd.exec_run (fun _ => .refl) (fun _ => trivial) h
  let s₀ : Sys := ⟨f, ⟨false, true, 0⟩, some ⟨128 + capOf twoBlocks, f.data.length, 0, fun _ => 0⟩,
    ⟨f.data.length, capOf twoBlocks, 0, 0, 0, 0, 0, .idle⟩⟩
  have h₀ : RingState twoBlocks s₀ := .init (hrun (exec_fresh hn f ⟨false, true, 0⟩))
  -- the record overwrites the first block
  have hbefore : (beforeCopy d).exec s₀ = some (some s₀.guard, s₀.write d) :=
    exec_beforeCopy rfl (show capOf twoBlocks < 2 ^ 63 by omega) rfl rfl (show 0 + d.length ≤ capOf twoBlocks by omega)
  obtain ⟨x, hcopy⟩ := exec_copyRecord_block (s := s₀.write d) hb rfl rfl rfl rfl hd
  have h₁ := h₀.copied (by omega) (hrun hbefore) (show d.length ≤ capOf twoBlocks by omega) (hrun hcopy)
  -- the thread syncs it
  have h₂ := h₁.tick (.wait (n := 0) trivial rfl (Nat.succ_pos 0))
  have h₃ := h₂.tick (.sync (n := 0) trivial rfl)
  have h₄ := h₃.tick (.post (n := 0) trivial rfl)
  obtain ⟨t, ht, hfl, hfile⟩ := exec_beforeCopy_credits (d := big) hb h₄.inRing (show 1 ≠ 0 by decide)
    (show 0 < 1 by decide) (by omega) (by omega)
  refine ⟨t, h₄.refused (by omega) (hrun ht), ?_, ?_⟩
  · rw [hfile]
    show (Desc.write ⟨false, true, 0⟩ f d).1.data.length < 2 ^ 48
    rw [Desc.write, if_neg (by omega)]
    simp [File.pwrite]
    omega
  · rw [hfl]
    show 2 ^ 48 ≤ sadd f.data.length (blockSize * 1)
    rw [hf, Nat.mul_one, sadd_eq (by omega)]
    omega

/-- The length of the file does not bound the synced length when the descriptor is at an offset. -/
theorem decodes_not_offset : ¬ ∀ nvmSize s, RingState nvmSize s → s.file.data.length < 2 ^ 48 → Decodes s := by
  intro hall
  obtain ⟨l, hl⟩ : ∃ l : List Byte, l.length = 2 ^ 48 - 1 := ⟨List.replicate (2 ^ 48 - 1) 0, List.length_replicate⟩
  obtain ⟨d, hd⟩ : ∃ d : List Byte, d.length = blockSize := ⟨List.replicate blockSize 0, List.length_replicate⟩
  obtain ⟨big, hbig⟩ : ∃ d : List Byte, d.length = 2 ^ 40 := ⟨List.replicate (2 ^ 40) 0, List.length_replicate⟩
  obtain ⟨s, hs, hlen, hfl⟩ := ringState_over (f := .durable l) hl hd hbig
  have hword := (hall twoBlocks s hs hlen).fsyncLen
  rw [getFsyncLen_eq] at hword
  omega

end PmemProgram.Wal
