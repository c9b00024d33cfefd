import PmemProgram.Wal.Inv

/-!
# `aofguard_write` appends atomically

`aofguardWrite_spec` : from a guard of the log `L`, a call that returns 1 ends with a guard of `L ++ d` and one that
returns 0 with a guard of `L`; a power failure inside it finds `L` or `L ++ d` in the file and the NVM.
-/

namespace PmemProgram.Wal
open PmemProgram.Lib PmemProgram.Lib.Ring

/-- Weakest precondition with the answers `A` to the calls, beside the thread with the answers `B`. -/
abbrev awp {α : Type} (A B : Syscall → Nat → Prop) (I : Sys → Prop) (c : Cmd Syscall Sys α) (Q : α → Sys → Prop)
    (s : Sys) : Prop :=
  Cmd.wp (TicksOf B) A I c Q s

/-- Only if `err` a call may fail; `write` transfers all bytes or none, and `sem_post` succeeds. -/
structure Answers (err : Prop) (A : Syscall → Nat → Prop) : Prop where
  succeed : Succeed err A
  write : ∀ k, A .write k → k ≤ 2
  post : ∀ k, A .semPost k → k = 0

theorem answers_zero (err : Prop) : Answers err fun _ k => k = 0 :=
  ⟨succeed_zero err, fun _ h => by omega, fun _ h => h⟩

theorem sadd_eq {a b : Nat} (h : a + b < 2 ^ 64) : sadd a b = a + b := Nat.mod_eq_of_lt h

section
variable {err app dur : Prop} {cap fl st ln bc req k : Nat} {F L d : List Byte} {s t : Sys} {x : NvmFile} {I : Sys → Prop}
  {A B : Syscall → Nat → Prop}

theorem wp_ringBufForward {v a : Nat} {Q : Nat → Sys → Prop} (hb : Blocks cap) (hv : v < cap) (ha : a ≤ cap) :
    awp A B I (ringBufForward v a cap) Q s ↔ Q ((v + a) % cap) s := by
  have hsmall := hb.small
  have hlt := Nat.mod_lt (v + a) hb.pos
  unfold ringBufForward
  rw [sadd_eq (show v + a < 2 ^ 64 by omega), ← ring_end hv ha]
  simp [hlt]

theorem Kept.congr (h : Kept dur F fl req s) (hfile : t.file = s.file) (hdesc : t.desc = s.desc)
    (hthread : t.guard.thread = s.guard.thread) (hdone : t.guard.semDone = s.guard.semDone) : Kept dur F fl req t := by
  obtain ⟨h₁, h₂, h₃, h₄, h₅, h₆⟩ := h
  refine ⟨?_, ?_, h₃, ?_, ?_, ?_⟩
  · rw [hfile, h₁]
  · rw [hdesc, h₂]
  · rw [hfile]
    exact h₄
  · rw [hthread, hfile]
    exact h₅
  · rw [hthread, hdone, hfile]
    exact h₆

theorem Live.setNvm (h : Live err app dur cap F fl st ln bc req s) (y : Option NvmFile) :
    Live err app dur cap F fl st ln bc req { s with nvm := y } :=
  ⟨h.capacity, h.fsyncLen, h.start, h.len, h.blockCount, h.writable, h.started, h.running, h.outstanding,
    fun happ => (h.file happ).congr rfl rfl rfl rfl⟩

theorem Live.setLen (h : Live err app dur cap F fl st ln bc req s) (ln' : Nat) :
    Live err app dur cap F fl st ln' bc req { s with guard := { s.guard with len := ln' } } :=
  ⟨h.capacity, h.fsyncLen, h.start, rfl, h.blockCount, h.writable, h.started, h.running, h.outstanding,
    fun happ => (h.file happ).congr rfl rfl rfl rfl⟩

theorem Live.setBlockCount (h : Live err app dur cap F fl st ln bc req s) (bc' : Nat) :
    Live err app dur cap F fl st ln bc' req { s with guard := { s.guard with blockCount := bc' } } :=
  ⟨h.capacity, h.fsyncLen, h.start, h.len, rfl, h.writable, h.started, h.running, h.outstanding,
    fun happ => (h.file happ).congr rfl rfl rfl rfl⟩

/-! ## Credit for synced blocks -/

theorem Holds.forward {m : Nat} (h : Holds cap x fl st ln L) (hb : Blocks cap) (hd : blockSize ∣ m) (hm : m ≤ ln) :
    Holds cap { x with mixed := makeMixedMeta (fl + m) ((st + m) % cap) } (fl + m) ((st + m) % cap) (ln - m) L where
  size := h.size
  start_lt := Nat.mod_lt _ hb.pos
  start_dvd := (Nat.dvd_mod_iff hb.dvd).mpr (Nat.dvd_add h.start_dvd hd)
  len_le := (Nat.sub_le _ _).trans h.len_le
  split := by have := h.split; omega
  fsyncWord := getFsyncLen_make _ _
  startWord := fun _ => getBufStart_make hb (Nat.mod_lt _ hb.pos)
    ((Nat.dvd_mod_iff hb.dvd).mpr (Nat.dvd_add h.start_dvd hd))
  bufEnd := by rw [Nat.mod_add_mod, h.bufEnd]; congr 1; omega
  ring := by rw [cells_mod, ← drop_cells hm, h.ring, List.drop_drop]

/-- With no request on its way, `fl` may grow up to what is synced. -/
theorem Kept.forward {m : Nat} (h : Kept dur F fl 0 s)
    (hout : s.guard.semStart + s.guard.thread.busy + s.guard.semDone = 0) (hlen : fl + m ≤ F.length)
    (hm : dur → fl + m ≤ s.file.synced) : Kept dur F (fl + m) 0 s where
  data := h.data
  append := h.append
  request := by omega
  synced := hm
  syncing := by
    intro _ i c hi
    simp [hi, Afsync.busy] at hout
  done := by
    intro hdur _
    simpa using hm hdur

theorem Live.forward {m : Nat} (h : Live err app dur cap F fl st ln bc 0 s) (hlen : fl + m ≤ F.length)
    (hm : app → dur → fl + m ≤ s.file.synced) (st' : Nat) :
    Live err app dur cap F (fl + m) st' (ln - m) bc 0
      { s with guard := { s.guard with start := st', len := s.guard.len - m, fsyncLen := fl + m } } :=
  ⟨h.capacity, rfl, rfl, by rw [← h.len], h.blockCount, h.writable, h.started, h.running, h.outstanding,
    fun happ => ((h.file happ).forward (Nat.le_zero.mp h.outstanding) hlen (hm happ)).congr rfl rfl rfl rfl⟩

/-- The log has stayed the same from `s` to `t`, where full blocks may have left the ring. -/
structure Settles (s t : Sys) : Prop where
  len_le : t.guard.len ≤ s.guard.len
  len_mod : t.guard.len % blockSize = s.guard.len % blockSize
  bufEnd : t.mapped.bufEnd = s.mapped.bufEnd

theorem Settles.of_eq (hlen : t.guard.len = s.guard.len) (hnvm : t.nvm = s.nvm) : Settles s t :=
  ⟨hlen.le, by rw [hlen], by rw [Sys.mapped, Sys.mapped, hnvm]⟩

theorem Settles.trans {u : Sys} (h : Settles s t) (h' : Settles t u) : Settles s u :=
  ⟨h'.len_le.trans h.len_le, h'.len_mod.trans h.len_mod, h'.bufEnd.trans h.bufEnd⟩

theorem updateAfterFsync_spec {m : Nat} (hb : Blocks cap) (hlive : Live err app dur cap F fl st ln bc 0 s)
    (hx : s.nvm = some x) (hh : Holds cap x fl st ln L) (hp : L <+: F) (h63 : L.length < 2 ^ 63) (hm : blockSize * k = m)
    (hk : m ≤ ln) (hs : app → dur → fl + m ≤ s.file.synced) (hI : ∀ t, Reads app dur cap ln L t → I t) :
    awp A B I (updateAfterFsync k) (fun _ t => Live err app dur cap F (fl + m) ((st + m) % cap) (ln - m) bc 0 t ∧
      ∃ y, t.nvm = some y ∧ Holds cap y (fl + m) ((st + m) % cap) (ln - m) L ∧ y.bufEnd = x.bufEnd) s := by
  have hsmall := hb.small
  have hlen := hh.len_le
  have hsplit := hh.split
  have hd : blockSize ∣ m := ⟨k, hm.symm⟩
  unfold updateAfterFsync
  apply (Cmd.wp_ite ..).mpr
  constructor
  · intro hk0
    obtain rfl : m = 0 := by rw [← hm, hk0, Nat.mul_zero]
    simp only [Nat.add_zero, Nat.sub_zero, Nat.mod_eq_of_lt hh.start_lt]
    exact ⟨hlive, x, hx, hh, rfl⟩
  · intro _
    have hsize : m % 2 ^ 64 = m := Nat.mod_eq_of_lt (by omega)
    have hfl : sadd fl m = fl + m := sadd_eq (by omega)
    simp only [Cmd.wp_bind, Cmd.wp_get, hm, hsize, hlive.capacity, hlive.start, hlive.len, hlive.fsyncLen, hfl]
    apply (wp_ringBufForward hb hh.start_lt (by omega)).mpr
    simp only [Cmd.wp_check, setGuard, Cmd.wp_modify]
    refine ⟨Nat.mod_eq_zero_of_dvd (hh.forward hb hd hk).start_dvd, hk, ?_⟩
    have hlive' := hlive.forward (by have := hp.length_le; omega) hs ((st + m) % cap)
    refine Cmd.wp_step fun s₁ hs₁ => ?_
    obtain rfl := hlive'.quiet hs₁
    refine ⟨hI _ (hlive.reads (s := s) hx hh hp), hlive'.setNvm _, _, ?_, hh.forward hb hd hk, rfl⟩
    change s.nvm.map _ = _
    rw [hx]
    rfl

/-- The request has been taken from the semaphore. -/
theorem Live.taken (h : Live err app dur cap F fl st ln bc bc s) (hd : 0 < s.guard.semDone) :
    Live err app dur cap F fl st ln bc 0 { s with guard := { s.guard with semDone := s.guard.semDone - 1 } } ∧
      (app → dur → fl + blockSize * bc ≤ s.file.synced) := by
  have hout := h.outstanding
  have hout' : s.guard.semStart + s.guard.thread.busy + (s.guard.semDone - 1) = 0 := by
    split_ifs at hout <;> omega
  refine ⟨⟨h.capacity, h.fsyncLen, h.start, h.len, h.blockCount, h.writable, h.started, h.running, hout'.le,
    fun happ => ?_⟩,
    fun happ hdur => (h.file happ).done hdur (Or.inl hd)⟩
  have hfile := h.file happ
  refine ⟨hfile.data, hfile.append, ?_, hfile.synced, ?_, fun hdur _ => by simpa using hfile.synced hdur⟩
  · have := hfile.request
    omega
  · intro _ i c hi
    have hi' : s.guard.thread = .syncing i c := hi
    simp [hi', Afsync.busy] at hout'

theorem mapped_of_nvm (hx : s.nvm = some x) : s.mapped = x := by rw [Sys.mapped, hx]; rfl

theorem creditAfsync_spec (hb : Blocks cap) (hlive : Live err app dur cap L fl st ln bc 0 s) (hx : s.nvm = some x)
    (hh : Holds cap x fl st ln L) (h63 : L.length < 2 ^ 63) (hbc : blockSize * bc ≤ ln)
    (hs : app → dur → fl + blockSize * bc ≤ s.file.synced) (hI : ∀ t, Reads app dur cap ln L t → I t) :
    awp A B I creditAfsync (fun ok t => ok = true ∧ Guard err app dur cap L t ∧ Settles s t ∧
      t.guard.blockCount = 0) s := by
  unfold creditAfsync
  simp only [Cmd.wp_bind, Cmd.wp_get, hlive.blockCount]
  refine Cmd.wp_conseq (updateAfterFsync_spec hb hlive hx hh (List.prefix_refl L) h63 rfl hbc hs hI) ?_
  rintro _ t ⟨hlive', y, hy, hhy, hend⟩
  refine ⟨rfl, ⟨_, _, _, 0, y, hlive'.setBlockCount 0, hy, hhy, by omega⟩, ⟨?_, ?_, ?_⟩, rfl⟩
  · change t.guard.len ≤ s.guard.len
    rw [hlive'.len, hlive.len]
    omega
  · change t.guard.len % blockSize = s.guard.len % blockSize
    rw [hlive'.len, hlive.len]
    exact Nat.sub_mul_mod hbc
  · change t.mapped.bufEnd = s.mapped.bufEnd
    rw [mapped_of_nvm hy, mapped_of_nvm hx, hend]

/-- The request was found done and is credited. -/
theorem taken_spec (hb : Blocks cap) (hlive : Live err app dur cap L fl st ln bc bc s) (hx : s.nvm = some x)
    (hh : Holds cap x fl st ln L) (h63 : L.length < 2 ^ 63) (hbc : blockSize * bc ≤ ln) (hd : 0 < s.guard.semDone)
    (hI : ∀ t, Reads app dur cap ln L t → I t) :
    awp A B I creditAfsync (fun ok t => ok = true ∧ Guard err app dur cap L t ∧ Settles s t ∧ t.guard.blockCount = 0)
      { s with guard := { s.guard with semDone := s.guard.semDone - 1 } } := by
  obtain ⟨htaken, hs⟩ := hlive.taken hd
  exact Cmd.wp_conseq (creditAfsync_spec hb htaken hx hh h63 hbc hs hI) fun _ _ h => ⟨h.1, h.2.1,
    ⟨h.2.2.1.len_le, h.2.2.1.len_mod, h.2.2.1.bufEnd⟩, h.2.2.2⟩

theorem handleAfsyncIfFinish_spec (hA : Succeed err A) (hB : Succeed err B) (hb : Blocks cap)
    (h : Guard err app dur cap L s) (h63 : L.length < 2 ^ 63) (hI : ∀ t, Reads app dur cap s.guard.len L t → I t) :
    awp A B I handleAfsyncIfFinish
      (fun ok t => (¬ err → ok = true) ∧ Guard err app dur cap L t ∧ Settles s t) s := by
  have hinv := h
  obtain ⟨fl, st, ln, bc, x, hlive, hx, hh, hbc⟩ := h
  rw [hlive.len] at hI
  unfold handleAfsyncIfFinish
  simp only [Cmd.wp_bind, Cmd.wp_get, Cmd.wp_ite, Cmd.wp_succeeds, Cmd.wp_pure]
  refine ⟨fun _ => ⟨fun _ => trivial, hinv, .of_eq rfl rfl⟩, fun _ n hn => ⟨fun _ => ?_, fun hf => ?_⟩⟩
  · refine Cmd.wp_stepGet fun s₁ hs₁ => ?_
    obtain ⟨hlive₁, hnvm⟩ := hlive.ticks hB hs₁
    have hx₁ := hnvm.trans hx
    have hstay : Settles s s₁ := .of_eq (hlive₁.len.trans hlive.len.symm) hnvm
    refine ⟨hI _ (hlive₁.reads hx₁ hh (List.prefix_refl L)), ?_⟩
    by_cases hd : 0 < s₁.guard.semDone
    · rw [if_pos hd]
      refine ⟨fun _ => ?_, fun hf => absurd rfl hf⟩
      exact Cmd.wp_conseq (taken_spec hb hlive₁ hx₁ hh h63 hbc hd hI) fun _ _ h =>
        ⟨fun _ => h.1, h.2.1, hstay.trans h.2.2.1⟩
    · rw [if_neg hd]
      exact ⟨by simp, fun _ => ⟨fun _ => trivial, ⟨fl, st, ln, bc, x, hlive₁, hx₁, hh, hbc⟩, hstay⟩⟩
  · exact ⟨fun herr => by simp [hA herr _ n hn] at hf, hinv, .of_eq rfl rfl⟩

theorem waitAfsyncDone_spec (hA : Succeed err A) (hB : Succeed err B) (hb : Blocks cap)
    (h : Guard err app dur cap L s) (h63 : L.length < 2 ^ 63) (hI : ∀ t, Reads app dur cap s.guard.len L t → I t) :
    awp A B I waitAfsyncDone (fun ok t => (¬ err → ok = true) ∧ Guard err app dur cap L t ∧ Settles s t ∧
      (ok = true → t.guard.blockCount = 0)) s := by
  have hinv := h
  obtain ⟨fl, st, ln, bc, x, hlive, hx, hh, hbc⟩ := h
  rw [hlive.len] at hI
  unfold waitAfsyncDone
  simp only [Cmd.wp_bind, Cmd.wp_get, Cmd.wp_ite, Cmd.wp_succeeds, Cmd.wp_pure]
  refine ⟨fun h0 => ⟨fun _ => trivial, hinv, .of_eq rfl rfl, fun _ => h0⟩, fun _ n hn => ⟨fun _ => ?_, fun hf => ?_⟩⟩
  · refine Cmd.wp_await fun s₁ hs₁ => ?_
    obtain ⟨hlive₁, hnvm⟩ := hlive.ticks hB hs₁
    have hx₁ := hnvm.trans hx
    have hstay : Settles s s₁ := .of_eq (hlive₁.len.trans hlive.len.symm) hnvm
    refine ⟨hI _ (hlive₁.reads hx₁ hh (List.prefix_refl L)), fun s₂ hs₂ => ?_⟩
    split_ifs at hs₂ with hd
    cases hs₂
    exact Cmd.wp_conseq (taken_spec hb hlive₁ hx₁ hh h63 hbc hd hI) fun _ _ h =>
      ⟨fun _ => h.1, h.2.1, hstay.trans h.2.2.1, fun _ => h.2.2.2⟩
  · exact ⟨fun herr => by simp [hA herr _ n hn] at hf, hinv, .of_eq rfl rfl, by simp⟩

/-! ## Room in the ring -/

theorem Live.syncAll (h : Live err app dur cap F fl st ln bc 0 s) :
    Live err app dur cap F fl st ln bc 0 { s with file := s.file.syncAll } := by
  refine ⟨h.capacity, h.fsyncLen, h.start, h.len, h.blockCount, h.writable, h.started, h.running, h.outstanding,
    fun happ => ?_⟩
  have hfile := h.file happ
  exact ⟨hfile.data, hfile.append, hfile.request, fun hdur => (hfile.synced hdur).trans (le_max_left _ _),
    hfile.syncing, fun hdur hd => (hfile.done hdur hd).trans (le_max_left _ _)⟩

theorem doFsync_spec (hA : Succeed err A) (hb : Blocks cap) (h : Guard err app dur cap L s)
    (h0 : s.guard.blockCount = 0) (h63 : L.length < 2 ^ 63) (hI : ∀ t, Reads app dur cap s.guard.len L t → I t) :
    awp A B I doFsync (fun ok t => (¬ err → ok = true) ∧ Guard err app dur cap L t ∧ Settles s t ∧
      (ok = true → t.guard.len = s.guard.len % blockSize)) s := by
  have hinv := h
  obtain ⟨fl, st, ln, bc, x, hlive, hx, hh, _⟩ := h
  obtain rfl : bc = 0 := hlive.blockCount.symm.trans h0
  rw [hlive.len] at hI
  unfold doFsync
  simp only [Cmd.wp_bind, Cmd.wp_ite, Cmd.wp_succeeds, Cmd.wp_pure]
  refine fun n hn => ⟨fun _ => ?_, fun hf => ?_⟩
  · refine Cmd.wp_step fun s₁ hs₁ => ?_
    obtain rfl := hlive.quiet hs₁
    refine ⟨hI _ (hlive.reads hx hh (List.prefix_refl L)), ?_⟩
    have hlive' := hlive.syncAll
    simp only [Cmd.wp_get, hlive.len]
    have hdiv := Nat.div_add_mod ln blockSize
    have hsynced : app → dur → fl + blockSize * (ln / blockSize) ≤ s₁.file.syncAll.synced := by
      intro happ _
      have hsplit := hh.split
      rw [File.syncAll_synced, (hlive.file happ).data]
      omega
    refine Cmd.wp_conseq (updateAfterFsync_spec hb hlive' hx hh (List.prefix_refl L) h63 rfl
      (Nat.mul_div_le ln blockSize) hsynced hI) ?_
    rintro _ t ⟨hlive₂, y, hy, hhy, hend⟩
    have hlen : t.guard.len = s₁.guard.len % blockSize := by
      rw [hlive₂.len, hlive.len]
      omega
    refine ⟨fun _ => trivial, ⟨_, _, _, 0, y, hlive₂, hy, hhy, by omega⟩, ⟨?_, ?_, ?_⟩, fun _ => hlive.len ▸ hlen⟩
    · exact hlen ▸ Nat.mod_le _ _
    · rw [hlen, Nat.mod_mod]
    · rw [mapped_of_nvm hy, mapped_of_nvm hx, hend]
  · exact ⟨fun herr => by simp [hA herr _ n hn] at hf, hinv, .of_eq rfl rfl, by simp⟩

/-- Without failures there is room exactly if the record fits beside the part of a block that is in the ring. -/
theorem makeRoom_spec {n : Nat} (hA : Succeed err A) (hB : Succeed err B) (hb : Blocks cap)
    (h : Guard err app dur cap L s) (h63 : L.length < 2 ^ 63) (hn : n < 2 ^ 63)
    (hI : ∀ t, Reads app dur cap s.guard.len L t → I t) :
    awp A B I (makeRoom n) (fun ok t => Guard err app dur cap L t ∧ Settles s t ∧
      (ok = true → t.guard.len + n ≤ cap) ∧ (¬ err → s.guard.len % blockSize + n ≤ cap → ok = true)) s := by
  have hinv := h
  have hsmall := hb.small
  have hmod := Nat.mod_le s.guard.len blockSize
  have hlen := hinv.len_le
  unfold makeRoom
  simp only [Cmd.wp_bind, Cmd.wp_get, Cmd.wp_ite, Cmd.wp_pure, hinv.capacity]
  rw [sadd_eq (show s.guard.len + n < 2 ^ 64 by omega), sadd_eq (show s.guard.len % blockSize + n < 2 ^ 64 by omega)]
  refine ⟨fun hfull => ⟨fun hbig => ⟨hinv, .of_eq rfl rfl, by simp, fun _ _ => by omega⟩, fun hroom => ?_⟩,
    fun hroom => ⟨hinv, .of_eq rfl rfl, fun _ => by omega, fun _ _ => trivial⟩⟩
  refine Cmd.wp_conseq (waitAfsyncDone_spec hA hB hb hinv h63 hI) ?_
  rintro ok t ⟨hok, hinv', hstay, h0⟩
  have hlen' := hstay.len_le
  have hmod' := hstay.len_mod
  refine ⟨fun ht => ?_, fun hf => ⟨hinv', hstay, by simp, fun herr => absurd (hok herr) hf⟩⟩
  rw [hinv'.capacity, sadd_eq (show t.guard.len + n < 2 ^ 64 by omega)]
  refine ⟨fun hfull' => ?_, fun hroom' => ⟨hinv', hstay, fun _ => by omega, fun _ _ => trivial⟩⟩
  refine Cmd.wp_conseq (doFsync_spec hA hb hinv' (h0 ht) h63 fun u hu => hI u (hu.mono hlen')) ?_
  rintro ok u ⟨hok', hinv'', hstay', heq⟩
  refine ⟨hinv'', hstay.trans hstay', fun ht' => ?_, fun herr _ => hok' herr⟩
  have := heq ht'
  omega

/-! ## The record -/

theorem Desc.write_append {c : Desc} (hc : c.append = true) (f : File) (d : List Byte) :
    (c.write f d).1.data = f.data ++ d ∧ (c.write f d).1.synced = f.synced ∧ (c.write f d).2.append = true := by
  unfold Desc.write
  split_ifs with hd
  · simp [List.eq_nil_of_length_eq_zero hd, hc]
  · simp [File.pwrite, hc, f.synced_le]

/-- A write at the end of the file leaves everything before it as it is. -/
theorem Desc.write_intact {c : Desc} (hc : c.append = true) (f : File) (d : List Byte) (n k : Nat) :
    min (f.intact n k) f.data.length ≤ (c.write f d).1.intact n k := by
  unfold Desc.write
  split_ifs
  · exact min_le_left _ _
  · exact File.intact_change (by simp [File.pwrite]) n k

theorem Desc.write_writable (c : Desc) (f : File) (d : List Byte) : (c.write f d).2.writable = c.writable := by
  unfold Desc.write
  split_ifs <;> rfl

theorem Live.write (h : Live err app dur cap F fl st ln bc req s) (d : List Byte) :
    Live err app dur cap (F ++ d) fl st ln bc req (s.write d) := by
  refine ⟨h.capacity, h.fsyncLen, h.start, h.len, h.blockCount, (Desc.write_writable ..).trans h.writable, h.started,
    h.running, h.outstanding, fun happ => ?_⟩
  have hfile := h.file happ
  obtain ⟨hdata, hsynced, happend⟩ := Desc.write_append hfile.append s.file d
  refine ⟨hdata.trans (by rw [hfile.data]), happend, ?_, fun hdur => (hfile.synced hdur).trans_eq hsynced.symm, ?_, ?_⟩
  · have := hfile.request
    rw [List.length_append]
    omega
  · intro hdur i k hi
    have hreq : fl + blockSize * req ≤ s.file.data.length := hfile.data ▸ hfile.request
    exact (le_min (hfile.syncing hdur i k hi) hreq).trans (Desc.write_intact hfile.append ..)
  · intro hdur hd
    exact (hfile.done hdur hd).trans_eq hsynced.symm

theorem Sys.write_nil (s : Sys) : s.write [] = s := rfl

/-- `write` transfers all bytes, fails or transfers none. -/
theorem wp_syscallWrite_any {R : Sys → Sys → Prop} {Q : Nat → Sys → Prop} (hw : s.desc.writable = true)
    (hd : d.length < 2 ^ 63) (hA : ∀ n, A .write n → n ≤ 2)
    (h : ∀ s₁, R s s₁ → I s₁ ∧ Q d.length (s₁.write d) ∧ (A .write 2 → Q 0 s₁)) (hfail : A .write 1 → Q (2 ^ 64 - 1) s) :
    Cmd.wp R A I (syscallWrite d) Q s := by
  intro n hn
  have hlen : ¬ 2 ^ 63 ≤ d.length := Nat.not_le.mpr hd
  simp only [Cmd.wp_bind, Cmd.wp_get, hw, Bool.true_eq_false, hlen, false_or]
  refine (Cmd.wp_ite ..).mpr ⟨fun h1 => hfail (h1 ▸ hn), fun h1 => Cmd.wp_stepGet fun s₁ hs₁ => ?_⟩
  obtain ⟨hI, hall, hnone⟩ := h s₁ hs₁
  obtain rfl | rfl : n = 0 ∨ n = 2 := by have := hA n hn; omega
  · rw [if_pos rfl, List.take_length]
    exact ⟨hI, hall⟩
  · rw [if_neg (by omega), Nat.sub_self, Nat.zero_min, List.take_zero, Sys.write_nil]
    exact ⟨hI, hnone hn⟩

theorem wp_syscallWrite {R : Sys → Sys → Prop} {Q : Nat → Sys → Prop} (hw : s.desc.writable = true)
    (hd : d.length < 2 ^ 63) (h : ∀ s₁, R s s₁ → I s₁ ∧ Q d.length (s₁.write d)) :
    Cmd.wp R (fun _ k => k = 0) I (syscallWrite d) Q s :=
  wp_syscallWrite_any hw hd (fun n hn => by omega) (fun s₁ hs₁ => ⟨(h s₁ hs₁).1, (h s₁ hs₁).2, by simp⟩) (by simp)

/-- Only the cells behind the contents have changed. -/
theorem Holds.setData (h : Holds cap x fl st ln L) {data : Nat → Byte}
    (hd : cells data cap st ln = cells x.data cap st ln) : Holds cap { x with data := data } fl st ln L :=
  ⟨h.size, h.start_lt, h.start_dvd, h.len_le, h.split, h.fsyncWord, h.startWord, h.bufEnd, hd.trans h.ring⟩

/-- A copy of `d` to the end of the ring that does not wrap. -/
theorem nvmMemcpy_spec {pos n : Nat} {Q : Unit → Sys → Prop} (hB : Succeed err B)
    (hlive : Live err app dur cap F fl st ln bc req s) (hx : s.nvm = some x) (hs : st < cap) (hn : n + d.length ≤ cap) (hpos : pos = (st + n) % cap)
    (he : pos + d.length ≤ cap)
    (hI : ∀ t data, Live err app dur cap F fl st ln bc req t → t.nvm = some { x with data := data } →
      cells data cap st n = cells x.data cap st n → I t)
    (hQ : ∀ t data, Live err app dur cap F fl st ln bc req t → t.nvm = some { x with data := data } →
      cells data cap st (n + d.length) = cells x.data cap st n ++ d → Q () t) :
    awp A B I (nvmMemcpy pos d) Q s := by
  refine Cmd.wp_pieces fun s₁ hs₁ => ?_
  obtain ⟨hlive₁, hnvm⟩ := hlive.ticks hB hs₁
  have hx₁ := hnvm.trans hx
  subst hpos
  refine ⟨hI _ x.data hlive₁ hx₁ rfl, fun m => ?_, ?_⟩
  · refine hI _ _ (hlive₁.setNvm _) ?_ (cells_put_end m hs hn)
    rw [hx₁]
    rfl
  · refine hQ _ _ (hlive₁.setNvm _) ?_ (cells_put_append hs hn he)
    rw [hx₁]
    rfl

/-- The copy appends `d` to the ring without touching its contents, in one part or in two. -/
theorem copyToRing_spec {Q : Unit → Sys → Prop} (hB : Succeed err B) (hb : Blocks cap)
    (hlive : Live err app dur cap F fl st ln bc req s)
    (hx : s.nvm = some x) (hh : Holds cap x fl st ln L) (hn : ln + d.length ≤ cap)
    (hI : ∀ t data, Live err app dur cap F fl st ln bc req t → t.nvm = some { x with data := data } →
      Holds cap { x with data := data } fl st ln L → I t)
    (hQ : ∀ t data, Live err app dur cap F fl st ln bc req t → t.nvm = some { x with data := data } →
      cells data cap st (ln + d.length) = L.drop fl ++ d → Q () t) :
    awp A B I (copyToRing ((st + ln) % cap) cap d) Q s := by
  have hsmall := hb.small
  have hpos := Nat.mod_lt (st + ln) hb.pos
  unfold copyToRing
  rw [sadd_eq (show (st + ln) % cap + d.length < 2 ^ 64 by omega)]
  refine (Cmd.wp_ite ..).mpr ⟨fun he => ?_, fun he => ?_⟩
  · refine nvmMemcpy_spec hB hlive hx hh.start_lt hn rfl he (fun t data h₁ h₂ h₃ => hI t data h₁ h₂ (hh.setData h₃))
      fun t data h₁ h₂ h₃ => hQ t data h₁ h₂ ?_
    rw [h₃, hh.ring]
  · generalize hfront : cap - (st + ln) % cap = front
    have hlen : (d.take front).length = front := by rw [List.length_take]; omega
    simp only [Cmd.wp_bind]
    refine nvmMemcpy_spec hB hlive hx hh.start_lt (by omega) rfl (by omega)
      (fun t data h₁ h₂ h₃ => hI t data h₁ h₂ (hh.setData h₃)) fun t data h₁ h₂ h₃ => ?_
    -- the first part has filled the ring up to its end, so that the second starts at cell 0
    have hend : (st + (ln + front)) % cap = 0 := by
      rw [← Nat.add_assoc, ← Nat.mod_add_mod, show (st + ln) % cap + front = cap by omega, Nat.mod_self]
    have hkeep : ∀ data' : Nat → Byte, cells data' cap st (ln + (d.take front).length) =
        cells data cap st (ln + (d.take front).length) → cells data' cap st ln = cells x.data cap st ln := by
      intro data' h'
      rw [h₃, cells_add] at h'
      exact (List.append_inj h' (by simp)).1
    refine nvmMemcpy_spec hB h₁ h₂ hh.start_lt (by rw [hlen, List.length_drop]; omega) (by rw [hlen, hend])
      (by rw [List.length_drop]; omega) (fun u data' h₄ h₅ h₆ => hI u data' h₄ h₅ (hh.setData (hkeep data' h₆)))
      fun u data' h₄ h₅ h₆ => hQ u data' h₄ h₅ ?_
    have hlens : ln + (d.take front).length + (d.drop front).length = ln + d.length := by
      rw [List.length_take, List.length_drop]
      omega
    rw [hlens] at h₆
    rw [h₆, h₃, hh.ring, List.append_assoc, List.take_append_drop]

/-- A new request has been posted. -/
theorem Live.post (h : Live err app dur cap F fl st ln bc 0 s) (hr : app → fl + blockSize * req ≤ F.length) (h0 : req ≠ 0) :
    Live err app dur cap F fl st ln bc req { s with guard := { s.guard with semStart := s.guard.semStart + 1 } } := by
  have hout : s.guard.semStart + s.guard.thread.busy + s.guard.semDone = 0 := Nat.le_zero.mp h.outstanding
  refine ⟨h.capacity, h.fsyncLen, h.start, h.len, h.blockCount, h.writable, h.started, h.running, ?_, fun happ => ?_⟩
  · change s.guard.semStart + 1 + s.guard.thread.busy + s.guard.semDone ≤ _
    rw [if_neg h0]
    omega
  · have hfile := h.file happ
    refine ⟨hfile.data, hfile.append, hr happ, hfile.synced, ?_, ?_⟩
    · intro _ i c hi
      have hi' : s.guard.thread = .syncing i c := hi
      simp [hi', Afsync.busy] at hout
    · rintro _ (hd | hd)
      · have hd' : 0 < s.guard.semDone := hd
        omega
      · have hd' : s.guard.thread = .synced := hd
        simp [hd', Afsync.busy] at hout

theorem requestAfsync_spec (hA : ∀ n, A .semPost n → n = 0) (h : Guard err app dur cap L s)
    (hI : ∀ t, t.guard.len = s.guard.len → Reads app dur cap s.guard.len L t → I t) :
    awp A B I requestAfsync (fun ok t => ok = true ∧ Guard err app dur cap L t ∧ t.guard.len = s.guard.len ∧
      t.nvm = s.nvm) s := by
  have hinv := h
  obtain ⟨fl, st, ln, bc, x, hlive, hx, hh, _⟩ := h
  obtain rfl := hlive.len
  unfold requestAfsync
  simp only [Cmd.wp_bind, Cmd.wp_get, Cmd.wp_ite, Cmd.wp_succeeds, Cmd.wp_pure, setGuard, Cmd.wp_modify]
  refine ⟨fun hreq n hn => ⟨fun _ => ?_, fun hf => by simp [hA n hn] at hf⟩, fun _ => ⟨trivial, hinv, trivial, trivial⟩⟩
  obtain rfl : bc = 0 := hlive.blockCount.symm.trans hreq.2
  have hle := Nat.mul_div_le s.guard.len blockSize
  have hne : s.guard.len / blockSize ≠ 0 := (Nat.div_pos hreq.1 (by decide)).ne'
  have hlive' := hlive.setBlockCount (s.guard.len / blockSize)
  refine Cmd.wp_step fun s₁ hs₁ => ?_
  obtain rfl := hlive'.quiet hs₁
  refine ⟨hI _ rfl (hlive.reads (s := s) hx hh (List.prefix_refl L)), trivial, ?_, rfl, rfl⟩
  have hroom : fl + blockSize * (s.guard.len / blockSize) ≤ L.length := by
    have := hh.split
    omega
  exact ⟨fl, st, s.guard.len, s.guard.len / blockSize, x, hlive'.post (fun _ => hroom) hne, hx, hh, hle⟩

/-- The store of `buf_end` makes the copied bytes part of the log. -/
theorem Holds.append (h : Holds cap x fl st ln L) (hn : ln + d.length ≤ cap) {data : Nat → Byte}
    (hd : cells data cap st (ln + d.length) = L.drop fl ++ d) :
    Holds cap { x with data := data, bufEnd := (st + (ln + d.length)) % cap } fl st (ln + d.length) (L ++ d) where
  size := h.size
  start_lt := h.start_lt
  start_dvd := h.start_dvd
  len_le := hn
  split := by
    have := h.split
    rw [List.length_append]
    omega
  fsyncWord := h.fsyncWord
  startWord := h.startWord
  bufEnd := rfl
  ring := by
    have := h.split
    rw [hd, List.drop_append_of_le_length (by omega)]

end

/-- A power failure finds the log before or after the record. -/
def Safe (app dur : Prop) (cap n : Nat) (L d : List Byte) (t : Sys) : Prop :=
  Reads app dur cap n L t ∨ t.guard.len ≤ cap ∧ Reads app dur cap t.guard.len (L ++ d) t

section
variable {err app dur : Prop} {cap n : Nat} {L d : List Byte} {s : Sys} {A B : Syscall → Nat → Prop}

/-- What a call with the record `d` does to the counters: appended if `ok`, and nothing if not. -/
structure Advances (cap : Nat) (d : List Byte) (ok : Bool) (s t : Sys) : Prop where
  len_mod : t.guard.len % blockSize = (s.guard.len + if ok = true then d.length else 0) % blockSize
  bufEnd : t.mapped.bufEnd = if ok = true then (s.mapped.bufEnd + d.length) % cap else s.mapped.bufEnd

theorem Settles.advances {ok : Bool} {t u : Sys} (h : Settles s t) (h' : Advances cap d ok t u) : Advances cap d ok s u where
  len_mod := by
    rw [h'.len_mod, Nat.add_mod, h.len_mod, ← Nat.add_mod]
  bufEnd := by rw [h'.bufEnd, h.bufEnd]

theorem Settles.refused {t : Sys} (h : Settles s t) : Advances cap d false s t :=
  ⟨by simpa using h.len_mod, by simpa using h.bufEnd⟩

/-- `aofguard_write` once the record is in the file: the rest does not fail. -/
theorem storeRecord_spec {fl st ln bc : Nat} {x : NvmFile} (hA : ∀ n, A .semPost n → n = 0) (hB : Succeed err B)
    (hb : Blocks cap) (hlive : Live err app dur cap (L ++ d) fl st ln bc bc s) (hx : s.nvm = some x)
    (hh : Holds cap x fl st ln L) (hbc : blockSize * bc ≤ ln) (hroom : ln + d.length ≤ cap) (hn : ln ≤ n) :
    awp A B (Safe app dur cap n L d) (do
      let writePos ← ringBufForward st ln cap
      copyToRing writePos cap d
      setGuard fun g => { g with len := ln + d.length }
      Cmd.check (ln + d.length ≤ cap)
      let bufEnd ← ringBufForward st (ln + d.length) cap
      nvmSet64 fun x => { x with bufEnd }
      requestAfsync) (fun ok t => ok = true ∧ Guard err app dur cap (L ++ d) t ∧ t.guard.len = ln + d.length ∧
        t.mapped.bufEnd = (x.bufEnd + d.length) % cap) s := by
  simp only [Cmd.wp_bind]
  apply (wp_ringBufForward hb hh.start_lt hh.len_le).mpr
  refine copyToRing_spec hB hb hlive hx hh hroom (fun t data h₁ h₂ h₃ => ?_) fun t data h₁ h₂ h₃ => ?_
  · exact Or.inl ((h₁.reads h₂ h₃ (List.prefix_append L d)).mono hn)
  simp only [setGuard, Cmd.wp_modify, Cmd.wp_check]
  refine ⟨hroom, (wp_ringBufForward hb hh.start_lt hroom).mpr ?_⟩
  -- until `buf_end` is stored the NVM file still holds `L`
  have hkeep : Holds cap { x with data := data } fl st ln L := by
    refine hh.setData ?_
    rw [cells_add, ← hh.ring] at h₃
    exact (List.append_inj h₃ (by simp)).1
  have hlive₂ := h₁.setLen (ln + d.length)
  refine Cmd.wp_step fun s₃ hs₃ => ?_
  obtain ⟨hlive₃, hnvm₃⟩ := hlive₂.ticks hB hs₃
  have hx₃ := hnvm₃.trans h₂
  refine ⟨Or.inl ((hlive₃.reads hx₃ hkeep (List.prefix_append L d)).mono hn), ?_⟩
  have hx₄ : s₃.nvm.map (fun y => { y with bufEnd := (st + (ln + d.length)) % cap }) =
      some { x with data := data, bufEnd := (st + (ln + d.length)) % cap } := by
    rw [hx₃]
    rfl
  have hinv : Guard err app dur cap (L ++ d)
      { s₃ with nvm := s₃.nvm.map fun y => { y with bufEnd := (st + (ln + d.length)) % cap } } :=
    ⟨fl, st, ln + d.length, bc, _, hlive₃.setNvm _, hx₄, hh.append hroom h₃, by omega⟩
  refine Cmd.wp_conseq (requestAfsync_spec hA hinv fun t hlen hi => Or.inr ⟨hlen ▸ hinv.len_le, hlen ▸ hi⟩) ?_
  rintro ok t ⟨hok, hguard, hlen, hnvm⟩
  refine ⟨hok, hguard, hlen.trans hlive₃.len, ?_⟩
  rw [mapped_of_nvm (hnvm.trans hx₄), hh.bufEnd, Nat.mod_add_mod, Nat.add_assoc]

theorem appendRecord_spec (hA : Answers err A) (hB : Succeed err B) (hb : Blocks cap) (h : Guard err app dur cap L s)
    (hroom : s.guard.len + d.length ≤ cap) (hn : s.guard.len ≤ n) :
    awp A B (Safe app dur cap n L d) (appendRecord d) (fun ok t => (¬ err → ok = true) ∧
      Guard err app dur cap (if ok = true then L ++ d else L) t ∧ Advances cap d ok s t) s := by
  have hinv := h
  obtain ⟨fl, st, ln, bc, x, hlive, hx, hh, hbc⟩ := h
  have hsmall := hb.small
  rw [hlive.len] at hroom hn
  unfold appendRecord
  simp only [Cmd.wp_bind, Cmd.wp_get, Cmd.wp_check, Cmd.wp_ite, Cmd.wp_pure, hlive.len, hlive.capacity, hlive.start]
  rw [sadd_eq (show ln + d.length < 2 ^ 64 by omega)]
  have hrefused : ∀ k t, A .write k → k ≠ 0 → Guard err app dur cap L t → Settles s t → (¬ err → false = true) ∧
      Guard err app dur cap (if false = true then L ++ d else L) t ∧ Advances cap d false s t :=
    fun k t hk hne hg hs => ⟨fun herr => absurd (hA.succeed herr _ k hk) hne, hg, hs.refused⟩
  refine ⟨hroom, wp_syscallWrite_any hlive.writable (by omega) hA.write (fun s₁ hs₁ => ?_) fun h1 =>
    ⟨fun hf => by omega, fun _ => hrefused 1 s h1 (by decide) hinv (.of_eq rfl rfl)⟩⟩
  obtain ⟨hlive₁, hnvm⟩ := hlive.ticks hB hs₁
  have hx₁ := hnvm.trans hx
  have hrest := Cmd.wp_conseq (storeRecord_spec hA.post hB hb (hlive₁.write d) hx₁ hh hbc hroom hn) fun ok t h =>
    show (¬ err → ok = true) ∧ Guard err app dur cap (if ok = true then L ++ d else L) t ∧ Advances cap d ok s t by
      obtain ⟨rfl, hguard, hlen, hend⟩ := h
      exact ⟨fun _ => rfl, hguard, by rw [hlen, hlive.len, if_pos rfl], by rw [hend, mapped_of_nvm hx, if_pos rfl]⟩
  simp only [Cmd.wp_bind, Cmd.wp_check] at hrest
  refine ⟨Or.inl ((hlive₁.reads hx₁ hh (List.prefix_refl L)).mono hn), ⟨fun _ => hrest, fun hf => absurd rfl hf⟩,
    fun h2 => ⟨fun hd => ?_, fun _ => hrefused 2 s₁ h2 (by decide) ⟨fl, st, ln, bc, x, hlive₁, hx₁, hh, hbc⟩
      (.of_eq (hlive₁.len.trans hlive.len.symm) hnvm)⟩⟩
  obtain rfl := List.eq_nil_of_length_eq_zero hd.symm
  exact hrest

/-- A call that returns 1 has appended `d` to the log, and a call that returns 0 has left the log alone; without failures
it returns 1 exactly if `d` fits beside the part of a block in the ring. -/
theorem aofguardWrite_spec (hA : Answers err A) (hB : Succeed err B) (hb : Blocks cap) (h : Guard err app dur cap L s)
    (h63 : L.length < 2 ^ 63) (hd : d.length < 2 ^ 63) :
    awp A B (Safe app dur cap s.guard.len L d) (aofguardWrite d) (fun ok t =>
      Guard err app dur cap (if ok = true then L ++ d else L) t ∧ Advances cap d ok s t ∧
      (ok = true → s.guard.len % blockSize + d.length ≤ cap) ∧
      (¬ err → s.guard.len % blockSize + d.length ≤ cap → ok = true)) s := by
  have hsafe : ∀ m, m ≤ s.guard.len → ∀ t, Reads app dur cap m L t → Safe app dur cap s.guard.len L d t :=
    fun m hm t ht => Or.inl (ht.mono hm)
  unfold aofguardWrite
  simp only [Cmd.wp_bind, Cmd.wp_ite, Cmd.wp_pure]
  refine Cmd.wp_conseq (handleAfsyncIfFinish_spec hA.succeed hB hb h h63 (hsafe _ le_rfl)) ?_
  rintro ok s₁ ⟨hok₁, hinv₁, hstay₁⟩
  refine ⟨fun _ => ?_, fun hf => ⟨hinv₁, hstay₁.refused, by simp, fun herr => absurd (hok₁ herr) hf⟩⟩
  refine Cmd.wp_conseq (makeRoom_spec hA.succeed hB hb hinv₁ h63 hd (hsafe _ hstay₁.len_le)) ?_
  rintro ok s₂ ⟨hinv₂, hstay₂, hroom, hfits⟩
  have hstay := hstay₁.trans hstay₂
  rw [hstay₁.len_mod] at hfits
  refine ⟨fun hok => ?_, fun hf => ⟨hinv₂, hstay.refused, by simp, fun herr hle => absurd (hfits herr hle) hf⟩⟩
  refine Cmd.wp_conseq (appendRecord_spec hA hB hb hinv₂ (hroom hok) hstay.len_le) ?_
  rintro ok t ⟨hok₃, hguard, hadv⟩
  refine ⟨hguard, hstay.advances hadv, fun _ => ?_, fun herr _ => hok₃ herr⟩
  have hle := Nat.mod_le s₂.guard.len blockSize
  have hmod := hstay.len_mod
  have := hroom hok
  omega

/-- The same for calls that succeed, on a log that the stored length can describe. -/
theorem aofguardWrite_appends (hb : Blocks cap) (h : Guard False app dur cap L s) (h48 : (L ++ d).length < 2 ^ 48) :
    Cmd.wp Ticks (fun _ k => k = 0) (Safe app dur cap s.guard.len L d) (aofguardWrite d)
      (fun ok t => Guard False app dur cap (if ok = true then L ++ d else L) t) s := by
  rw [List.length_append] at h48
  exact Cmd.wp_conseq (aofguardWrite_spec (answers_zero _) (succeed_zero _) hb h (by omega) (by omega)) fun _ _ h => h.1

end

end PmemProgram.Wal
