import PmemProgram.Wal.Write

/-!
# `aofguard_init`

* `Accepts`, `exec_accepts`, `exec_rejects` : which NVM files the recovery branch accepts, and the content of the log
  file after it, for any descriptor;
* `aofguardInit_recovers` : with an append-mode descriptor it brings back the log that an `Image` says, and a power
  failure inside it leaves an image of the same log;
* `aofguardInit_fresh` : the fresh and reset branch starts a guard of the content of the file.
-/

namespace PmemProgram.Wal
open PmemProgram.Lib PmemProgram.Lib.Ring

/-- The capacity for an `nvm_size`. -/
def capOf (nvmSize : Nat) : Nat := blockSize * (nvmSize / blockSize)

/-- The sizes that `aofguard_init` accepts. -/
def SizeOk (nvmSize : Nat) : Prop := 2 ≤ nvmSize / blockSize ∧ nvmSize / blockSize ≤ 65536

theorem SizeOk.blocks {nvmSize : Nat} (h : SizeOk nvmSize) : Blocks (capOf nvmSize) := ⟨_, h.1, h.2, rfl⟩

/-! ## The recovery branch, for any descriptor -/

/-- The NVM file `x` is accepted for a log file of `n` bytes. -/
structure Accepts (cap : Nat) (x : NvmFile) (n : Nat) : Prop where
  size : x.size = 128 + cap
  start : getBufStart x.mixed < cap
  bufEnd : x.bufEnd < cap
  fsyncLen : getFsyncLen x.mixed ≤ n

/-- The bytes that the recovery branch takes from the ring. -/
def ringOf (cap : Nat) (x : NvmFile) : List Byte :=
  cells x.data cap (getBufStart x.mixed) (decodeLen cap (getBufStart x.mixed) x.bufEnd)

theorem decodeLen_le {cap st e : Nat} (hs : st < cap) (he : e < cap) : decodeLen cap st e < cap := by
  unfold decodeLen
  split_ifs <;> omega

section
variable {cap : Nat} {s : Sys} {d : List Byte}

theorem exec_syscallWrite (hw : s.desc.writable = true) (hd : d.length < 2 ^ 63) :
    (syscallWrite d).exec s = some (d.length, s.write d) := by
  have hok : ¬ (s.desc.writable = false ∨ 2 ^ 63 ≤ d.length ∨ 0 = 1) := by
    rw [hw]
    simp
    omega
  simp only [syscallWrite, Cmd.exec_ask, Cmd.exec_bind, Cmd.exec_get, Option.bind_some, if_neg hok, if_true,
    Cmd.exec_stepGet, List.take_length]

theorem File.pwrite_pwrite (f : File) (off : Nat) (a b : List Byte) :
    ((f.pwrite off a).pwrite (off + a.length) b).data = (f.pwrite off (a ++ b)).data := by
  simp only [File.pwrite]
  generalize hp : f.data.take off ++ List.replicate (off - f.data.length) 0 = p
  have hlen : p.length = off := by
    rw [← hp, List.length_append, List.length_take, List.length_replicate]
    omega
  have htake : (p ++ a ++ f.data.drop (off + a.length)).take (off + a.length) = p ++ a :=
    List.take_left' (by rw [List.length_append, hlen])
  have hdrop : (p ++ a ++ f.data.drop (off + a.length)).drop (off + a.length + b.length) =
      f.data.drop (off + (a ++ b).length) := by
    rw [List.drop_append, List.drop_eq_nil_of_le (by rw [List.length_append, hlen]; omega), List.nil_append,
      List.drop_drop, List.length_append, List.length_append, hlen]
    congr 1
    omega
  have hrep : off + a.length - (p ++ a ++ f.data.drop (off + a.length)).length = 0 := by
    rw [List.length_append, List.length_append, hlen]
    omega
  rw [htake, hdrop, hrep]
  simp

/-- Two writes in a row are one. -/
theorem Desc.write_write (c : Desc) (f : File) (a b : List Byte) :
    ((c.write f a).2.write (c.write f a).1 b).1.data = (c.write f (a ++ b)).1.data := by
  unfold Desc.write
  by_cases ha : a.length = 0
  · obtain rfl := List.eq_nil_of_length_eq_zero ha
    simp
  by_cases hb : b.length = 0
  · obtain rfl := List.eq_nil_of_length_eq_zero hb
    simp
  have hab : (a ++ b).length ≠ 0 := by
    rw [List.length_append]
    omega
  simp only [if_neg ha, if_neg hb, if_neg hab]
  rw [← File.pwrite_pwrite]
  congr 2
  split_ifs with hc
  · simp [File.pwrite]
  · rfl

theorem exec_rewriteTail (hb : Blocks cap) (hc : s.guard.capacity = cap) (hs : s.guard.start < cap)
    (hl : s.guard.len ≤ cap) (hw : s.desc.writable = true) :
    ∃ t, rewriteTail.exec s = some (true, t) ∧
      t.file.data = (s.desc.write s.file (cells s.mapped.data cap s.guard.start s.guard.len)).1.data := by
  have hsmall := hb.small
  unfold rewriteTail
  simp only [Cmd.exec_bind, Cmd.exec_get, Option.bind_some, Cmd.exec_ite, Cmd.exec_pure, hc]
  rw [sadd_eq (show s.guard.start + s.guard.len < 2 ^ 64 by omega)]
  split_ifs with hfit
  · rw [exec_syscallWrite hw (by rw [length_slice]; omega), slice_eq_cells hfit]
    exact ⟨s.write (cells s.mapped.data cap s.guard.start s.guard.len), by simp, rfl⟩
  · have hw' : ∀ d, (s.write d).desc.writable = true := fun d => (Desc.write_writable ..).trans hw
    rw [exec_syscallWrite hw (by rw [length_slice]; omega)]
    simp only [Option.bind_some, length_slice, if_true]
    rw [exec_syscallWrite (hw' _) (by rw [length_slice]; omega)]
    simp only [Option.bind_some, length_slice, beq_self_eq_true]
    refine ⟨_, rfl, ?_⟩
    rw [← slices_eq_cells hs hl (by omega)]
    exact Desc.write_write ..

theorem File.truncate_length (f : File) : (f.truncate f.data.length).data = f.data := by
  simp [File.truncate]

theorem Desc.write_congr {f f' : File} (h : f'.data = f.data) (c : Desc) (d : List Byte) :
    (c.write f' d).1.data = (c.write f d).1.data := by
  unfold Desc.write
  split_ifs
  · exact h
  · simp only [File.pwrite, h]
  · simp only [File.pwrite, h]

/-- The end of the recovery branch, with the values decoded. -/
theorem exec_rewriteTail_decoded {f : File} {x : NvmFile} {fl st ln : Nat} (hb : Blocks cap)
    (hc : s.guard.capacity = cap) (hx : s.nvm = some x) (hs : st < cap) (hl : ln ≤ cap) (hw : s.desc.writable = true) :
    ∃ t, rewriteTail.exec ⟨f, s.desc, s.nvm, { s.guard with fsyncLen := fl, start := st, len := ln }⟩ = some (true, t) ∧
      t.file.data = (s.desc.write f (cells x.data cap st ln)).1.data := by
  obtain ⟨t, ht, hd⟩ := exec_rewriteTail (s := ⟨f, s.desc, s.nvm,
    { s.guard with fsyncLen := fl, start := st, len := ln }⟩) hb hc hs hl hw
  refine ⟨t, ht, hd.trans ?_⟩
  simp only [Sys.mapped, hx, Option.getD_some]

theorem exec_recover_accepts {x : NvmFile} (hb : Blocks cap) (hc : s.guard.capacity = cap) (hx : s.nvm = some x)
    (hw : s.desc.writable = true) (h : Accepts cap x s.file.data.length) :
    ∃ t, (recover s.file.data.length).exec s = some (true, t) ∧
      t.file.data = (s.desc.write (s.file.truncate (getFsyncLen x.mixed)) (ringOf cap x)).1.data := by
  obtain ⟨-, hst, hend, hfl⟩ := h
  have hm : s.mapped = x := by rw [Sys.mapped, hx]; rfl
  have hlen := (decodeLen_le hst hend).le
  unfold recover ringOf
  simp only [Cmd.exec_bind, Cmd.exec_get, Option.bind_some, Cmd.exec_ite, Cmd.exec_pure, setGuard, Cmd.exec_modify,
    hc, hm]
  generalize getBufStart x.mixed = st at *
  generalize getFsyncLen x.mixed = fl at *
  simp only [if_neg (Nat.not_le.mpr hst), if_neg (Nat.not_le.mpr hend), if_neg (Nat.not_lt.mpr hfl)]
  generalize decodeLen cap st x.bufEnd = ln at *
  by_cases hlt : fl < s.file.data.length
  · simp only [if_pos hlt, syscallFtruncate, Cmd.exec_bind, Cmd.exec_succeeds, Option.bind_some, Cmd.exec_get, hw,
      Bool.and_self, Cmd.exec_ite, if_true, Cmd.exec_step, Cmd.exec_pure]
    exact hc ▸ exec_rewriteTail_decoded (hc.symm ▸ hb) rfl hx (hc.symm ▸ hst) (hc.symm ▸ hlen) hw
  · have he : fl = s.file.data.length := le_antisymm hfl (by omega)
    rw [he, Desc.write_congr s.file.truncate_length]
    simp only [if_neg (lt_irrefl _), Option.bind_some, if_true]
    exact hc ▸ exec_rewriteTail_decoded (hc.symm ▸ hb) rfl hx (hc.symm ▸ hst) (hc.symm ▸ hlen) hw

theorem exec_recover_rejects {x : NvmFile} (hc : s.guard.capacity = cap) (hx : s.nvm = some x) (hsize : x.size = 128 + cap)
    (h : ¬ Accepts cap x s.file.data.length) : ∃ t, (recover s.file.data.length).exec s = some (false, t) := by
  have hm : s.mapped = x := by rw [Sys.mapped, hx]; rfl
  unfold recover
  simp only [Cmd.exec_bind, Cmd.exec_get, Option.bind_some, Cmd.exec_ite, Cmd.exec_pure, setGuard, Cmd.exec_modify,
    hc, hm]
  split_ifs with hst hend hfl
  · exact ⟨_, rfl⟩
  · exact ⟨_, rfl⟩
  · exact ⟨_, rfl⟩
  all_goals exact absurd ⟨hsize, by omega, by omega, by omega⟩ h

theorem exec_startThread (s : Sys) : startThread.exec s = some (true, { s with
    guard := { s.guard with blockCount := 0, semStart := 0, semDone := 0, thread := .idle } }) := by
  simp [startThread, setGuard]

end

section
variable {nvmSize : Nat} {f : File} {x : NvmFile} {c : Desc}

theorem exec_accepts (hn : SizeOk nvmSize) (hw : c.writable = true) (h : Accepts (capOf nvmSize) x f.data.length) :
    ∃ t, (aofguardInit nvmSize false).exec (.boot f (some x) c) = some (true, t) ∧
      t.file.data = (c.write (f.truncate (getFsyncLen x.mixed)) (ringOf (capOf nvmSize) x)).1.data := by
  obtain ⟨t, ht, hd⟩ := exec_recover_accepts (s := ⟨f, c, some x, { Aofguard.blank with capacity := capOf nvmSize }⟩)
    hn.blocks rfl rfl hw h
  refine ⟨{ t with guard := { t.guard with blockCount := 0, semStart := 0, semDone := 0, thread := .idle } }, ?_, hd⟩
  have hopen : (openNvm (2 * 64 + capOf nvmSize)).exec (.boot f (some x) c) = some (true, .boot f (some x) c) := by
    simp [openNvm, Sys.boot, h.size]
  unfold capOf at hopen ht
  unfold aofguardInit
  rw [if_neg (Nat.not_lt.mpr hn.1), if_neg (Nat.not_lt.mpr hn.2)]
  simp only [Cmd.exec_bind, Cmd.exec_get, Option.bind_some]
  rw [hopen]
  simp only [Option.bind_some, Cmd.exec_ite, if_true, Cmd.exec_bind, Cmd.exec_succeeds, Bool.and_self, Cmd.exec_get,
    setUp, setGuard, Cmd.exec_modify, Sys.boot, Option.isSome_some, Bool.not_false]
  rw [ht]
  exact exec_startThread t

theorem exec_rejects (hn : SizeOk nvmSize) (h : ¬ Accepts (capOf nvmSize) x f.data.length) :
    ∃ t, (aofguardInit nvmSize false).exec (.boot f (some x) c) = some (false, t) := by
  have hopen : (openNvm (2 * 64 + capOf nvmSize)).exec (.boot f (some x) c) =
      some (x.size == 128 + capOf nvmSize, .boot f (some x) c) := by
    simp [openNvm, Sys.boot]
  unfold capOf at hopen
  unfold aofguardInit
  rw [if_neg (Nat.not_lt.mpr hn.1), if_neg (Nat.not_lt.mpr hn.2)]
  simp only [Cmd.exec_bind, Cmd.exec_get, Option.bind_some]
  rw [hopen]
  by_cases hsize : x.size = 128 + capOf nvmSize
  · obtain ⟨t, ht⟩ := exec_recover_rejects (s := ⟨f, c, some x, { Aofguard.blank with capacity := capOf nvmSize }⟩)
      rfl rfl hsize h
    unfold capOf at hsize ht
    simp only [Option.bind_some, Cmd.exec_ite, if_true, Cmd.exec_bind, Cmd.exec_succeeds, Bool.and_self, Cmd.exec_get,
      setUp, setGuard, Cmd.exec_modify, Sys.boot, Option.isSome_some, Bool.not_false, hsize, beq_self_eq_true]
    rw [ht]
    exact ⟨t, rfl⟩
  · unfold capOf at hsize
    simp only [Option.bind_some, Cmd.exec_ite, beq_eq_false_iff_ne.mpr hsize, Bool.false_eq_true, if_false]
    exact ⟨_, rfl⟩

/-- Append mode: the ring goes behind the synced bytes. -/
theorem reopened_append (hc : c.append = true) {n : Nat} (hn : n ≤ f.data.length) (d : List Byte) :
    (c.write (f.truncate n) d).1.data = f.data.take n ++ d := by
  rw [(Desc.write_append hc _ _).1]
  simp [File.truncate, hn]

/-- Without it the ring goes over the start of the file. -/
theorem reopened_offset (hc : c.append = false) (h0 : c.offset = 0) {n : Nat} (hn : n ≤ f.data.length) (d : List Byte) :
    (c.write (f.truncate n) d).1.data = d ++ (f.data.take n).drop d.length := by
  unfold Desc.write
  by_cases hd : d.length = 0
  · simp [List.eq_nil_of_length_eq_zero hd, File.truncate, hn]
  · simp [hd, File.pwrite, File.truncate, hn, hc, h0]

end

/-! ## What the recovery branch sets up -/

/-- The guard is being set up; no thread runs yet. If `app`, the file is in append mode and holds `F`. -/
structure Recovering (app dur : Prop) (cap fl st ln : Nat) (x : NvmFile) (F : List Byte) (s : Sys) : Prop where
  thread : s.guard.thread = .none
  capacity : s.guard.capacity = cap
  fsyncLen : s.guard.fsyncLen = fl
  start : s.guard.start = st
  len : s.guard.len = ln
  nvm : s.nvm = some x
  writable : s.desc.writable = true
  file : app → s.file.data = F ∧ (dur → fl ≤ s.file.synced) ∧ s.desc.append = true

/-- While no thread runs, the environment can only write the file back. -/
def Silent (R : Sys → Sys → Prop) : Prop :=
  ∀ s t, s.guard.thread = .none → R s t →
    ∃ f, t = { s with file := f } ∧ f.data = s.file.data ∧ s.file.synced ≤ f.synced

theorem silent_ticks : Silent Ticks := by
  intro s t hth ht
  obtain rfl := ticks_none ht hth
  exact ⟨t.file, rfl, rfl, le_rfl⟩

section
variable {app dur : Prop} {cap fl st ln : Nat} {x : NvmFile} {F L : List Byte} {s t : Sys} {R : Sys → Sys → Prop}

theorem Recovering.env (h : Recovering app dur cap fl st ln x F s) (hR : Silent R) (ht : R s t) :
    Recovering app dur cap fl st ln x F t := by
  obtain ⟨f, rfl, hdata, hsynced⟩ := hR s t h.thread ht
  refine ⟨h.thread, h.capacity, h.fsyncLen, h.start, h.len, h.nvm, h.writable, fun happ => ?_⟩
  obtain ⟨h₁, h₂, h₃⟩ := h.file happ
  exact ⟨hdata.trans h₁, fun hdur => (h₂ hdur).trans hsynced, h₃⟩

theorem Recovering.write (h : Recovering app dur cap fl st ln x F s) (d : List Byte) :
    Recovering app dur cap fl st ln x (F ++ d) (s.write d) := by
  refine ⟨h.thread, h.capacity, h.fsyncLen, h.start, h.len, h.nvm, (Desc.write_writable ..).trans h.writable,
    fun happ => ?_⟩
  obtain ⟨h₁, h₂, h₃⟩ := h.file happ
  obtain ⟨hdata, hsynced, happend⟩ := Desc.write_append h₃ s.file d
  exact ⟨hdata.trans (by rw [h₁]), fun hdur => (h₂ hdur).trans_eq hsynced.symm, happend⟩

theorem Recovering.reads (h : Recovering app dur cap fl st ln x F s) (hh : Holds cap x fl st ln L)
    (hF : F.take fl = L.take fl) : Reads app dur cap ln L s :=
  ⟨x, fl, st, ln, h.nvm, hh, le_rfl, fun happ => ⟨(h.file happ).2.1, by rw [(h.file happ).1, hF]⟩⟩

theorem rewriteTail_spec (hR : Silent R) (hb : Blocks cap) (h : Recovering app dur cap fl st ln x (L.take fl) s)
    (hh : Holds cap x fl st ln L) (hl : ln < cap) :
    Cmd.wp R (fun _ k => k = 0) (Reads app dur cap ln L) rewriteTail
      (fun ok t => ok = true ∧ Recovering app dur cap fl st ln x L t) s := by
  have hsmall := hb.small
  have hst := hh.start_lt
  have hmapped : s.mapped = x := by rw [Sys.mapped, h.nvm]; rfl
  have hwhole : L.take fl ++ cells x.data cap st ln = L := by rw [hh.ring, List.take_append_drop]
  have hfl : (L.take fl).length = fl := by
    have := hh.split
    rw [List.length_take]
    omega
  unfold rewriteTail
  simp only [Cmd.wp_bind, Cmd.wp_get, Cmd.wp_ite, Cmd.wp_pure, h.capacity, h.start, h.len, hmapped]
  rw [sadd_eq (show st + ln < 2 ^ 64 by omega)]
  refine ⟨fun hfit => ?_, fun hwrap => ?_⟩
  · rw [slice_eq_cells hfit]
    refine wp_syscallWrite h.writable (by rw [length_cells]; omega) fun s₁ hs₁ => ?_
    have h₁ := h.env hR hs₁
    refine ⟨h₁.reads hh (by rw [List.take_take, min_self]), by simp, ?_⟩
    exact hwhole ▸ h₁.write _
  · have hslices := @slices_eq_cells _ x.data _ _ _ hst hl.le (by omega)
    refine wp_syscallWrite h.writable (by rw [length_slice]; omega) fun s₁ hs₁ => ?_
    have h₁ := h.env hR hs₁
    refine ⟨h₁.reads hh (by rw [List.take_take, min_self]), fun _ => ?_, fun hf => absurd (length_slice _) hf⟩
    have hfront := h₁.write (slice x.data st (cap - st))
    refine wp_syscallWrite hfront.writable (by rw [length_slice]; omega) fun s₂ hs₂ => ?_
    have h₂ := hfront.env hR hs₂
    refine ⟨h₂.reads hh (List.take_left' hfl), by simp, ?_⟩
    have hback := h₂.write (slice x.data 0 (ln - (cap - st)))
    rwa [List.append_assoc, hslices, hwhole] at hback

theorem startThread_spec {I : Sys → Prop} (h : Recovering app dur cap fl st ln x L s) (hh : Holds cap x fl st ln L) :
    Cmd.wp R (fun _ k => k = 0) I startThread (fun ok t => ok = true ∧ Guard False app dur cap L t ∧ t.guard.len = ln) s := by
  unfold startThread
  simp only [setGuard, Cmd.wp_bind, Cmd.wp_modify, Cmd.wp_succeeds, Cmd.wp_ite, Cmd.wp_pure]
  intro i hi j hj k hk
  subst hi hj hk
  refine ⟨fun _ => ⟨trivial, ⟨fl, st, ln, 0, x, ?_, h.nvm, hh, by omega⟩, h.len⟩, fun hf => absurd rfl hf⟩
  refine ⟨h.capacity, h.fsyncLen, h.start, h.len, rfl, h.writable, by simp, by simp, le_rfl, fun happ => ?_⟩
  obtain ⟨h₁, h₂, h₃⟩ := h.file happ
  refine ⟨h₁, h₃, ?_, h₂, by simp, ?_⟩
  · have := hh.split
    omega
  · rintro _ (hd | hd) <;> cases hd

/-- The words of an image read back. -/
theorem Holds.decode (hb : Blocks cap) (hh : Holds cap x fl st ln L) (hl : ln < cap) (h48 : fl < 2 ^ 48) :
    getFsyncLen x.mixed = fl ∧ getBufStart x.mixed = st ∧ x.bufEnd < cap ∧ decodeLen cap st x.bufEnd = ln := by
  refine ⟨?_, ?_, ?_, ?_⟩
  · rw [hh.fsyncWord, Nat.mod_eq_of_lt h48]
  · exact hh.startWord h48
  · rw [hh.bufEnd]
    exact Nat.mod_lt _ hb.pos
  · rw [hh.bufEnd, decodeLen_end hh.start_lt hh.len_le, if_neg hl.ne]

/-- An exactly full ring reads back as an empty one. -/
theorem Holds.full (hh : Holds cap x fl st cap L) : Holds cap x fl st 0 (L.take fl) where
  size := hh.size
  start_lt := hh.start_lt
  start_dvd := hh.start_dvd
  len_le := Nat.zero_le _
  split := by
    have := hh.split
    rw [List.length_take]
    omega
  fsyncWord := hh.fsyncWord
  startWord := hh.startWord
  bufEnd := by rw [hh.bufEnd, Nat.add_mod_right, Nat.add_zero]
  ring := by simp

theorem recover_spec (hR : Silent R) (hb : Blocks cap) (hx : s.nvm = some x) (hh : Holds cap x fl st ln L) (hl : ln < cap)
    (h48 : fl < 2 ^ 48) (hth : s.guard.thread = .none) (hc : s.guard.capacity = cap)
    (hw : s.desc.writable = true)
    (hfile : app → fl ≤ s.file.data.length ∧ (dur → fl ≤ s.file.synced) ∧ s.file.data.take fl = L.take fl ∧
      s.desc.append = true) :
    Cmd.wp R (fun _ k => k = 0) (Reads app dur cap ln L) (recover s.file.data.length)
      (fun ok t => (app → ok = true) ∧ (ok = true → Recovering app dur cap fl st ln x L t)) s := by
  obtain ⟨hfl, hst, hend, hlen⟩ := hh.decode hb hl h48
  have hmapped : s.mapped = x := by rw [Sys.mapped, hx]; rfl
  have hrest : ∀ {t : Sys}, Recovering app dur cap fl st ln x (L.take fl) t →
      Cmd.wp R (fun _ k => k = 0) (Reads app dur cap ln L) rewriteTail
        (fun ok t => (app → ok = true) ∧ (ok = true → Recovering app dur cap fl st ln x L t)) t := fun h =>
    Cmd.wp_conseq (rewriteTail_spec hR hb h hh hl) fun ok t h => ⟨fun _ => h.1, fun _ => h.2⟩
  unfold recover
  simp only [setGuard, Cmd.wp_bind, Cmd.wp_get, Cmd.wp_modify, Cmd.wp_ite, Cmd.wp_pure, hc, hmapped, hfl, hst, hlen]
  refine ⟨fun hf => absurd hh.start_lt (by omega), fun _ => ⟨fun hf => absurd hend (by omega), fun _ =>
    ⟨fun hf => ⟨fun happ => ?_, by simp⟩, fun _ => ⟨fun hlt => ?_, fun hge => ?_⟩⟩⟩⟩
  · have := (hfile happ).1
    omega
  · simp only [syscallFtruncate, Cmd.wp_bind, Cmd.wp_succeeds, Cmd.wp_get, Cmd.wp_ite, Cmd.wp_pure, hw]
    intro n hn
    subst hn
    refine ⟨fun _ => Cmd.wp_step fun s₁ hs₁ => ?_, fun hf => absurd rfl hf⟩
    obtain ⟨f, rfl, hdata, hsynced⟩ := hR _ _ (by exact hth) hs₁
    change f.data = s.file.data at hdata
    change s.file.synced ≤ f.synced at hsynced
    refine ⟨⟨x, fl, st, ln, hx, hh, le_rfl, fun happ => ?_⟩, fun _ => hrest ⟨hth, rfl, rfl, rfl, rfl, hx, hw,
      fun happ => ?_⟩, fun hf => absurd trivial hf⟩
    · change (dur → fl ≤ f.synced) ∧ f.data.take fl = L.take fl
      rw [hdata]
      exact ⟨fun hdur => ((hfile happ).2.1 hdur).trans hsynced, (hfile happ).2.2.1⟩
    · obtain ⟨-, h₁, h₂, h₃⟩ := hfile happ
      refine ⟨?_, fun hdur => le_min ((h₁ hdur).trans hsynced) le_rfl, h₃⟩
      simp only [File.truncate]
      rw [hdata, Nat.sub_eq_zero_of_le hlt.le, List.replicate_zero, List.append_nil, h₂]
  · refine ⟨fun _ => hrest ⟨hth, rfl, rfl, rfl, rfl, hx, hw, fun happ => ?_⟩, fun hf => absurd trivial hf⟩
    obtain ⟨-, h₁, h₂, h₃⟩ := hfile happ
    refine ⟨?_, h₁, h₃⟩
    change s.file.data = L.take fl
    rw [← h₂, List.take_of_length_le (by omega)]

end

/-- Opening an NVM file that exists changes nothing. -/
theorem openNvm_some {R : Sys → Sys → Prop} {f : File} {c : Desc} {x : NvmFile} {n : Nat} {I : Sys → Prop}
    {Q : Bool → Sys → Prop} (h : Q (x.size == n) (.boot f (some x) c)) :
    Cmd.wp R (fun _ k => k = 0) I (openNvm n) Q (.boot f (some x) c) := by
  unfold openNvm
  simp only [Cmd.wp_bind, Cmd.wp_get, Sys.boot, Cmd.wp_succeeds, Cmd.wp_pure]
  intro i hi j hj
  subst hi hj
  exact h

/-- `aofguard_init` once its NVM file is open. -/
theorem wp_aofguardInit {R : Sys → Sys → Prop} {nvmSize : Nat} {reset : Bool} {s : Sys} {I : Sys → Prop}
    {Q : Bool → Sys → Prop} (hn : SizeOk nvmSize)
    (h : Cmd.wp R (fun _ k => k = 0) I (openNvm (128 + capOf nvmSize)) (fun ok t => if ok = true then
      Cmd.wp R (fun _ k => k = 0) I (setUp (capOf nvmSize) (s.nvm.isSome && !reset)) Q t else Q false t) s) :
    Cmd.wp R (fun _ k => k = 0) I (aofguardInit nvmSize reset) Q s := by
  unfold aofguardInit
  rw [if_neg (Nat.not_lt.mpr hn.1), if_neg (Nat.not_lt.mpr hn.2)]
  simp only [Cmd.wp_bind, Cmd.wp_get]
  refine Cmd.wp_conseq h ?_
  rintro (_ | _) t ht
  · exact ht
  · simp only [if_true, Cmd.wp_bind, Cmd.wp_succeeds]
    intro i hi j hj
    subst hi hj
    exact ht

/-- A guard on an NVM file that says `L`, and the log `L` in the file if that is in append mode. -/
theorem aofguardInit_reopens {app dur : Prop} {nvmSize fl st ln : Nat} {L : List Byte} {f : File} {x : NvmFile} {c : Desc}
    {R : Sys → Sys → Prop} (hR : Silent R) (hn : SizeOk nvmSize) (hh : Holds (capOf nvmSize) x fl st ln L)
    (hl : ln < capOf nvmSize) (h48 : fl < 2 ^ 48) (hw : c.writable = true)
    (hfile : app → fl ≤ f.data.length ∧ (dur → fl ≤ f.synced) ∧ f.data.take fl = L.take fl ∧ c.append = true) :
    Cmd.wp R (fun _ k => k = 0) (Reads app dur (capOf nvmSize) ln L) (aofguardInit nvmSize false)
      (fun ok t => (app → ok = true) ∧ (ok = true → Guard False app dur (capOf nvmSize) L t ∧ t.guard.len = ln))
      (.boot f (some x) c) := by
  refine wp_aofguardInit hn (openNvm_some ?_)
  rw [if_pos (beq_iff_eq.mpr hh.size)]
  simp only [setUp, setGuard, Cmd.wp_bind, Cmd.wp_get, Cmd.wp_modify]
  refine Cmd.wp_conseq (recover_spec (s := ⟨f, c, some x, { Aofguard.blank with capacity := capOf nvmSize }⟩)
    hR hn.blocks rfl hh hl h48 rfl rfl hw hfile) ?_
  rintro (_ | _) t ⟨hok, hr⟩
  · exact ⟨hok, by simp⟩
  · exact Cmd.wp_conseq (startThread_spec (hr rfl) hh) fun _ _ h => ⟨fun _ => h.1, fun _ => h.2⟩

/-- Recovery brings back the log of an image, and keeps the image until it has returned. -/
theorem aofguardInit_recovers {nvmSize : Nat} {L : List Byte} {f : File} {nvm : Option NvmFile} {c : Desc}
    (hn : SizeOk nvmSize) (h : Image (capOf nvmSize) L (.boot f nvm c)) (h48 : L.length < 2 ^ 48)
    (happ : c.append = true) (hw : c.writable = true) :
    Cmd.wp Ticks (fun _ k => k = 0) (Image (capOf nvmSize) L) (aofguardInit nvmSize false)
      (fun ok t => ok = true ∧ Inv (capOf nvmSize) L t ∧ t.guard.len < capOf nvmSize) (.boot f nvm c) := by
  obtain ⟨x, fl, st, ln, hx, hh, hl, hs, ht⟩ := h
  obtain rfl : nvm = some x := hx
  refine Cmd.wp_mono (fun t h => h.image hl) ?_
    (aofguardInit_reopens silent_ticks hn hh hl (hh.fsyncLen_lt h48) hw
      fun _ : True => ⟨hs.trans f.synced_le, fun _ : True => hs, ht, happ⟩)
  rintro ok t ⟨hok, hguard⟩
  obtain ⟨hinv, hlen⟩ := hguard (hok trivial)
  exact ⟨hok trivial, hinv, hlen ▸ hl⟩

/-! ## The fresh and reset branch -/

/-- The NVM file that the two stores go to. -/
def base (cap : Nat) (nvm : Option NvmFile) : NvmFile := nvm.getD { NvmFile.empty with size := 128 + cap }

/-- How far the fresh or reset branch has come: nothing done, the NVM file created, its size set, `fsync_len` stored. -/
inductive Stage
  | untouched
  | created
  | sized
  | lengthSet

/-- The NVM file at that point, for a log file of `n` bytes and the NVM file found. -/
def Stage.left (cap n : Nat) (nvm : Option NvmFile) : Stage → Option NvmFile
  | untouched => nvm
  | created => some .empty
  | sized => some { NvmFile.empty with size := 128 + cap }
  | lengthSet => some { base cap nvm with mixed := n }

/-- Only a missing NVM file is created, and only one of the right size is stored to. -/
def Stage.Possible (cap : Nat) (nvm : Option NvmFile) : Stage → Prop
  | untouched => True
  | created => nvm = none
  | sized => nvm = none
  | lengthSet => (base cap nvm).size = 128 + cap

/-- What a power failure inside the fresh or reset branch leaves. -/
def AtStage (cap : Nat) (f : File) (nvm : Option NvmFile) (t : Sys) : Prop :=
  t.file = f ∧ ∃ p : Stage, p.Possible cap nvm ∧ t.nvm = p.left cap f.data.length nvm

section
variable {app dur : Prop} {nvmSize : Nat} {f : File} {nvm : Option NvmFile} {c : Desc}

theorem resetMeta_spec {cap : Nat} {x : NvmFile} {s : Sys} {I : Sys → Prop} (hb : Blocks cap)
    (hx : s.nvm = some x) (hsize : x.size = 128 + cap) (hth : s.guard.thread = .none) (hc : s.guard.capacity = cap)
    (hw : s.desc.writable = true)
    (hfile : app → (dur → s.file.synced = s.file.data.length) ∧ s.desc.append = true)
    (hI₁ : ∀ t, t.file = s.file → t.nvm = some x → I t)
    (hI₂ : ∀ t, t.file = s.file → t.nvm = some { x with mixed := s.file.data.length } → I t) :
    Cmd.wp Ticks (fun _ k => k = 0) I (resetMeta s.file.data.length) (fun ok t => ok = true ∧
      ∃ y, Holds cap y s.file.data.length 0 0 s.file.data ∧
        Recovering app dur cap s.file.data.length 0 0 y s.file.data t) s := by
  unfold resetMeta
  simp only [setGuard, Cmd.wp_bind, Cmd.wp_modify, Cmd.wp_pure]
  refine Cmd.wp_step fun s₁ hs₁ => ?_
  obtain rfl := ticks_none hs₁ hth
  refine ⟨hI₁ _ rfl hx, Cmd.wp_step fun s₂ hs₂ => ?_⟩
  obtain rfl := ticks_none hs₂ hth
  refine ⟨hI₂ _ rfl (by simp only [hx, Option.map_some]), trivial, ⟨x.size, s.file.data.length, 0, x.data⟩, ?_, ?_⟩
  · refine ⟨hsize, hb.pos, Nat.dvd_zero _, Nat.zero_le _, rfl, getFsyncLen_eq _, fun h48 => getBufStart_small h48, ?_, ?_⟩
    · rw [Nat.zero_mod]
    · rw [cells_zero, List.drop_length]
  · exact ⟨hth, hc, rfl, rfl, rfl, by simp only [hx, Option.map_some], hw,
      fun happ => ⟨rfl, fun hdur => ((hfile happ).1 hdur).ge, (hfile happ).2⟩⟩

theorem setUp_fresh {cap : Nat} (hb : Blocks cap) (hsize : (base cap nvm).size = 128 + cap)
    (hw : c.writable = true) (hfile : app → (dur → f.synced = f.data.length) ∧ c.append = true) :
    Cmd.wp Ticks (fun _ k => k = 0) (AtStage cap f nvm) (setUp cap false)
      (fun ok t => ok = true ∧ Guard False app dur cap f.data t ∧ t.guard.len = 0)
      (.boot f (some (base cap nvm)) c) := by
  simp only [setUp, setGuard, Cmd.wp_bind, Cmd.wp_get, Cmd.wp_modify]
  refine Cmd.wp_conseq (resetMeta_spec
    (s := ⟨f, c, some (base cap nvm), { Aofguard.blank with capacity := cap }⟩)
    hb rfl hsize rfl rfl hw hfile (fun t h₁ h₂ => ⟨h₁, ?_⟩) fun t h₁ h₂ => ⟨h₁, .lengthSet, hsize, h₂⟩) ?_
  · cases nvm with
    | some x => exact ⟨.untouched, trivial, h₂⟩
    | none => exact ⟨.sized, rfl, h₂⟩
  · rintro ok t ⟨rfl, y, hh, hr⟩
    exact startThread_spec hr hh

/-- A new guard on a file, which keeps its content if that is durable and in append mode. Only an NVM file of the wrong
size is refused. -/
theorem aofguardInit_fresh {reset : Bool} (hn : SizeOk nvmSize) (hnew : nvm = none ∨ reset = true)
    (hw : c.writable = true) (hfile : app → (dur → f.synced = f.data.length) ∧ c.append = true) :
    Cmd.wp Ticks (fun _ k => k = 0) (AtStage (capOf nvmSize) f nvm) (aofguardInit nvmSize reset)
      (fun ok t => ((base (capOf nvmSize) nvm).size = 128 + capOf nvmSize → ok = true) ∧
        (ok = true → Guard False app dur (capOf nvmSize) f.data t ∧ t.guard.len = 0)) (.boot f nvm c) := by
  have hsetUp : (base (capOf nvmSize) nvm).size = 128 + capOf nvmSize →
      Cmd.wp Ticks (fun _ k => k = 0) (AtStage (capOf nvmSize) f nvm) (setUp (capOf nvmSize) false)
        (fun ok t => ((base (capOf nvmSize) nvm).size = 128 + capOf nvmSize → ok = true) ∧
          (ok = true → Guard False app dur (capOf nvmSize) f.data t ∧ t.guard.len = 0))
        (.boot f (some (base (capOf nvmSize) nvm)) c) := fun hsize =>
    Cmd.wp_conseq (setUp_fresh hn.blocks hsize hw hfile) fun _ _ h => ⟨fun _ => h.1, fun _ => h.2⟩
  have htrust : (nvm.isSome && !reset) = false := by
    rcases hnew with rfl | rfl <;> simp
  apply wp_aofguardInit hn
  change Cmd.wp Ticks (fun _ k => k = 0) _ (openNvm _)
    (fun ok t => if ok = true then Cmd.wp Ticks (fun _ k => k = 0) _ (setUp _ (nvm.isSome && !reset)) _ t else _) _
  rw [htrust]
  cases nvm with
  | some x =>
    refine openNvm_some ?_
    split_ifs with hsize
    · exact hsetUp (beq_iff_eq.mp hsize)
    · exact ⟨fun h => absurd (beq_iff_eq.mpr h) hsize, by simp⟩
  | none =>
    simp only [openNvm, Cmd.wp_bind, Cmd.wp_get, Sys.boot, Cmd.wp_succeeds, Cmd.wp_ite]
    intro i hi
    subst hi
    refine ⟨fun _ => Cmd.wp_step fun s₁ hs₁ => ?_, by simp⟩
    obtain rfl := ticks_none hs₁ rfl
    refine ⟨⟨rfl, .untouched, trivial, rfl⟩, fun j hj => ?_⟩
    subst hj
    refine ⟨fun _ => Cmd.wp_step fun s₂ hs₂ => ?_, by simp⟩
    obtain rfl := ticks_none hs₂ rfl
    refine ⟨⟨rfl, .created, rfl, rfl⟩, ?_⟩
    exact hsetUp rfl

end

end PmemProgram.Wal
