import PmemProgram.Wal.Crash

/-!
# Every length of a record

`aofguard_write` takes any `size_t`. `beforeCopy` is the part up to the copies and `copyRecord` the rest, and
`RingState` are the states of a guard between its calls, when any system call may fail. `no_wrap_iff` : a record gets
to the copies only if it fits, and a call that returns 1 has appended it, unless it has `2 ^ 64 - 1` bytes: the sum with
the bytes in the ring wraps, and the `-1` of `write` compares equal to the length (`wraps_at_sizeMax`).
-/

namespace PmemProgram.Wal
open PmemProgram.Lib PmemProgram.Lib.Ring

/-- `aofguard_write` up to the copies: the guard, if it gets there. -/
def beforeCopy (data : List Byte) : Cmd Syscall Sys (Option Aofguard) := do
  let ok ← handleAfsyncIfFinish
  if ok then
    let ok ← makeRoom data.length
    if ok then
      let g ← Cmd.get Sys.guard
      Cmd.check (sadd g.len data.length ≤ g.capacity)
      let k ← syscallWrite data
      pure (if k = data.length then some g else none)
    else pure none
  else pure none

/-- `aofguard_write` from the copies on. -/
def copyRecord (data : List Byte) (g : Aofguard) : Cmd Syscall Sys Bool := do
  let writePos ← ringBufForward g.start g.len g.capacity
  copyToRing writePos g.capacity data
  let len := sadd g.len data.length
  setGuard fun g => { g with len }
  Cmd.check (len ≤ g.capacity)
  let bufEnd ← ringBufForward g.start len g.capacity
  nvmSet64 fun x => { x with bufEnd }
  requestAfsync

theorem aofguardWrite_eq (data : List Byte) :
    aofguardWrite data = beforeCopy data >>= fun g => g.elim (pure false) (copyRecord data) := by
  have hite : ∀ {α β : Type} (p : Prop) [Decidable p] (c d : Cmd Syscall Sys α) (g : α → Cmd Syscall Sys β),
      (if p then c else d).bind g = if p then c.bind g else d.bind g := by
    intro α β p _ c d g
    split_ifs <;> rfl
  unfold aofguardWrite beforeCopy appendRecord
  simp only [Cmd.bind_def, Cmd.bind_assoc, hite, Cmd.pure_def, Cmd.ret_bind, Option.elim]
  congr 1
  funext ok
  congr 2
  funext ok
  congr 2
  funext g
  congr 1
  funext _
  congr 1
  funext k
  split_ifs <;> rfl

/-! ## The states of a guard -/

/-- Any answer. -/
abbrev AnyReply : Syscall → Nat → Prop := fun _ _ => True

/-- A run of a call beside the thread, where any system call may fail. -/
abbrev Runs {α : Type} (c : Cmd Syscall Sys α) (s : Sys) (a : α) (t : Sys) : Prop :=
  Cmd.Run (TicksOf AnyReply) AnyReply c s a t

/-- A guard that `aofguard_init` has accepted, with any files, after calls and steps of the thread. A copy of more bytes
than the ring has does not return. -/
inductive RingState (nvmSize : Nat) : Sys → Prop
  | init {f : File} {nvm : Option NvmFile} {c : Desc} {reset : Bool} {s : Sys} :
      Runs (aofguardInit nvmSize reset) (.boot f nvm c) true s → RingState nvmSize s
  | tick {s t : Sys} : RingState nvmSize s → Tick AnyReply s t → RingState nvmSize t
  | refused {s t : Sys} {d : List Byte} : RingState nvmSize s → d.length < 2 ^ 64 → Runs (beforeCopy d) s none t →
      RingState nvmSize t
  | copied {s t u : Sys} {d : List Byte} {g : Aofguard} {ok : Bool} : RingState nvmSize s → d.length < 2 ^ 64 →
      Runs (beforeCopy d) s (some g) t → d.length ≤ g.capacity → Runs (copyRecord d g) t ok u → RingState nvmSize u

/-- The bytes in the ring. -/
def Sys.ring (s : Sys) : List Byte := cells s.mapped.data s.guard.capacity s.guard.start s.guard.len

/-- The file has got `d`, and so has the ring, which may have given up synced bytes. -/
structure Appended (d : List Byte) (s t : Sys) : Prop where
  file : t.file.data = (s.desc.write s.file d).1.data
  ring : ∃ k ≤ s.guard.len, t.guard.len = s.guard.len - k + d.length ∧ t.ring = s.ring.drop k ++ d

/-- No byte of the NVM file behind the ring has changed. -/
def Untouched (s t : Sys) : Prop := ∀ i, s.guard.capacity ≤ i → t.mapped.data i = s.mapped.data i

/-- A call with the record `d` gets to the copies only if `d` fits, no copy leaves the ring, and a call that returns 1
has appended `d`. -/
structure Fits (d : List Byte) (s : Sys) : Prop where
  room : ∀ g t, Runs (beforeCopy d) s (some g) t → d.length ≤ g.capacity ∧ g.len + d.length ≤ g.capacity
  untouched : ∀ ok t, Runs (aofguardWrite d) s ok t → Untouched s t
  torn : ∀ t, Cmd.Crash (TicksOf AnyReply) AnyReply (aofguardWrite d) s t → Untouched s t
  appended : ∀ t, Runs (aofguardWrite d) s true t → Appended d s t

/-! ## What keeps the ring in order -/

/-- The ring of the guard lies in the NVM file and holds the blocks of the request. -/
structure InRing (cap : Nat) (s : Sys) : Prop where
  capacity : s.guard.capacity = cap
  start_lt : s.guard.start < cap
  start_dvd : blockSize ∣ s.guard.start
  len_le : s.guard.len ≤ cap
  request_le : blockSize * s.guard.blockCount ≤ s.guard.len
  mapped : s.nvm.isSome = true

/-- Only synced bytes have left the ring. -/
structure Credits (s t : Sys) : Prop where
  data : t.file.data = s.file.data
  desc : t.desc = s.desc
  mapped : t.mapped.data = s.mapped.data
  capacity : t.guard.capacity = s.guard.capacity
  len_mod : t.guard.len % blockSize = s.guard.len % blockSize
  ring : ∃ k ≤ s.guard.len, t.guard.len = s.guard.len - k ∧ t.guard.start = (s.guard.start + k) % s.guard.capacity

section
variable {cap k : Nat} {s t u : Sys} {B : Syscall → Nat → Prop} {d : List Byte}

theorem InRing.refl (h : InRing cap s) : Credits s s :=
  ⟨rfl, rfl, rfl, rfl, rfl, 0, Nat.zero_le _, rfl, by rw [Nat.add_zero, h.capacity, Nat.mod_eq_of_lt h.start_lt]⟩

theorem Credits.trans (h : Credits s t) (h' : Credits t u) : Credits s u := by
  obtain ⟨k, hk, hlen, hstart⟩ := h.ring
  obtain ⟨j, hj, hlen', hstart'⟩ := h'.ring
  refine ⟨h'.data.trans h.data, h'.desc.trans h.desc, h'.mapped.trans h.mapped, h'.capacity.trans h.capacity,
    h'.len_mod.trans h.len_mod, k + j, ?_, ?_, ?_⟩
  · omega
  · omega
  · rw [hstart', hstart, h.capacity, Nat.mod_add_mod, Nat.add_assoc]

theorem Credits.len_le (h : Credits s t) : t.guard.len ≤ s.guard.len := by
  obtain ⟨k, -, hlen, -⟩ := h.ring
  omega

theorem Credits.untouched (h : Credits s t) : Untouched s t := fun i _ => congrFun h.mapped i

theorem Credits.ring_eq (h : Credits s t) :
    ∃ k ≤ s.guard.len, t.guard.len = s.guard.len - k ∧ t.ring = s.ring.drop k := by
  obtain ⟨k, hk, hlen, hstart⟩ := h.ring
  refine ⟨k, hk, hlen, ?_⟩
  rw [Sys.ring, Sys.ring, drop_cells hk, h.mapped, h.capacity, hlen, hstart, cells_mod]

theorem ticks_fields (ht : TicksOf B s t) : t.guard.capacity = s.guard.capacity ∧ t.guard.start = s.guard.start ∧
    t.guard.blockCount = s.guard.blockCount ∧ s.guard.semDone ≤ t.guard.semDone := by
  induction ht with
  | refl => exact ⟨rfl, rfl, rfl, le_rfl⟩
  | tail _ hstep ih =>
    obtain ⟨hcap, hst, hbc, hdone⟩ := ih
    obtain ⟨hcap', -, hst', hbc'⟩ := hstep.fields
    refine ⟨hcap'.trans hcap, hst'.trans hst, hbc'.trans hbc, hdone.trans ?_⟩
    cases hstep with
    | wait => dsimp only; split_ifs <;> exact le_rfl
    | sync => split_ifs <;> exact le_rfl
    | post =>
      dsimp only
      split_ifs
      · exact Nat.le_succ _
      · exact le_rfl

/-- The thread leaves the ring alone. -/
theorem InRing.ticks (h : InRing cap s) (ht : TicksOf B s t) : InRing cap t ∧ Credits s t := by
  obtain ⟨hdata, hnvm, hdesc, hlen⟩ := ticks_keep ht
  obtain ⟨hcap, hst, hbc, -⟩ := ticks_fields ht
  refine ⟨⟨hcap.trans h.capacity, ?_, ?_, ?_, ?_, ?_⟩, hdata, hdesc, ?_, hcap, by rw [hlen], 0,
    Nat.zero_le _, hlen, ?_⟩
  · exact hst ▸ h.start_lt
  · exact hst ▸ h.start_dvd
  · exact hlen ▸ h.len_le
  · rw [hbc, hlen]
    exact h.request_le
  · exact hnvm ▸ h.mapped
  · rw [Sys.mapped, Sys.mapped, hnvm]
  · rw [hst, Nat.add_zero, h.capacity, Nat.mod_eq_of_lt h.start_lt]

theorem mapped_map {f : NvmFile → NvmFile} (h : s.nvm.isSome = true) :
    Sys.mapped { s with nvm := s.nvm.map f } = f s.mapped := by
  obtain ⟨x, hx⟩ := Option.isSome_iff_exists.mp h
  simp [Sys.mapped, hx]

end

/-! ## Credit -/

section
variable {cap k : Nat} {s t : Sys} {A B : Syscall → Nat → Prop} {I : Sys → Prop}

theorem updateAfterFsync_ring (hb : Blocks cap) (h : InRing cap s) (hk : blockSize * k ≤ s.guard.len)
    (hI : ∀ t, Credits s t → I t) :
    awp A B I (updateAfterFsync k) (fun _ t => InRing cap { t with guard := { t.guard with blockCount := 0 } } ∧
      Credits s t ∧ t.guard.len = s.guard.len - blockSize * k ∧ t.guard.blockCount = s.guard.blockCount) s := by
  have hsmall := hb.small
  have hlen := h.len_le
  unfold updateAfterFsync
  refine (Cmd.wp_ite ..).mpr ⟨fun h0 => ?_, fun hne => ?_⟩
  · subst h0
    exact ⟨⟨h.capacity, h.start_lt, h.start_dvd, h.len_le, Nat.zero_le _, h.mapped⟩, h.refl, rfl, rfl⟩
  have hmod : blockSize * k % 2 ^ 64 = blockSize * k := Nat.mod_eq_of_lt (by omega)
  have hdvd : blockSize ∣ (s.guard.start + blockSize * k) % cap := by
    rw [Nat.dvd_mod_iff hb.dvd]
    exact Nat.dvd_add h.start_dvd (Nat.dvd_mul_right _ _)
  simp only [Cmd.wp_bind, Cmd.wp_get, hmod, h.capacity]
  apply (wp_ringBufForward hb h.start_lt (by omega)).mpr
  simp only [Cmd.wp_check, setGuard, Cmd.wp_modify]
  refine ⟨Nat.mod_eq_zero_of_dvd hdvd, hk, Cmd.wp_step fun s₁ hs₁ => ?_⟩
  obtain ⟨hdata, hnvm, hdesc, hlen₁⟩ := ticks_keep hs₁
  obtain ⟨hcap, hst, hbc, -⟩ := ticks_fields hs₁
  have hmapped : s₁.mapped = s.mapped := by rw [Sys.mapped, Sys.mapped, hnvm]
  have hcredits : Credits s s₁ :=
    ⟨hdata, hdesc, by rw [hmapped], hcap, (congrArg (· % blockSize) hlen₁).trans (Nat.sub_mul_mod hk), blockSize * k, hk,
      hlen₁, by rw [hst, h.capacity]⟩
  have hsome : s₁.nvm.isSome = true := by
    rw [hnvm]
    exact h.mapped
  refine ⟨hI _ hcredits, ⟨hcap.trans h.capacity, ?_, ?_, ?_, Nat.zero_le _, ?_⟩, ?_, hlen₁, hbc⟩
  · show s₁.guard.start < cap
    rw [hst]
    exact Nat.mod_lt _ hb.pos
  · show blockSize ∣ s₁.guard.start
    rwa [hst]
  · show s₁.guard.len ≤ cap
    rw [hlen₁]
    exact (Nat.sub_le _ _).trans hlen
  · show (s₁.nvm.map _).isSome = true
    rwa [Option.isSome_map]
  · refine ⟨hcredits.data, hcredits.desc, ?_, hcredits.capacity, hcredits.len_mod,
    hcredits.ring⟩
    rw [mapped_map hsome, hmapped]

/-- The requested blocks leave the ring, and the request is gone. -/
theorem creditAfsync_ring (hb : Blocks cap) (h : InRing cap s) (hI : ∀ t, Credits s t → I t) :
    awp A B I creditAfsync (fun ok t => ok = true ∧ InRing cap t ∧ Credits s t ∧ t.guard.blockCount = 0 ∧
      t.guard.len = s.guard.len - blockSize * s.guard.blockCount) s := by
  simp only [creditAfsync, Cmd.wp_bind, Cmd.wp_get, Cmd.wp_pure, setGuard, Cmd.wp_modify]
  refine Cmd.wp_conseq (updateAfterFsync_ring hb h h.request_le hI) fun _ t ht => ?_
  obtain ⟨hring, hcredits, hlen, -⟩ := ht
  exact ⟨trivial, hring, ⟨hcredits.data, hcredits.desc, hcredits.mapped, hcredits.capacity, hcredits.len_mod,
    hcredits.ring⟩, trivial, hlen⟩

/-- `sem_done` is taken. -/
theorem InRing.taken (h : InRing cap s) (n : Nat) :
    InRing cap { s with guard := { s.guard with semDone := n } } ∧
      Credits s { s with guard := { s.guard with semDone := n } } :=
  ⟨⟨h.capacity, h.start_lt, h.start_dvd, h.len_le, h.request_le, h.mapped⟩,
    h.refl.data, h.refl.desc, h.refl.mapped, h.refl.capacity, h.refl.len_mod, h.refl.ring⟩

theorem takenCredit_ring (hb : Blocks cap) (h : InRing cap s) (hI : ∀ t, Credits s t → I t) :
    awp A B I creditAfsync (fun ok t => ok = true ∧ InRing cap t ∧ Credits s t ∧ t.guard.blockCount = 0 ∧
      t.guard.len = s.guard.len - blockSize * s.guard.blockCount)
      { s with guard := { s.guard with semDone := s.guard.semDone - 1 } } := by
  obtain ⟨htaken, hcredits⟩ := h.taken (s.guard.semDone - 1)
  refine Cmd.wp_conseq (creditAfsync_ring hb htaken fun t ht => hI t (hcredits.trans ht)) fun ok t ht => ?_
  obtain ⟨hok, hring, hcr, h0, hlen⟩ := ht
  exact ⟨hok, hring, hcredits.trans hcr, h0, hlen⟩

theorem handleAfsyncIfFinish_ring (hb : Blocks cap) (h : InRing cap s) (hI : ∀ t, Credits s t → I t) :
    awp A B I handleAfsyncIfFinish (fun _ t => InRing cap t ∧ Credits s t) s := by
  simp only [handleAfsyncIfFinish, Cmd.wp_bind, Cmd.wp_get, Cmd.wp_ite, Cmd.wp_succeeds, Cmd.wp_pure]
  refine ⟨fun _ => ⟨h, h.refl⟩, fun _ n _ => ⟨fun _ => Cmd.wp_stepGet fun s₁ hs₁ => ?_, fun _ => ⟨h, h.refl⟩⟩⟩
  obtain ⟨h₁, hcredits⟩ := h.ticks hs₁
  refine ⟨hI _ hcredits, ?_⟩
  by_cases hd : 0 < s₁.guard.semDone
  · rw [if_pos hd]
    refine ⟨fun _ => ?_, fun hf => absurd rfl hf⟩
    refine Cmd.wp_conseq (takenCredit_ring hb h₁ fun t ht => hI t (hcredits.trans ht)) fun ok t ht => ?_
    exact ⟨ht.2.1, hcredits.trans ht.2.2.1⟩
  · rw [if_neg hd]
    exact ⟨fun hf => by simp at hf, fun _ => ⟨h₁, hcredits⟩⟩

theorem waitAfsyncDone_ring (hb : Blocks cap) (h : InRing cap s) (hI : ∀ t, Credits s t → I t) :
    awp A B I waitAfsyncDone (fun ok t => InRing cap t ∧ Credits s t ∧ (ok = true → t.guard.blockCount = 0)) s := by
  simp only [waitAfsyncDone, Cmd.wp_bind, Cmd.wp_get, Cmd.wp_ite, Cmd.wp_succeeds, Cmd.wp_pure]
  refine ⟨fun h0 => ⟨h, h.refl, fun _ => h0⟩, fun _ n _ => ⟨fun _ => Cmd.wp_await fun s₁ hs₁ => ?_, fun _ => ?_⟩⟩
  · obtain ⟨h₁, hcredits⟩ := h.ticks hs₁
    refine ⟨hI _ hcredits, fun s₂ hs₂ => ?_⟩
    split_ifs at hs₂ with hd
    cases hs₂
    refine Cmd.wp_conseq (takenCredit_ring hb h₁ fun t ht => hI t (hcredits.trans ht)) fun ok t ht => ?_
    exact ⟨ht.2.1, hcredits.trans ht.2.2.1, fun _ => ht.2.2.2.1⟩
  · exact ⟨h, h.refl, fun hf => by cases hf⟩

theorem doFsync_ring (hb : Blocks cap) (h : InRing cap s) (h0 : s.guard.blockCount = 0) (hI : ∀ t, Credits s t → I t) :
    awp A B I doFsync (fun ok t => InRing cap t ∧ Credits s t ∧ (ok = true → t.guard.len = s.guard.len % blockSize)) s := by
  simp only [doFsync, Cmd.wp_bind, Cmd.wp_ite, Cmd.wp_succeeds, Cmd.wp_pure]
  refine fun n _ => ⟨fun _ => Cmd.wp_step fun s₁ hs₁ => ?_, fun _ => ⟨h, h.refl, fun hf => by cases hf⟩⟩
  obtain ⟨h₁, hcredits⟩ := h.ticks hs₁
  refine ⟨hI _ hcredits, ?_⟩
  have h₂ : InRing cap { s₁ with file := s₁.file.syncAll } :=
    ⟨h₁.capacity, h₁.start_lt, h₁.start_dvd, h₁.len_le, h₁.request_le, h₁.mapped⟩
  have hcredits₂ : Credits s { s₁ with file := s₁.file.syncAll } :=
    ⟨hcredits.data, hcredits.desc, hcredits.mapped, hcredits.capacity, hcredits.len_mod,
    hcredits.ring⟩
  simp only [Cmd.wp_get]
  have hupdate := updateAfterFsync_ring (A := A) (B := B) hb h₂ (Nat.mul_div_le s₁.guard.len blockSize) fun t ht =>
    hI t (hcredits₂.trans ht)
  refine Cmd.wp_conseq hupdate fun _ t ht => ?_
  obtain ⟨hring, hcredits₃, hlen, hbc⟩ := ht
  have hbc0 : t.guard.blockCount = 0 := hbc.trans ((ticks_fields hs₁).2.2.1.trans h0)
  refine ⟨⟨hring.capacity, hring.start_lt, hring.start_dvd, hring.len_le, ?_, hring.mapped⟩,
    hcredits₂.trans hcredits₃, fun _ => ?_⟩
  · rw [hbc0]
    exact Nat.zero_le _
  · have hlen' : t.guard.len = s₁.guard.len - blockSize * (s₁.guard.len / blockSize) := hlen
    have hdiv := Nat.div_add_mod s₁.guard.len blockSize
    have hmod := hcredits.len_mod
    omega

/-- The assertion of `aofguard_write` holds for every length. -/
theorem makeRoom_ring (hb : Blocks cap) (h : InRing cap s) (n : Nat) (hI : ∀ t, Credits s t → I t) :
    awp A B I (makeRoom n) (fun ok t => InRing cap t ∧ Credits s t ∧ (ok = true → sadd t.guard.len n ≤ cap)) s := by
  simp only [makeRoom, Cmd.wp_bind, Cmd.wp_get, Cmd.wp_ite, Cmd.wp_pure, h.capacity]
  refine ⟨fun _ => ⟨fun _ => ⟨h, h.refl, fun hf => by cases hf⟩, fun hpart => ?_⟩,
    fun hfit => ⟨h, h.refl, fun _ => Nat.not_lt.mp hfit⟩⟩
  refine Cmd.wp_conseq (waitAfsyncDone_ring hb h hI) fun ok t ht => ?_
  obtain ⟨ht, hcredits, h0⟩ := ht
  rw [ht.capacity]
  refine ⟨fun hok => ⟨fun _ => ?_, fun hfit => ⟨ht, hcredits, fun _ => Nat.not_lt.mp hfit⟩⟩,
    fun hno => ⟨ht, hcredits, fun hf => by cases hf⟩⟩
  refine Cmd.wp_conseq (doFsync_ring hb ht (h0 hok) fun u hu => hI u (hcredits.trans hu)) fun ok' u hu => ?_
  obtain ⟨hu, hcredits', hlen⟩ := hu
  refine ⟨hu, hcredits.trans hcredits', fun hok' => ?_⟩
  rw [hlen hok', hcredits.len_mod]
  exact Nat.not_lt.mp hpart

end

/-! ## The record -/

section
variable {cap n pos : Nat} {s t : Sys} {d : List Byte} {g : Aofguard} {A B : Syscall → Nat → Prop} {I : Sys → Prop}

/-- `write` fails, or transfers a part of the bytes, which it does not do for lengths above `SSIZE_MAX`. -/
theorem wp_syscallWrite_part {R : Sys → Sys → Prop} {Q : Nat → Sys → Prop} (hfail : Q (2 ^ 64 - 1) s)
    (hpart : d.length < 2 ^ 63 → ∀ t, R s t → I t ∧ ∀ k ≤ d.length, Q k (t.write (d.take k))) :
    Cmd.wp R A I (syscallWrite d) Q s := by
  intro n _
  simp only [Cmd.wp_bind, Cmd.wp_get, Cmd.wp_ite, Cmd.wp_pure]
  refine ⟨fun _ => hfail, fun hok => Cmd.wp_stepGet fun t ht => ?_⟩
  obtain ⟨-, hlen, -⟩ := not_or.mp hok |>.imp_right not_or.mp
  obtain ⟨hI, hQ⟩ := hpart (by omega) t ht
  refine ⟨hI, hQ _ ?_⟩
  split_ifs
  · exact le_rfl
  · exact min_le_right _ _

theorem InRing.write (h : InRing cap s) (d : List Byte) : InRing cap (s.write d) :=
  ⟨h.capacity, h.start_lt, h.start_dvd, h.len_le, h.request_le, h.mapped⟩

/-- The guard `g` with room for `d` after the `write` of `d`. -/
structure Ready (cap : Nat) (d : List Byte) (g : Aofguard) (s t : Sys) : Prop where
  start : g.start = t.guard.start
  len : g.len = t.guard.len
  room : g.len + d.length ≤ cap
  written : ∃ u, Credits s u ∧ t = u.write d

/-- Only what fits gets to the copies, and `2 ^ 64 - 1` bytes. -/
theorem beforeCopy_ring (hb : Blocks cap) (h : InRing cap s) (hd : d.length < 2 ^ 64) (hI : ∀ t, Credits s t → I t) :
    awp A B I (beforeCopy d) (fun o t => InRing cap t ∧ Untouched s t ∧
      ∀ g, o = some g → g.capacity = cap ∧ (d.length = 2 ^ 64 - 1 ∨ Ready cap d g s t)) s := by
  have hsmall := hb.small
  simp only [beforeCopy, Cmd.wp_bind, Cmd.wp_ite, Cmd.wp_pure, Cmd.wp_get, Cmd.wp_check]
  refine Cmd.wp_conseq (handleAfsyncIfFinish_ring hb h hI) fun ok s₁ h₁ => ?_
  obtain ⟨h₁, hcredits₁⟩ := h₁
  refine ⟨fun _ => ?_, fun _ => ⟨h₁, hcredits₁.untouched, by simp⟩⟩
  refine Cmd.wp_conseq (makeRoom_ring hb h₁ d.length fun t ht => hI t (hcredits₁.trans ht)) fun ok s₂ h₂ => ?_
  obtain ⟨h₂, hcredits₂, hroom⟩ := h₂
  have hcredits := hcredits₁.trans hcredits₂
  refine ⟨fun hok => ?_, fun _ => ⟨h₂, hcredits.untouched, by simp⟩⟩
  have hsum := hroom hok
  rw [h₂.capacity]
  refine ⟨hsum, wp_syscallWrite_part ⟨h₂, hcredits.untouched, fun g hg => ?_⟩ fun h63 s₃ hs₃ => ?_⟩
  · -- the `-1` of `write` is compared with the length
    split_ifs at hg with hsize
    cases hg
    exact ⟨h₂.capacity, Or.inl hsize.symm⟩
  · obtain ⟨h₃, hcredits₃⟩ := h₂.ticks hs₃
    have hcredits' := hcredits.trans hcredits₃
    refine ⟨hI _ hcredits', fun k hk => ⟨h₃.write _, hcredits'.untouched, fun g hg => ?_⟩⟩
    split_ifs at hg with hall
    cases hg
    have hlen := h₂.len_le
    have hfields := ticks_fields hs₃
    rw [sadd_eq (by omega)] at hsum
    rw [hall, List.take_length]
    exact ⟨h₂.capacity, Or.inr ⟨hfields.2.1.symm, (ticks_keep hs₃).2.2.2.symm, hsum, s₃, hcredits', rfl⟩⟩

/-! ## The copies -/

/-- Only bytes of the ring have changed. -/
structure Copies (s t : Sys) : Prop where
  data : t.file.data = s.file.data
  capacity : t.guard.capacity = s.guard.capacity
  start : t.guard.start = s.guard.start
  untouched : Untouched s t

theorem Copies.trans {u : Sys} (h : Copies s t) (h' : Copies t u) : Copies s u := by
  refine ⟨h'.data.trans h.data, h'.capacity.trans h.capacity, h'.start.trans h.start, fun i hi => ?_⟩
  rw [h'.untouched i (h.capacity.trans_le hi), h.untouched i hi]

/-- The thread does not even change these. -/
theorem Copies.ticks (ht : TicksOf B s t) : Copies s t ∧ t.mapped = s.mapped := by
  obtain ⟨hdata, hnvm, -, -⟩ := ticks_keep ht
  obtain ⟨hcap, hst, -, -⟩ := ticks_fields ht
  have hmapped : t.mapped = s.mapped := by rw [Sys.mapped, Sys.mapped, hnvm]
  exact ⟨⟨hdata, hcap, hst, fun i _ => by rw [hmapped]⟩, hmapped⟩

theorem nvmMemcpy_ring (h : InRing cap s) (hn : n + d.length ≤ cap) (hpos : pos = (s.guard.start + n) % cap)
    (he : pos + d.length ≤ cap) (hI : ∀ t, Copies s t → I t) :
    awp A B I (nvmMemcpy pos d) (fun _ t => InRing cap t ∧ Copies s t ∧ t.guard.len = s.guard.len ∧
      cells t.mapped.data cap s.guard.start (n + d.length) = cells s.mapped.data cap s.guard.start n ++ d) s := by
  refine Cmd.wp_pieces fun s₁ hs₁ => ?_
  obtain ⟨h₁, -⟩ := h.ticks hs₁
  obtain ⟨hcopies, hmapped⟩ := Copies.ticks hs₁
  -- however much of the copy is performed, it stays in front of the end of the ring
  have hput : ∀ m, Copies s { s₁ with nvm := s₁.nvm.map fun x => { x with data := put x.data pos d m } } := by
    intro m
    refine ⟨hcopies.data, hcopies.capacity, hcopies.start, fun i hi => ?_⟩
    have hcap := h.capacity
    rw [mapped_map h₁.mapped, hmapped]
    exact put_outside m (Or.inr (by omega))
  refine ⟨hI _ hcopies, fun m => hI _ (hput m), ?_, hput _, (ticks_keep hs₁).2.2.2, ?_⟩
  · refine ⟨h₁.capacity, h₁.start_lt, h₁.start_dvd, h₁.len_le, h₁.request_le, ?_⟩
    rw [Option.isSome_map]
    exact h₁.mapped
  · subst hpos
    rw [mapped_map h₁.mapped, hmapped]
    exact cells_put_append h.start_lt hn he

/-- The copy appends `d` to the ring, in one part or in two. -/
theorem copyToRing_ring (hb : Blocks cap) (h : InRing cap s) (hn : s.guard.len + d.length ≤ cap)
    (hI : ∀ t, Copies s t → I t) :
    awp A B I (copyToRing ((s.guard.start + s.guard.len) % cap) cap d) (fun _ t => InRing cap t ∧ Copies s t ∧
      t.guard.len = s.guard.len ∧ cells t.mapped.data cap s.guard.start (s.guard.len + d.length) = s.ring ++ d) s := by
  have hsmall := hb.small
  have hpos := Nat.mod_lt (s.guard.start + s.guard.len) hb.pos
  rw [Sys.ring, h.capacity]
  unfold copyToRing
  rw [sadd_eq (by omega)]
  refine (Cmd.wp_ite ..).mpr ⟨fun he => nvmMemcpy_ring h hn rfl he hI, fun he => ?_⟩
  generalize hfront : cap - (s.guard.start + s.guard.len) % cap = front
  have hlen : (d.take front).length = front := by
    rw [List.length_take]
    omega
  simp only [Cmd.wp_bind]
  refine Cmd.wp_conseq (nvmMemcpy_ring h (by omega) rfl (by omega) hI) fun _ t ht => ?_
  obtain ⟨ht, hcopies, hkeep, hcells⟩ := ht
  -- the first part has filled the ring up to its end, so that the second starts at cell 0
  have hend : (s.guard.start + (s.guard.len + front)) % cap = 0 := by
    rw [← Nat.add_assoc, ← Nat.mod_add_mod, show (s.guard.start + s.guard.len) % cap + front = cap by omega, Nat.mod_self]
  have hpos₀ : 0 = (t.guard.start + (s.guard.len + front)) % cap := by rw [hcopies.start, hend]
  have hrest := nvmMemcpy_ring (A := A) (B := B) (I := I) (d := d.drop front) ht (by rw [List.length_drop]; omega) hpos₀
    (by rw [List.length_drop]; omega) fun u hu => hI u (hcopies.trans hu)
  refine Cmd.wp_conseq hrest fun _ u hu => ?_
  obtain ⟨hu, hcopies', hkeep', hcells'⟩ := hu
  refine ⟨hu, hcopies.trans hcopies', hkeep'.trans hkeep, ?_⟩
  rw [hcopies.start] at hcells'
  rw [hlen] at hcells
  rw [hcells, List.length_drop, List.append_assoc, List.take_append_drop] at hcells'
  rwa [show s.guard.len + front + (d.length - front) = s.guard.len + d.length by omega] at hcells'

theorem requestAfsync_ring (h : InRing cap s) (hI : ∀ t, Copies s t → I t) :
    awp A B I requestAfsync (fun _ t => InRing cap t ∧ Copies s t ∧ t.guard.len = s.guard.len ∧ t.mapped = s.mapped) s := by
  simp only [requestAfsync, Cmd.wp_bind, Cmd.wp_get, Cmd.wp_ite, Cmd.wp_succeeds, Cmd.wp_pure, setGuard, Cmd.wp_modify]
  have hstay := (Copies.ticks (B := B) (s := s) .refl).1
  have hle := Nat.mul_div_le s.guard.len blockSize
  refine ⟨fun _ n _ => ⟨fun _ => Cmd.wp_step fun s₁ hs₁ => ?_, fun _ => ?_⟩, fun _ => ⟨h, hstay, trivial, trivial⟩⟩
  · have h₀ : InRing cap { s with guard := { s.guard with blockCount := s.guard.len / blockSize } } :=
      ⟨h.capacity, h.start_lt, h.start_dvd, h.len_le, hle, h.mapped⟩
    obtain ⟨h₁, -⟩ := h₀.ticks hs₁
    obtain ⟨hcopies, hmapped⟩ := Copies.ticks hs₁
    have hcopies' : Copies s s₁ := ⟨hcopies.data, hcopies.capacity, hcopies.start, hcopies.untouched⟩
    exact ⟨hI _ hcopies', ⟨h₁.capacity, h₁.start_lt, h₁.start_dvd, h₁.len_le, h₁.request_le, h₁.mapped⟩,
      ⟨hcopies.data, hcopies.capacity, hcopies.start, hcopies.untouched⟩, (ticks_keep hs₁).2.2.2, hmapped⟩
  · exact ⟨⟨h.capacity, h.start_lt, h.start_dvd, h.len_le, hle, h.mapped⟩,
      ⟨hstay.data, hstay.capacity, hstay.start, hstay.untouched⟩, trivial, rfl⟩

theorem copyRecord_ring (hb : Blocks cap) (h : InRing cap s) (hcap : g.capacity = cap) (hst : g.start = s.guard.start)
    (hlen : g.len = s.guard.len) (hroom : g.len + d.length ≤ cap) (hI : ∀ t, Copies s t → I t) :
    awp A B I (copyRecord d g) (fun _ t => InRing cap t ∧ Copies s t ∧ t.guard.len = s.guard.len + d.length ∧
      t.ring = s.ring ++ d) s := by
  have hsmall := hb.small
  rw [hlen] at hroom
  simp only [copyRecord, Cmd.wp_bind, hcap, hst, hlen]
  apply (wp_ringBufForward hb h.start_lt h.len_le).mpr
  refine Cmd.wp_conseq (copyToRing_ring hb h hroom hI) fun _ t ht => ?_
  obtain ⟨ht, hcopies, hkeep, hcells⟩ := ht
  rw [sadd_eq (by omega)]
  simp only [setGuard, Cmd.wp_modify, Cmd.wp_check]
  refine ⟨hroom, (wp_ringBufForward hb h.start_lt hroom).mpr (Cmd.wp_step fun s₁ hs₁ => ?_)⟩
  have hlong : InRing cap { t with guard := { t.guard with len := s.guard.len + d.length } } := by
    refine ⟨ht.capacity, ht.start_lt, ht.start_dvd, hroom, ?_, ht.mapped⟩
    have hreq := ht.request_le
    show blockSize * t.guard.blockCount ≤ s.guard.len + d.length
    omega
  obtain ⟨h₁, -⟩ := hlong.ticks hs₁
  obtain ⟨hcopies₁, hmapped₁⟩ := Copies.ticks hs₁
  have hcopies₂ : Copies t s₁ := ⟨hcopies₁.data, hcopies₁.capacity, hcopies₁.start, hcopies₁.untouched⟩
  have hlen₁ : s₁.guard.len = s.guard.len + d.length := (ticks_keep hs₁).2.2.2
  refine ⟨hI _ (hcopies.trans hcopies₂), ?_⟩
  generalize hend : (fun x : NvmFile => { x with bufEnd := (s.guard.start + (s.guard.len + d.length)) % cap }) = f
  have hf : ∀ x, (f x).data = x.data := by
    intro x
    rw [← hend]
  have h₂ : InRing cap { s₁ with nvm := s₁.nvm.map f } := by
    refine ⟨h₁.capacity, h₁.start_lt, h₁.start_dvd, h₁.len_le, h₁.request_le, ?_⟩
    show (s₁.nvm.map f).isSome = true
    rw [Option.isSome_map]
    exact h₁.mapped
  have hcopies₃ : Copies s { s₁ with nvm := s₁.nvm.map f } := by
    refine hcopies.trans ⟨hcopies₂.data, hcopies₂.capacity, hcopies₂.start, fun i hi => ?_⟩
    rw [mapped_map h₁.mapped, hf]
    exact hcopies₂.untouched i hi
  refine Cmd.wp_conseq (requestAfsync_ring h₂ fun u hu => hI u (hcopies₃.trans hu)) fun _ u hu => ?_
  obtain ⟨hu, hcopies₄, hlenu, hmapped₄⟩ := hu
  refine ⟨hu, hcopies₃.trans hcopies₄, hlenu.trans hlen₁, ?_⟩
  have hdata : u.mapped.data = t.mapped.data := by
    rw [hmapped₄, mapped_map h₁.mapped, hf, hmapped₁]
    rfl
  rw [Sys.ring, hdata, hu.capacity, (hcopies₃.trans hcopies₄).start, hlenu.trans hlen₁, hcells]

/-- A call with less than `2 ^ 64 - 1` bytes. -/
theorem aofguardWrite_ring (hb : Blocks cap) (h : InRing cap s) (hd : d.length < 2 ^ 64 - 1) :
    awp A B (Untouched s) (aofguardWrite d) (fun ok t => Untouched s t ∧ (ok = true → Appended d s t)) s := by
  rw [aofguardWrite_eq]
  apply (Cmd.wp_bind ..).mpr
  refine Cmd.wp_conseq (beforeCopy_ring hb h (by omega) fun t ht => ht.untouched) fun o t ht => ?_
  obtain ⟨ht, huntouched, hready⟩ := ht
  cases o with
  | none => exact ⟨huntouched, fun hf => by cases hf⟩
  | some g =>
    obtain ⟨hgcap, hbig | hg⟩ := hready g rfl
    · omega
    obtain ⟨u, hcredits, rfl⟩ := hg.written
    have hcap : (u.write d).guard.capacity = s.guard.capacity := hcredits.capacity
    have hcopied : ∀ v, Copies (u.write d) v → Untouched s v := by
      intro v hv i hi
      rw [hv.untouched i (hcap.trans_le hi), huntouched i hi]
    refine Cmd.wp_conseq (copyRecord_ring hb ht hgcap hg.start hg.len hg.room hcopied) fun ok v hv => ?_
    obtain ⟨-, hcopies, hlen, hring⟩ := hv
    refine ⟨hcopied v hcopies, fun _ => ⟨?_, ?_⟩⟩
    · rw [hcopies.data, ← hcredits.desc]
      exact Desc.write_congr hcredits.data u.desc d
    · obtain ⟨k, hk, hlenu, hringu⟩ := hcredits.ring_eq
      refine ⟨k, hk, hlen.trans (congrArg (· + d.length) hlenu), ?_⟩
      rw [hring, ← hringu]
      rfl

/-- Every record but one of `2 ^ 64 - 1` bytes. -/
theorem fits_of_lt (hb : Blocks cap) (h : InRing cap s) (hd : d.length < 2 ^ 64 - 1) : Fits d s := by
  have hwrite := aofguardWrite_ring (A := AnyReply) (B := AnyReply) hb h hd
  refine ⟨fun g t hr => ?_, fun ok t hr => (Cmd.wp_run hwrite hr).1, fun t hr => Cmd.wp_crash hwrite hr,
    fun t hr => (Cmd.wp_run hwrite hr).2 rfl⟩
  have hbefore := beforeCopy_ring (A := AnyReply) (B := AnyReply) (I := fun _ => True) (d := d) hb h (by omega)
    fun _ _ => trivial
  obtain ⟨hgcap, hbig | hg⟩ := (Cmd.wp_run hbefore hr).2.2 g rfl
  · omega
  · have hroom := hg.room
    rw [hgcap]
    exact ⟨by omega, hroom⟩

/-! ## `2 ^ 64 - 1` bytes -/

/-- The call credits all that is in the ring before it looks at the length. -/
def Emptied (s : Sys) : Prop :=
  s.guard.len = 0 ∨ 0 < s.guard.semDone ∧ s.guard.len = blockSize * s.guard.blockCount

theorem handleAfsyncIfFinish_emptied (hb : Blocks cap) (h : InRing cap s) (he : Emptied s) (hI : ∀ t, Credits s t → I t) :
    awp A B I handleAfsyncIfFinish (fun ok t => InRing cap t ∧ Credits s t ∧ (ok = true → t.guard.len = 0)) s := by
  by_cases h0 : s.guard.len = 0
  · refine Cmd.wp_conseq (handleAfsyncIfFinish_ring hb h hI) fun ok t ht => ⟨ht.1, ht.2, fun _ => ?_⟩
    exact Nat.le_zero.mp (ht.2.len_le.trans_eq h0)
  obtain ⟨hd, hall⟩ := he.resolve_left h0
  have hne : s.guard.blockCount ≠ 0 := by
    intro hz
    rw [hz, Nat.mul_zero] at hall
    exact h0 hall
  simp only [handleAfsyncIfFinish, Cmd.wp_bind, Cmd.wp_get, Cmd.wp_ite, Cmd.wp_succeeds, Cmd.wp_pure]
  refine ⟨fun hz => absurd hz hne, fun _ n _ => ⟨fun _ => Cmd.wp_stepGet fun s₁ hs₁ => ?_,
    fun _ => ⟨h, h.refl, fun hf => by cases hf⟩⟩⟩
  obtain ⟨h₁, hcredits⟩ := h.ticks hs₁
  obtain ⟨-, -, hbc, hdone⟩ := ticks_fields hs₁
  have hlen : s₁.guard.len = s.guard.len := (ticks_keep hs₁).2.2.2
  rw [if_pos (by omega)]
  refine ⟨hI _ hcredits, fun _ => ?_, fun hf => absurd rfl hf⟩
  refine Cmd.wp_conseq (takenCredit_ring hb h₁ fun t ht => hI t (hcredits.trans ht)) fun ok t ht => ?_
  obtain ⟨-, ht, hcredits', -, hzero⟩ := ht
  refine ⟨ht, hcredits.trans hcredits', fun _ => ?_⟩
  rw [hzero, hbc, hlen, ← hall, Nat.sub_self]

/-- On an empty ring the length is found too big. -/
theorem beforeCopy_emptied (hb : Blocks cap) (h : InRing cap s) (he : Emptied s) (hd : d.length = 2 ^ 64 - 1)
    (hI : ∀ t, Credits s t → I t) : awp A B I (beforeCopy d) (fun o t => o = none ∧ Credits s t) s := by
  have hsmall := hb.small
  have hsum : sadd 0 d.length = d.length := (sadd_eq (by omega)).trans (Nat.zero_add _)
  have hlt : cap < d.length := by omega
  simp only [beforeCopy, Cmd.wp_bind, Cmd.wp_ite, Cmd.wp_pure, Cmd.wp_get, Cmd.wp_check]
  refine Cmd.wp_conseq (handleAfsyncIfFinish_emptied hb h he hI) fun ok t ht => ?_
  obtain ⟨ht, hcredits, h0⟩ := ht
  refine ⟨fun hok => ?_, fun _ => ⟨trivial, hcredits⟩⟩
  simp only [makeRoom, Cmd.wp_bind, Cmd.wp_get, Cmd.wp_ite, Cmd.wp_pure, ht.capacity, h0 hok, Nat.zero_mod, hsum]
  refine ⟨fun _ => ⟨fun _ => ⟨fun hf => ?_, fun _ => ⟨trivial, hcredits⟩⟩, fun hno => absurd hlt hno⟩,
    fun hno => absurd hlt hno⟩
  cases hf

theorem fits_of_emptied (hb : Blocks cap) (h : InRing cap s) (he : Emptied s) (hd : d.length = 2 ^ 64 - 1) : Fits d s := by
  have hbefore := beforeCopy_emptied (A := AnyReply) (B := AnyReply) hb h he hd fun t ht => ht.untouched
  have hwrite : awp AnyReply AnyReply (Untouched s) (aofguardWrite d) (fun ok t => ok = false ∧ Untouched s t) s := by
    rw [aofguardWrite_eq]
    apply (Cmd.wp_bind ..).mpr
    refine Cmd.wp_conseq hbefore fun o t ht => ?_
    obtain ⟨rfl, hcredits⟩ := ht
    exact ⟨rfl, hcredits.untouched⟩
  refine ⟨fun g t hr => ?_, fun ok t hr => (Cmd.wp_run hwrite hr).2, fun t hr => Cmd.wp_crash hwrite hr, fun t hr => ?_⟩
  · cases (Cmd.wp_run hbefore hr).1
  · cases (Cmd.wp_run hwrite hr).1

theorem total_handleAfsyncIfFinish : handleAfsyncIfFinish.Total := by
  have hforward : ∀ v a cap : Nat, (ringBufForward v a cap).Total := fun v a cap =>
    Cmd.total_bind (Cmd.total_check _) fun _ => Cmd.total_pure _
  have hupdate : ∀ k, (updateAfterFsync k).Total := by
    intro k
    refine Cmd.total_ite (Cmd.total_pure _) (Cmd.total_bind (Cmd.total_get _) fun g => ?_)
    refine Cmd.total_bind (hforward _ _ _) fun v => Cmd.total_bind (Cmd.total_check _) fun _ => ?_
    exact Cmd.total_bind (Cmd.total_check _) fun _ => Cmd.total_bind (Cmd.total_modify _) fun _ => Cmd.total_step _
  have hcredit : creditAfsync.Total := Cmd.total_bind (Cmd.total_get _) fun k => Cmd.total_bind (hupdate k) fun _ =>
    Cmd.total_bind (Cmd.total_modify _) fun _ => Cmd.total_pure _
  refine Cmd.total_bind (Cmd.total_get _) fun k => Cmd.total_ite (Cmd.total_pure _) ?_
  refine Cmd.total_bind (Cmd.total_succeeds _) fun ok => Cmd.total_ite ?_ (Cmd.total_pure _)
  exact Cmd.total_bind (Cmd.total_stepGet _) fun taken => Cmd.total_ite hcredit (Cmd.total_pure _)

/-- A thread that gets no answers does nothing. -/
theorem ticks_stopped (ht : TicksOf (fun _ _ => False) s t) : t = s := by
  induction ht with
  | refl => rfl
  | tail _ hstep _ => cases hstep <;> contradiction

/-- The call can leave bytes in the ring. -/
theorem handleAfsyncIfFinish_filled (hb : Blocks cap) (h : InRing cap s) (he : ¬ Emptied s) :
    ∃ t, handleAfsyncIfFinish.exec s = some (true, t) ∧ InRing cap t ∧ 0 < t.guard.len := by
  obtain ⟨hne, hnot⟩ := not_or.mp he
  have hpos := Nat.pos_of_ne_zero hne
  have hwp : awp (fun _ k => k = 0) (fun _ _ => False) (fun _ => True) handleAfsyncIfFinish
      (fun ok t => ok = true ∧ InRing cap t ∧ 0 < t.guard.len) s := by
    simp only [handleAfsyncIfFinish, Cmd.wp_bind, Cmd.wp_get, Cmd.wp_ite, Cmd.wp_succeeds, Cmd.wp_pure]
    refine ⟨fun _ => ⟨trivial, h, hpos⟩, fun _ n hn => ⟨fun _ => Cmd.wp_stepGet fun s₁ hs₁ => ?_, fun hf => ?_⟩⟩
    · obtain rfl := ticks_stopped hs₁
      refine ⟨trivial, ?_⟩
      by_cases hd : 0 < s₁.guard.semDone
      · rw [if_pos hd]
        refine ⟨fun _ => ?_, fun hf => absurd rfl hf⟩
        refine Cmd.wp_conseq (takenCredit_ring hb h fun _ _ => trivial) fun ok t ht => ⟨ht.1, ht.2.1, ?_⟩
        have hlen := ht.2.2.2.2
        have hreq := h.request_le
        have hne' : s₁.guard.len ≠ blockSize * s₁.guard.blockCount := fun hall => hnot ⟨hd, hall⟩
        omega
      · rw [if_neg hd]
        exact ⟨fun hf => absurd hf Bool.false_ne_true, fun _ => ⟨trivial, h, hpos⟩⟩
    · exact absurd (by rw [hn]; rfl) hf
  obtain ⟨ok, t, ht, rfl, hring, hlen⟩ := Cmd.wp_exec (R := TicksOf fun _ _ => False)
    (A := fun _ k => k = 0) (fun _ => Relation.ReflTransGen.refl) (fun _ => rfl) hwp total_handleAfsyncIfFinish
  exact ⟨t, ht, hring, hlen⟩

/-- Otherwise a call with `2 ^ 64 - 1` bytes gets to the copies. -/
theorem beforeCopy_wraps (hb : Blocks cap) (h : InRing cap s) (he : ¬ Emptied s) (hd : d.length = 2 ^ 64 - 1) :
    ∃ g t, Runs (beforeCopy d) s (some g) t := by
  have hsmall := hb.small
  obtain ⟨t, ht, hring, hpos⟩ := handleAfsyncIfFinish_filled hb h he
  have hlen := hring.len_le
  have hsum : sadd t.guard.len d.length = t.guard.len - 1 := by
    unfold sadd
    omega
  have hroom : (makeRoom d.length).exec t = some (true, t) := by
    simp only [makeRoom, Cmd.exec_bind, Cmd.exec_get, Option.bind_some, Cmd.exec_ite, Cmd.exec_pure, hsum, hring.capacity]
    rw [if_neg (by omega)]
  have hwrite : (syscallWrite d).exec t = some (d.length, t) := by
    have hlong : t.desc.writable = false ∨ 2 ^ 63 ≤ d.length ∨ 0 = 1 := Or.inr (Or.inl (by omega))
    simp only [syscallWrite, Cmd.exec_ask, Cmd.exec_bind, Cmd.exec_get, Option.bind_some, if_pos hlong, Cmd.exec_pure]
    rw [hd]
  have hfit : t.guard.len - 1 ≤ cap := by omega
  refine ⟨t.guard, t, Cmd.exec_run (fun _ => .refl) (fun _ => trivial) ?_⟩
  simp only [beforeCopy, Cmd.exec_bind, ht, Option.bind_some, Cmd.exec_ite, if_true, hroom, Cmd.exec_get,
    Cmd.exec_check, hsum, hring.capacity, hwrite, Cmd.exec_pure, if_pos hfit]

end

/-! ## Every state of a guard -/

section
variable {cap size : Nat} {s : Sys} {A B : Syscall → Nat → Prop}

/-- A guard with its ring set, whose thread does not run yet. -/
structure SetUp (cap : Nat) (s : Sys) : Prop where
  capacity : s.guard.capacity = cap
  start_lt : s.guard.start < cap
  start_dvd : blockSize ∣ s.guard.start
  len_le : s.guard.len ≤ cap
  mapped : s.nvm.isSome = true
  stopped : s.guard.thread = .none

theorem syscallWrite_setUp (h : SetUp cap s) (d : List Byte) :
    awp A B (fun _ => True) (syscallWrite d) (fun _ t => SetUp cap t) s := by
  refine wp_syscallWrite_part h fun _ t ht => ⟨trivial, fun k _ => ?_⟩
  obtain rfl := ticks_none ht h.stopped
  exact ⟨h.capacity, h.start_lt, h.start_dvd, h.len_le, h.mapped, h.stopped⟩

theorem rewriteTail_setUp (h : SetUp cap s) : awp A B (fun _ => True) rewriteTail (fun _ t => SetUp cap t) s := by
  simp only [rewriteTail, Cmd.wp_bind, Cmd.wp_get, Cmd.wp_ite, Cmd.wp_pure]
  refine ⟨fun _ => syscallWrite_setUp h _, fun _ => ?_⟩
  refine Cmd.wp_conseq (syscallWrite_setUp h _) fun k t ht => ⟨fun _ => syscallWrite_setUp ht _, fun _ => ht⟩

theorem recover_setUp (hcap : s.guard.capacity = cap) (hsome : s.nvm.isSome = true) (hstop : s.guard.thread = .none) :
    awp A B (fun _ => True) (recover size) (fun ok t => ok = true → SetUp cap t) s := by
  subst hcap
  simp only [recover, setGuard, Cmd.wp_bind, Cmd.wp_get, Cmd.wp_ite, Cmd.wp_pure, Cmd.wp_modify]
  refine ⟨fun _ hf => ?_, fun hst => ⟨fun _ hf => ?_, fun hend => ⟨fun _ hf => ?_, fun _ => ?_⟩⟩⟩
  · cases hf
  · cases hf
  · cases hf
  have hlen := decodeLen_le (Nat.not_le.mp hst) (Nat.not_le.mp hend)
  have hset : SetUp s.guard.capacity { s with guard := { s.guard with
      fsyncLen := getFsyncLen s.mapped.mixed
      start := getBufStart s.mapped.mixed
      len := decodeLen s.guard.capacity (getBufStart s.mapped.mixed) s.mapped.bufEnd } } :=
    ⟨rfl, Nat.not_le.mp hst, Nat.dvd_mul_right _ _, hlen.le, hsome, hstop⟩
  refine ⟨fun _ => ?_, fun _ => ⟨fun _ => Cmd.wp_conseq (rewriteTail_setUp hset) fun _ _ ht _ => ht, fun hf => ?_⟩⟩
  · simp only [syscallFtruncate, Cmd.wp_bind, Cmd.wp_succeeds, Cmd.wp_get, Cmd.wp_ite, Cmd.wp_pure]
    refine fun n _ => ⟨fun _ => Cmd.wp_step fun t ht => ?_, fun _ => ⟨fun hf => ?_, fun _ hf => ?_⟩⟩
    · obtain rfl := ticks_none ht hstop
      refine ⟨trivial, fun _ => Cmd.wp_conseq (rewriteTail_setUp ?_) fun _ _ ht _ => ht, fun hf => absurd trivial hf⟩
      exact ⟨hset.capacity, hset.start_lt, hset.start_dvd, hset.len_le, hset.mapped, hset.stopped⟩
    · cases hf
    · cases hf
  · exact absurd trivial hf

theorem resetMeta_setUp (hpos : 0 < cap) (hcap : s.guard.capacity = cap) (hsome : s.nvm.isSome = true)
    (hstop : s.guard.thread = .none) :
    awp A B (fun _ => True) (resetMeta size) (fun _ t => SetUp cap t) s := by
  simp only [resetMeta, setGuard, nvmSet64, Cmd.wp_bind, Cmd.wp_modify, Cmd.wp_pure]
  refine Cmd.wp_step fun t ht => ⟨trivial, Cmd.wp_step fun u hu => ⟨trivial, ?_⟩⟩
  obtain rfl := ticks_none ht hstop
  obtain rfl := ticks_none hu hstop
  refine ⟨hcap, hpos, Nat.dvd_zero _, Nat.zero_le _, ?_, hstop⟩
  rw [Option.isSome_map, Option.isSome_map]
  exact hsome

theorem openNvm_mapped (n : Nat) (hstop : s.guard.thread = .none) :
    awp A B (fun _ => True) (openNvm n) (fun ok t => ok = true → t.nvm.isSome = true ∧ t.guard.thread = .none) s := by
  unfold openNvm
  simp only [Cmd.wp_bind, Cmd.wp_get]
  cases hx : s.nvm with
  | some x =>
    simp only [Cmd.wp_bind, Cmd.wp_succeeds, Cmd.wp_pure]
    exact fun _ _ _ _ _ => ⟨by rw [hx]; rfl, hstop⟩
  | none =>
    simp only [Cmd.wp_bind, Cmd.wp_ite, Cmd.wp_succeeds, Cmd.wp_pure]
    refine fun _ _ => ⟨fun _ => Cmd.wp_step fun t ht => ⟨trivial, fun _ _ => ⟨fun _ => Cmd.wp_step fun u hu => ?_, ?_⟩⟩, ?_⟩
    · obtain rfl := ticks_none ht hstop
      obtain rfl := ticks_none hu hstop
      exact ⟨trivial, fun _ => ⟨rfl, hstop⟩⟩
    · exact fun _ hf => absurd hf Bool.false_ne_true
    · exact fun _ hf => absurd hf Bool.false_ne_true

/-- What `aofguard_init` sets up, whatever the NVM file says. -/
theorem aofguardInit_ring {nvmSize : Nat} {reset : Bool} {f : File} {nvm : Option NvmFile} {c : Desc} {s : Sys}
    (hr : Runs (aofguardInit nvmSize reset) (.boot f nvm c) true s) : InRing (capOf nvmSize) s := by
  have hn : SizeOk nvmSize := sizeOk_of_run hr
  have hno : ∀ {t : Sys}, false = true → InRing (capOf nvmSize) t := fun hf => absurd hf Bool.false_ne_true
  have hwp : awp AnyReply AnyReply (fun _ => True) (aofguardInit nvmSize reset)
      (fun ok t => ok = true → InRing (capOf nvmSize) t) (.boot f nvm c) := by
    unfold aofguardInit
    rw [if_neg (Nat.not_lt.mpr hn.1), if_neg (Nat.not_lt.mpr hn.2)]
    simp only [Cmd.wp_bind, Cmd.wp_get, Cmd.wp_ite, Cmd.wp_succeeds, Cmd.wp_pure]
    refine Cmd.wp_conseq (openNvm_mapped _ rfl) fun opened t ht => ⟨fun hok => fun _ _ _ _ => ⟨fun _ => ?_, fun _ => hno⟩,
      fun _ => hno⟩
    obtain ⟨hsome, hstop⟩ := ht hok
    simp only [setUp, setGuard, Cmd.wp_bind, Cmd.wp_get, Cmd.wp_modify, Cmd.wp_ite, Cmd.wp_pure]
    have hstart : ∀ u, SetUp (capOf nvmSize) u → awp AnyReply AnyReply (fun _ => True) startThread
        (fun ok v => ok = true → InRing (capOf nvmSize) v) u := by
      intro u hu
      simp only [startThread, setGuard, Cmd.wp_bind, Cmd.wp_modify, Cmd.wp_succeeds, Cmd.wp_ite, Cmd.wp_pure]
      exact fun _ _ _ _ _ _ => ⟨fun _ _ => ⟨hu.capacity, hu.start_lt, hu.start_dvd, hu.len_le, Nat.zero_le _, hu.mapped⟩,
        fun _ => hno⟩
    refine ⟨fun _ => ?_, fun _ => ?_⟩
    · refine Cmd.wp_conseq (recover_setUp rfl hsome hstop) fun ok u hu => ⟨fun hok => hstart u (hu hok), fun _ => hno⟩
    · refine Cmd.wp_conseq (resetMeta_setUp hn.blocks.pos rfl hsome hstop) fun ok u hu => ⟨fun _ => hstart u hu, fun _ => hno⟩
  exact Cmd.wp_run hwp hr rfl

end

theorem RingState.sizeOk {nvmSize : Nat} {s : Sys} (h : RingState nvmSize s) : SizeOk nvmSize := by
  induction h with
  | init hr => exact sizeOk_of_run hr
  | tick _ _ ih => exact ih
  | refused _ _ _ ih => exact ih
  | copied _ _ _ _ _ ih => exact ih

theorem RingState.inRing {nvmSize : Nat} {s : Sys} (h : RingState nvmSize s) : InRing (capOf nvmSize) s := by
  have hb := h.sizeOk.blocks
  have hsmall := hb.small
  induction h with
  | init hr => exact aofguardInit_ring hr
  | tick _ ht ih => exact (ih.ticks (.single ht)).1
  | refused _ hd hr ih =>
    have hbefore := beforeCopy_ring (A := AnyReply) (B := AnyReply) (I := fun _ => True) hb ih hd fun _ _ => trivial
    exact (Cmd.wp_run hbefore hr).1
  | @copied s t u d g ok _ hd hr hcap hr' ih =>
    have hbefore := beforeCopy_ring (A := AnyReply) (B := AnyReply) (I := fun _ => True) hb ih hd fun _ _ => trivial
    obtain ⟨ht, -, hready⟩ := Cmd.wp_run hbefore hr
    obtain ⟨hgcap, hbig | hg⟩ := hready g rfl
    · omega
    · have hcopy := copyRecord_ring (A := AnyReply) (B := AnyReply) (I := fun _ => True) hb ht hgcap hg.start hg.len
        hg.room fun _ _ => trivial
      exact (Cmd.wp_run hcopy hr').1

/-- **No length wraps.** In every state of a guard a record gets to the copies only if it fits, no copy leaves the ring and
a call that returns 1 has appended it, if and only if the record does not have `2 ^ 64 - 1` bytes, or the ring is empty by
the time the length is looked at. -/
theorem no_wrap_iff {nvmSize : Nat} {s : Sys} {d : List Byte} (h : RingState nvmSize s) (hd : d.length < 2 ^ 64) :
    Fits d s ↔ d.length ≠ 2 ^ 64 - 1 ∨ Emptied s := by
  have hb := h.sizeOk.blocks
  have hsmall := hb.small
  have hring := h.inRing
  constructor
  · intro hfits
    by_contra hno
    obtain ⟨hbig, he⟩ := not_or.mp hno
    obtain ⟨g, t, hr⟩ := beforeCopy_wraps hb hring he (not_not.mp hbig)
    have hbefore := beforeCopy_ring (A := AnyReply) (B := AnyReply) (I := fun _ => True) hb hring hd fun _ _ => trivial
    obtain ⟨hgcap, -⟩ := (Cmd.wp_run hbefore hr).2.2 g rfl
    have hroom := (hfits.room g t hr).1
    omega
  · intro hcond
    by_cases hbig : d.length = 2 ^ 64 - 1
    · exact fits_of_emptied hb hring (hcond.resolve_left fun hne => hne hbig) hbig
    · exact fits_of_lt hb hring (by omega)

/-- A new log, and the guard of its descriptor. -/
def newLog : Sys := ⟨.durable [], ⟨true, true, 0⟩, some ⟨128 + capOf twoBlocks, 0, 0, fun _ => 0⟩,
  ⟨0, capOf twoBlocks, 0, 0, 0, 0, 0, .idle⟩⟩

theorem ringState_newLog : RingState twoBlocks newLog :=
  .init (Cmd.exec_run (fun _ => .refl) (fun _ => trivial) (exec_fresh sizeOk_twoBlocks (.durable []) ⟨true, true, 0⟩))

theorem no_wrap_iff_newLog : Fits [7] newLog :=
  (no_wrap_iff ringState_newLog (by decide)).mpr (Or.inl (by decide))

/-- A log with one byte. -/
theorem ringState_byte : ∃ s, RingState twoBlocks s ∧ ¬ Emptied s := by
  have hrun : ∃ g t, (beforeCopy [7]).exec newLog = some (some g, t) ∧ [7].length ≤ g.capacity ∧
      ∃ ok u, (copyRecord [7] g).exec t = some (ok, u) ∧ ¬ Emptied u := by
    refine ⟨_, _, rfl, by decide, _, _, rfl, ?_⟩
    rintro (h | ⟨h, -⟩)
    · exact absurd h (by decide)
    · exact absurd h (by decide)
  obtain ⟨g, t, hbefore, hcap, ok, u, hcopy, hu⟩ := hrun
  have hr : Runs (beforeCopy [7]) newLog (some g) t := Cmd.exec_run (fun _ => .refl) (fun _ => trivial) hbefore
  have hr' : Runs (copyRecord [7] g) t ok u := Cmd.exec_run (fun _ => .refl) (fun _ => trivial) hcopy
  exact ⟨u, ringState_newLog.copied (by decide) hr hcap hr', hu⟩

/-- With one byte in the ring, a record of `2 ^ 64 - 1` bytes gets to the copies. -/
theorem wraps_at_sizeMax : ¬ ∀ s d, RingState twoBlocks s → d.length < 2 ^ 64 → Fits d s := by
  intro hall
  obtain ⟨s, hs, he⟩ := ringState_byte
  have hb := hs.sizeOk.blocks
  have hsmall := hb.small
  obtain ⟨d, hd⟩ : ∃ d : List Byte, d.length = 2 ^ 64 - 1 := ⟨List.replicate (2 ^ 64 - 1) 0, List.length_replicate⟩
  obtain ⟨g, t, hr⟩ := beforeCopy_wraps hb hs.inRing he hd
  have hbefore := beforeCopy_ring (A := AnyReply) (B := AnyReply) (I := fun _ => True) (d := d) hb hs.inRing (by omega)
    fun _ _ => trivial
  obtain ⟨hgcap, -⟩ := (Cmd.wp_run hbefore hr).2.2 g rfl
  have hroom := ((hall s d hs (by omega)).room g t hr).1
  omega

end PmemProgram.Wal
