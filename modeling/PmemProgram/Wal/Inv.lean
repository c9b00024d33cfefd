import PmemProgram.Wal.Aofguard

/-!
# The log split between file and ring

* `Holds cap x fl st ln L` : the NVM file `x` says that the log `L` is `fl` synced bytes of the file and `ln` bytes of
  the ring from `st` on;
* `Live err app dur cap F fl st ln bc req s` : a guard with these values, with at most one request of `req` blocks on its
  way through the semaphores and the thread, which may have returned if `err`, and, if `app`, on an append-mode file
  with content `F` (`Kept`), whose first `fl` bytes are on the disk if `dur`; the thread keeps it (`Live.ticks`);
* `Guard err app dur cap L s` : a guard of the log `L`, and `Inv cap L s` : one with a running thread on an append-mode
  file that holds `L`, with the part that is not in the ring on the disk;
* `Reads app dur cap n L s` : the NVM file says `L` with at most `n` bytes in the ring, and, if `app`, the file (and the
  disk, if `dur`) holds the rest;
* `Image cap L s` : what the disk and the NVM must keep of `s` says `L`; a power failure keeps it (`Image.survives`).
-/

namespace PmemProgram.Wal
open PmemProgram.Lib PmemProgram.Lib.Ring

/-! ## The packed words -/

theorem getFsyncLen_eq (w : Nat) : getFsyncLen w = w % 2 ^ 48 := Nat.and_two_pow_sub_one_eq_mod w 48

theorem getBufStart_eq (w : Nat) : getBufStart w = blockSize * (w / 2 ^ 48 % 2 ^ 16) := by
  unfold getBufStart
  rw [Nat.shiftRight_eq_div_pow, show 0xffff = 2 ^ 16 - 1 from rfl, Nat.and_two_pow_sub_one_eq_mod]

theorem makeMixedMeta_eq (fl st : Nat) : makeMixedMeta fl st = st / blockSize % 2 ^ 16 * 2 ^ 48 + fl % 2 ^ 48 := by
  unfold makeMixedMeta
  have hlow : fl &&& 0xffffffffffff = fl % 2 ^ 48 := Nat.and_two_pow_sub_one_eq_mod fl 48
  have hhigh : (st / blockSize) <<< 48 % 2 ^ 64 = (st / blockSize % 2 ^ 16) <<< 48 := by
    rw [Nat.shiftLeft_eq, Nat.shiftLeft_eq, show 2 ^ 64 = 2 ^ 16 * 2 ^ 48 from rfl, Nat.mul_mod_mul_right]
  have hmask : 0xffff000000000000 = (2 ^ 16 - 1) <<< 48 := rfl
  rw [hlow, hhigh, hmask, ← Nat.shiftLeft_and_distrib, Nat.and_two_pow_sub_one_eq_mod, Nat.mod_mod, Nat.or_comm,
    ← Nat.shiftLeft_add_eq_or_of_lt (Nat.mod_lt _ (by decide)), Nat.shiftLeft_eq]

/-- Between 2 and 65536 blocks. -/
def Blocks (cap : Nat) : Prop := ∃ b, 2 ≤ b ∧ b ≤ 65536 ∧ cap = blockSize * b

theorem Blocks.le {cap : Nat} (h : Blocks cap) : blockSize * 2 ≤ cap ∧ cap ≤ blockSize * 65536 := by
  obtain ⟨b, h₁, h₂, rfl⟩ := h
  exact ⟨Nat.mul_le_mul_left _ h₁, Nat.mul_le_mul_left _ h₂⟩

theorem Blocks.pos {cap : Nat} (h : Blocks cap) : 0 < cap := by
  have := h.le
  unfold blockSize at this
  omega

theorem Blocks.small {cap : Nat} (h : Blocks cap) : cap ≤ 2 ^ 36 := by
  have := h.le
  unfold blockSize at this
  omega

theorem Blocks.dvd {cap : Nat} (h : Blocks cap) : blockSize ∣ cap := by
  obtain ⟨b, _, _, rfl⟩ := h
  exact Nat.dvd_mul_right _ _

theorem getFsyncLen_make (fl st : Nat) : getFsyncLen (makeMixedMeta fl st) = fl % 2 ^ 48 := by
  rw [getFsyncLen_eq, makeMixedMeta_eq]
  omega

theorem getBufStart_make {cap fl st : Nat} (hb : Blocks cap) (h : st < cap) (hd : blockSize ∣ st) :
    getBufStart (makeMixedMeta fl st) = st := by
  obtain ⟨q, rfl⟩ := hd
  have hq : q < 2 ^ 16 := by
    have hle := hb.le
    by_contra hq
    have := Nat.mul_le_mul_left blockSize (Nat.le_of_not_lt hq)
    omega
  rw [getBufStart_eq, makeMixedMeta_eq, Nat.mul_div_cancel_left q (by decide)]
  congr 1
  omega

/-- The word of a new guard is a plain length. -/
theorem getBufStart_small {fl : Nat} (h : fl < 2 ^ 48) : getBufStart fl = 0 := by
  rw [getBufStart_eq, Nat.div_eq_of_lt h, Nat.zero_mod, Nat.mul_zero]

/-! ## The log in the NVM file -/

structure Holds (cap : Nat) (x : NvmFile) (fl st ln : Nat) (L : List Byte) : Prop where
  size : x.size = 128 + cap
  start_lt : st < cap
  start_dvd : blockSize ∣ st
  len_le : ln ≤ cap
  split : fl + ln = L.length
  fsyncWord : getFsyncLen x.mixed = fl % 2 ^ 48
  startWord : fl < 2 ^ 48 → getBufStart x.mixed = st
  bufEnd : x.bufEnd = (st + ln) % cap
  ring : cells x.data cap st ln = L.drop fl

theorem Holds.fsyncLen_lt {cap fl st ln n : Nat} {x : NvmFile} {L : List Byte} (h : Holds cap x fl st ln L)
    (hL : L.length < n) : fl < n := by
  have := h.split
  omega

/-- The recovery branch reads back the length, unless the ring is exactly full. -/
theorem decodeLen_end {cap st ln : Nat} (hs : st < cap) (hl : ln ≤ cap) :
    decodeLen cap st ((st + ln) % cap) = if ln = cap then 0 else ln := by
  unfold decodeLen
  rw [ring_end hs hl]
  split_ifs <;> omega

/-- The NVM file says `L`, and so does the file if `app`, and the disk if `dur`. -/
def Reads (app dur : Prop) (cap n : Nat) (L : List Byte) (s : Sys) : Prop :=
  ∃ x fl st ln, s.nvm = some x ∧ Holds cap x fl st ln L ∧ ln ≤ n ∧
    (app → (dur → fl ≤ s.file.synced) ∧ s.file.data.take fl = L.take fl)

/-- What must survive of `s` says `L`. -/
def Image (cap : Nat) (L : List Byte) (s : Sys) : Prop :=
  ∃ x fl st ln, s.nvm = some x ∧ Holds cap x fl st ln L ∧ ln < cap ∧ fl ≤ s.file.synced ∧
    s.file.data.take fl = L.take fl

theorem Reads.mono {app dur : Prop} {cap n n' : Nat} {L : List Byte} {s : Sys} (h : Reads app dur cap n L s)
    (hn : n ≤ n') : Reads app dur cap n' L s := by
  obtain ⟨x, fl, st, ln, hx, hh, hl, hf⟩ := h
  exact ⟨x, fl, st, ln, hx, hh, hl.trans hn, hf⟩

theorem Reads.image {cap n : Nat} {L : List Byte} {s : Sys} (h : Reads True True cap n L s) (hn : n < cap) :
    Image cap L s := by
  obtain ⟨x, fl, st, ln, hx, hh, hl, hf⟩ := h
  exact ⟨x, fl, st, ln, hx, hh, hl.trans_lt hn, (hf trivial).1 trivial, (hf trivial).2⟩

/-- The machine after a power failure or in a new process, with a new descriptor. -/
def Sys.boot (file : File) (nvm : Option NvmFile) (desc : Desc) : Sys := ⟨file, desc, nvm, .blank⟩

theorem File.Survives.take {f f' : File} (h : f.Survives f') {n : Nat} (hn : n ≤ f.synced) :
    f'.data.take n = f.data.take n := by
  have h' := congrArg (List.take n) h.2.2.1
  rwa [List.take_take, List.take_take, min_eq_left hn] at h'

theorem File.onDisk_durable (L : List Byte) : (File.durable L).OnDisk L := ⟨rfl, rfl, rfl⟩

theorem File.OnDisk.survives {L : List Byte} {f g : File} (hf : f.OnDisk L) (h : f.Survives g) : g = .durable L := by
  obtain ⟨h₁, h₂, h₃, h₄, h₅, h₆⟩ := h
  rw [hf.synced] at h₁ h₃
  rw [hf.limit] at h₂
  have hlen : g.data.length = L.length := le_antisymm h₂ h₁
  have hdata : g.data = L := by
    rwa [hf.data, List.take_of_length_le hlen.le, List.take_of_length_le le_rfl] at h₃
  cases g
  simp_all [File.durable]

theorem File.survives_durable {L : List Byte} {f : File} (h : (File.durable L).Survives f) : f = .durable L :=
  (File.onDisk_durable L).survives h

theorem Image.survives {cap : Nat} {L : List Byte} {s : Sys} (h : Image cap L s) {f : File}
    (hf : s.file.Survives f) (c : Desc) : Image cap L (.boot f s.nvm c) := by
  obtain ⟨x, fl, st, ln, hx, hh, hln, hs, ht⟩ := h
  refine ⟨x, fl, st, ln, hx, hh, hln, ?_, ?_⟩
  · change fl ≤ f.synced
    rw [hf.2.2.2.1]
    exact hs.trans hf.1
  · exact (hf.take hs).trans ht

/-! ## The running guard -/

/-- The thread has taken a request and not yet posted. -/
def Afsync.busy : Afsync → Nat
  | syncing _ _ => 1
  | synced => 1
  | _ => 0

/-- The file of an append-mode guard: `F`. If `dur`, its first `fl` bytes are synced, and with them the requested blocks
when the thread is done. -/
structure Kept (dur : Prop) (F : List Byte) (fl req : Nat) (s : Sys) : Prop where
  data : s.file.data = F
  append : s.desc.append = true
  request : fl + blockSize * req ≤ F.length
  synced : dur → fl ≤ s.file.synced
  syncing : dur → ∀ k c, s.guard.thread = .syncing k c → fl + blockSize * req ≤ s.file.intact k c
  done : dur → 0 < s.guard.semDone ∨ s.guard.thread = .synced → fl + blockSize * req ≤ s.file.synced

structure Live (err app dur : Prop) (cap : Nat) (F : List Byte) (fl st ln bc req : Nat) (s : Sys) : Prop where
  capacity : s.guard.capacity = cap
  fsyncLen : s.guard.fsyncLen = fl
  start : s.guard.start = st
  len : s.guard.len = ln
  blockCount : s.guard.blockCount = bc
  writable : s.desc.writable = true
  started : s.guard.thread ≠ .none
  running : ¬ err → s.guard.thread ≠ .exited
  outstanding : s.guard.semStart + s.guard.thread.busy + s.guard.semDone ≤ if req = 0 then 0 else 1
  file : app → Kept dur F fl req s

/-- The thread runs, with answers `B` to its calls. -/
abbrev TicksOf (B : Syscall → Nat → Prop) : Sys → Sys → Prop := Relation.ReflTransGen (Tick B)

/-- The thread runs, and its calls succeed. -/
abbrev Ticks : Sys → Sys → Prop := TicksOf fun _ k => k = 0

/-- Only if `err` a call may fail. -/
def Succeed (err : Prop) (A : Syscall → Nat → Prop) : Prop := ¬ err → ∀ q k, A q k → k = 0

theorem succeed_zero (err : Prop) : Succeed err fun _ k => k = 0 := fun _ _ _ h => h

section
variable {A B : Syscall → Nat → Prop} {s t : Sys}

theorem tick_keeps (h : Tick A s t) :
    t.file.data = s.file.data ∧ t.nvm = s.nvm ∧ t.desc = s.desc ∧ t.guard.len = s.guard.len := by
  cases h with
  | wait => dsimp only; split_ifs <;> exact ⟨rfl, rfl, rfl, rfl⟩
  | sync => split_ifs <;> exact ⟨rfl, rfl, rfl, rfl⟩
  | post => dsimp only; split_ifs <;> exact ⟨rfl, rfl, rfl, rfl⟩

theorem ticks_keep (h : TicksOf B s t) :
    t.file.data = s.file.data ∧ t.nvm = s.nvm ∧ t.desc = s.desc ∧ t.guard.len = s.guard.len := by
  induction h with
  | refl => exact ⟨rfl, rfl, rfl, rfl⟩
  | tail _ hstep ih =>
    obtain ⟨h₁, h₂, h₃, h₄⟩ := tick_keeps hstep
    exact ⟨h₁.trans ih.1, h₂.trans ih.2.1, h₃.trans ih.2.2.1, h₄.trans ih.2.2.2⟩

theorem ticks_synced (h : TicksOf B s t) : s.file.synced ≤ t.file.synced := by
  induction h with
  | refl => exact le_rfl
  | tail _ hstep ih =>
    refine ih.trans ?_
    cases hstep with
    | wait => exact le_rfl
    | sync => split_ifs <;> simp [File.synced_le_sync]
    | post => exact le_rfl

theorem ticks_none (ht : TicksOf B s t) (h : s.guard.thread = .none) : t = s := by
  induction ht with
  | refl => rfl
  | tail _ hstep ih =>
    subst ih
    cases hstep with
    | wait _ h' => rw [h] at h'; cases h'
    | sync _ h' => rw [h] at h'; cases h'
    | post _ h' => rw [h] at h'; cases h'

end

section
variable {err app dur : Prop} {cap fl st ln bc req : Nat} {F : List Byte} {s t : Sys} {B : Syscall → Nat → Prop}

theorem Kept.tick (h : Kept dur F fl req s) (ht : Tick B s t) : Kept dur F fl req t := by
  cases ht with
  | @wait n hn hth hsem =>
    by_cases h0 : n = 0
    · rw [if_pos h0]
      refine ⟨h.data, h.append, h.request, h.synced, ?_, ?_⟩
      · rintro _ k c hk
        cases hk
        exact (h.request.trans_eq (congrArg List.length h.data).symm).trans_eq (s.file.intact_all _).symm
      · rintro hdur (hd | hd)
        · exact h.done hdur (Or.inl hd)
        · cases hd
    · rw [if_neg h0]
      exact ⟨h.data, h.append, h.request, h.synced, by simp, fun hdur hd => h.done hdur (Or.inl (by simpa using hd))⟩
  | @sync n k c hn hth =>
    by_cases h0 : n = 0
    · rw [if_pos h0]
      have hsync : dur → fl + blockSize * req ≤ (s.file.sync k c).synced := by
        intro hdur
        have hreq : fl + blockSize * req ≤ s.file.data.length := h.data ▸ h.request
        exact (le_min (h.syncing hdur k c hth) hreq).trans (le_max_right _ _)
      exact ⟨h.data, h.append, h.request, fun hdur => (h.synced hdur).trans (le_max_left _ _), by simp,
        fun hdur _ => hsync hdur⟩
    · rw [if_neg h0]
      exact ⟨h.data, h.append, h.request, h.synced, by simp, fun hdur hd => h.done hdur (Or.inl (by simpa using hd))⟩
  | @post n hn hth =>
    by_cases h0 : n = 0
    · rw [if_pos h0]
      exact ⟨h.data, h.append, h.request, h.synced, by simp, fun hdur _ => h.done hdur (Or.inr hth)⟩
    · rw [if_neg h0]
      exact ⟨h.data, h.append, h.request, h.synced, by simp, fun hdur hd => h.done hdur (Or.inl (by simpa using hd))⟩

/-- What a step of the thread does to the counts. -/
theorem Tick.counts (ht : Tick B s t) :
    t.guard.semStart + t.guard.thread.busy + t.guard.semDone ≤
      s.guard.semStart + s.guard.thread.busy + s.guard.semDone ∧ t.guard.thread ≠ .none ∧
      (t.guard.thread = .exited → ∃ q k, B q k ∧ k ≠ 0) := by
  cases ht with
  | @wait n hn hth hsem =>
    rw [hth]
    by_cases h0 : n = 0
    · simp only [if_pos h0, Afsync.busy]
      exact ⟨by omega, by simp, by simp⟩
    · simp only [if_neg h0, Afsync.busy]
      exact ⟨by omega, by simp, fun _ => ⟨_, n, hn, h0⟩⟩
  | @sync n k c hn hth =>
    rw [hth]
    by_cases h0 : n = 0
    · simp only [if_pos h0, Afsync.busy]
      exact ⟨by omega, by simp, by simp⟩
    · simp only [if_neg h0, Afsync.busy]
      exact ⟨by omega, by simp, fun _ => ⟨_, n, hn, h0⟩⟩
  | @post n hn hth =>
    rw [hth]
    by_cases h0 : n = 0
    · simp only [if_pos h0, Afsync.busy]
      exact ⟨by omega, by simp, by simp⟩
    · simp only [if_neg h0, Afsync.busy]
      exact ⟨by omega, by simp, fun _ => ⟨_, n, hn, h0⟩⟩

/-- A step of the thread changes only the semaphores, its own state and what is synced. -/
theorem Tick.fields (ht : Tick B s t) : t.guard.capacity = s.guard.capacity ∧ t.guard.fsyncLen = s.guard.fsyncLen ∧
    t.guard.start = s.guard.start ∧ t.guard.blockCount = s.guard.blockCount := by
  cases ht with
  | wait => dsimp only; split_ifs <;> exact ⟨rfl, rfl, rfl, rfl⟩
  | sync => split_ifs <;> exact ⟨rfl, rfl, rfl, rfl⟩
  | post => dsimp only; split_ifs <;> exact ⟨rfl, rfl, rfl, rfl⟩

theorem Live.tick (hB : Succeed err B) (h : Live err app dur cap F fl st ln bc req s) (ht : Tick B s t) :
    Live err app dur cap F fl st ln bc req t ∧ t.nvm = s.nvm := by
  obtain ⟨-, hnvm, hdesc, hlen⟩ := tick_keeps ht
  obtain ⟨hcap, hfl, hst, hbc⟩ := ht.fields
  obtain ⟨hsum, hnone, hexit⟩ := ht.counts
  refine ⟨⟨hcap.trans h.capacity, hfl.trans h.fsyncLen, hst.trans h.start, hlen.trans h.len, hbc.trans h.blockCount,
    by rw [hdesc]; exact h.writable, hnone, fun herr he => ?_, hsum.trans h.outstanding,
    fun happ => (h.file happ).tick ht⟩, hnvm⟩
  obtain ⟨q, k, hk, hne⟩ := hexit he
  exact hne (hB herr q k hk)

theorem Live.ticks (hB : Succeed err B) (h : Live err app dur cap F fl st ln bc req s) (ht : TicksOf B s t) :
    Live err app dur cap F fl st ln bc req t ∧ t.nvm = s.nvm := by
  induction ht with
  | refl => exact ⟨h, rfl⟩
  | tail _ hstep ih =>
    obtain ⟨h₁, h₂⟩ := ih.1.tick hB hstep
    exact ⟨h₁, h₂.trans ih.2⟩

/-- Without a request the thread has nothing to do. -/
theorem Live.quiet (h : Live err app dur cap F fl st ln bc 0 s) (ht : TicksOf B s t) : t = s := by
  have hout : s.guard.semStart + s.guard.thread.busy + s.guard.semDone = 0 := Nat.le_zero.mp h.outstanding
  induction ht with
  | refl => rfl
  | tail _ hstep ih =>
    subst ih
    cases hstep with
    | wait _ hth hsem => omega
    | sync _ hth => rw [hth] at hout; simp [Afsync.busy] at hout
    | post _ hth => rw [hth] at hout; simp [Afsync.busy] at hout

/-- The log and the ring agree, and the file may already hold more. -/
theorem Live.reads {L : List Byte} {x : NvmFile} {ln' : Nat} (h : Live err app dur cap F fl st ln bc req s)
    (hx : s.nvm = some x)
    (hh : Holds cap x fl st ln' L) (hp : L <+: F) : Reads app dur cap ln' L s := by
  refine ⟨x, fl, st, ln', hx, hh, le_rfl, fun happ => ⟨(h.file happ).synced, ?_⟩⟩
  obtain ⟨r, rfl⟩ := hp
  have hle : fl ≤ L.length := by have := hh.split; omega
  rw [(h.file happ).data, List.take_append_of_le_length hle]

end

/-- A guard of the log `L`, whose thread runs unless `err`. -/
def Guard (err app dur : Prop) (cap : Nat) (L : List Byte) (s : Sys) : Prop :=
  ∃ fl st ln bc x, Live err app dur cap L fl st ln bc bc s ∧ s.nvm = some x ∧ Holds cap x fl st ln L ∧ blockSize * bc ≤ ln

/-- A running guard of the log `L`, on an append-mode file that holds it. -/
abbrev Inv (cap : Nat) (L : List Byte) (s : Sys) : Prop := Guard False True True cap L s

section
variable {err app dur : Prop} {cap : Nat} {L : List Byte} {s t : Sys} {B : Syscall → Nat → Prop}

theorem Guard.ticks (hB : Succeed err B) (h : Guard err app dur cap L s) (ht : TicksOf B s t) : Guard err app dur cap L t := by
  obtain ⟨fl, st, ln, bc, x, hlive, hx, hh, hbc⟩ := h
  obtain ⟨hlive', hnvm⟩ := hlive.ticks hB ht
  exact ⟨fl, st, ln, bc, x, hlive', hnvm.trans hx, hh, hbc⟩

theorem Guard.capacity (h : Guard err app dur cap L s) : s.guard.capacity = cap := by
  obtain ⟨fl, st, ln, bc, x, hlive, -⟩ := h
  exact hlive.capacity

theorem Guard.len_le (h : Guard err app dur cap L s) : s.guard.len ≤ cap := by
  obtain ⟨fl, st, ln, bc, x, hlive, -, hh, -⟩ := h
  rw [hlive.len]
  exact hh.len_le

theorem Guard.data (h : Guard err True dur cap L s) : s.file.data = L := by
  obtain ⟨fl, st, ln, bc, x, hlive, -⟩ := h
  exact (hlive.file trivial).data

theorem Guard.reads (h : Guard err app dur cap L s) : Reads app dur cap s.guard.len L s := by
  obtain ⟨fl, st, ln, bc, x, hlive, hx, hh, _⟩ := h
  rw [hlive.len]
  exact hlive.reads hx hh (List.prefix_refl L)

theorem Guard.image (h : Guard err True True cap L s) (hl : s.guard.len ≠ cap) : Image cap L s :=
  h.reads.image (lt_of_le_of_ne h.len_le hl)

end

end PmemProgram.Wal
