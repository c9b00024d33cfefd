import PmemProgram.Wal.Crash

/-!
# Opening a guarded file again

* `reopen_identity` : closing a guarded file, or a power failure, followed by an open with any flags that allow writing
  leaves the logical log exactly if the flags have `O_APPEND`, or nothing is synced, or the ring is empty (and the
  synced bytes are there): the recovery branch writes the ring at the offset of the new descriptor (`reopen_overwrites`);
* `first_init_crash_safe` : which crash points of the fresh and of the reset branch a later open survives
  (`first_init_lost`).
-/

namespace PmemProgram.Wal
open PmemProgram.Lib PmemProgram.Lib.Ring

/-! ## Guarded files -/

/-- An open with `O_TRUNC`, after the system call. -/
def Sys.truncated (s : Sys) (c : Desc) : Sys := .boot (s.file.truncate 0) s.nvm c

/-- The guarded files that opens with any writable descriptors, with truncation or without, writes, closes and power
failures can produce: with a running guard (`true`), or between two opens (`false`). Logs stay below `2 ^ 48` bytes. -/
inductive Guarded (nvmSize : Nat) : Sys → Bool → Prop
  | create {f : File} {nvm : Option NvmFile} {reset : Bool} {c : Desc} {s : Sys} : nvm = none ∨ reset = true →
      f.data.length < 2 ^ 48 → c.writable = true →
      Cmd.Run Ticks (fun _ k => k = 0) (aofguardInit nvmSize reset) (.boot f nvm c) true s → Guarded nvmSize s true
  | write {s t : Sys} {d : List Byte} {ok : Bool} : Guarded nvmSize s true →
      s.guard.fsyncLen + s.guard.len + d.length < 2 ^ 48 → Cmd.Run Ticks (fun _ k => k = 0) (aofguardWrite d) s ok t →
      Guarded nvmSize t true
  | tick {s t : Sys} : Guarded nvmSize s true → Tick (fun _ k => k = 0) s t → Guarded nvmSize t true
  | close {s t : Sys} {c : Desc} : Guarded nvmSize s true → Cmd.Run Ticks (fun _ k => k = 0) aofguardDeinit s true t →
      c.writable = true → Guarded nvmSize (.boot t.file t.nvm c) false
  | crash {s : Sys} {f : File} {c : Desc} : Guarded nvmSize s true → s.file.Survives f → c.writable = true →
      Guarded nvmSize (.boot f s.nvm c) false
  | crashWrite {s t : Sys} {d : List Byte} {f : File} {c : Desc} : Guarded nvmSize s true →
      s.guard.fsyncLen + s.guard.len + d.length < 2 ^ 48 → Cmd.Crash Ticks (fun _ k => k = 0) (aofguardWrite d) s t →
      t.file.Survives f → c.writable = true → Guarded nvmSize (.boot f t.nvm c) false
  | crashOpen {s t : Sys} {f : File} {c : Desc} : Guarded nvmSize s false →
      Cmd.Crash Ticks (fun _ k => k = 0) (aofguardInit nvmSize false) s t → t.file.Survives f → c.writable = true →
      Guarded nvmSize (.boot f t.nvm c) false
  | reopen {s t : Sys} : Guarded nvmSize s false →
      Cmd.Run Ticks (fun _ k => k = 0) (aofguardInit nvmSize false) s true t → Guarded nvmSize t true
  | truncate {s : Sys} {c : Desc} : Guarded nvmSize s false → c.writable = true → Guarded nvmSize (s.truncated c) false

/-- The NVM file of a guarded file says some log, with a running guard or without. -/
def GuardedInv (cap : Nat) (s : Sys) : Bool → Prop
  | true => ∃ L, Guard False False False cap L s ∧ L.length < 2 ^ 48
  | false => ∃ L, Reads False False cap cap L s ∧ L.length < 2 ^ 48 ∧ s = .boot s.file s.nvm s.desc ∧ s.desc.writable = true

theorem Guard.length {err app dur : Prop} {cap : Nat} {L : List Byte} {s : Sys} (h : Guard err app dur cap L s) :
    s.guard.fsyncLen + s.guard.len = L.length := by
  obtain ⟨fl, st, ln, bc, x, hlive, -, hh, -⟩ := h
  rw [hlive.fsyncLen, hlive.len, hh.split]

/-- `aofguard_deinit` leaves the NVM file and the content of the log file alone. -/
theorem aofguardDeinit_keeps {A B : Syscall → Nat → Prop} {s t : Sys} {ok : Bool}
    (h : Cmd.Run (TicksOf B) A aofguardDeinit s ok t) :
    t.nvm = s.nvm ∧ t.file.data = s.file.data ∧ s.file.synced ≤ t.file.synced := by
  have hmoves : aofguardDeinit.Moves fun s t =>
      t.nvm = s.nvm ∧ t.file.data = s.file.data ∧ s.file.synced ≤ t.file.synced :=
    Cmd.moves_bind (fun _ => trivial) fun _ => Cmd.moves_bind (fun _ => trivial) fun _ => Cmd.moves_ite
      (Cmd.moves_bind (Cmd.moves_stepGet fun _ => ⟨rfl, rfl, le_rfl⟩) fun _ =>
        Cmd.moves_bind (Cmd.moves_check _) fun _ _ => trivial) (Cmd.moves_pure _)
  refine h.moves (fun _ => ⟨rfl, rfl, le_rfl⟩)
    (fun _ _ _ h h' => ⟨h'.1.trans h.1, h'.2.1.trans h.2.1, h.2.2.trans h'.2.2⟩) (fun _ _ ht => ?_) hmoves
  obtain ⟨hdata, hnvm, -⟩ := ticks_keep ht
  exact ⟨hnvm, hdata, ticks_synced ht⟩

theorem exec_aofguardDeinit {app dur : Prop} {cap : Nat} {L : List Byte} {s : Sys} (h : Guard False app dur cap L s) :
    ∃ t, aofguardDeinit.exec s = some (true, t) := by
  obtain ⟨fl, st, ln, bc, x, hlive, -⟩ := h
  refine ⟨{ s with guard := { s.guard with thread := .none } }, ?_⟩
  simp [aofguardDeinit, hlive.running id]

theorem Reads.of_nvm {cap n : Nat} {L : List Byte} {s t : Sys} (h : Reads False False cap n L s) (ht : t.nvm = s.nvm) :
    Reads False False cap n L t := by
  obtain ⟨x, fl, st, ln, hx, hh, hl, -⟩ := h
  exact ⟨x, fl, st, ln, ht.trans hx, hh, hl, False.elim⟩

/-- A ring that is exactly full counts as empty after the open. -/
theorem Reads.notFull {cap : Nat} {L : List Byte} {s : Sys} (hb : Blocks cap) (h : Reads False False cap cap L s) :
    ∃ x fl st ln L', s.nvm = some x ∧ Holds cap x fl st ln L' ∧ ln < cap ∧ L'.length ≤ L.length := by
  obtain ⟨x, fl, st, ln, hx, hh, hl, -⟩ := h
  rcases Nat.lt_or_eq_of_le hl with hlt | rfl
  · exact ⟨x, fl, st, ln, L, hx, hh, hlt, le_rfl⟩
  · exact ⟨x, fl, st, 0, L.take fl, hx, hh.full, hb.pos, List.length_take_le' _ _⟩

theorem Guarded.sizeOk {nvmSize : Nat} {s : Sys} {up : Bool} (h : Guarded nvmSize s up) : SizeOk nvmSize := by
  induction h with
  | create _ _ _ hr => exact sizeOk_of_run hr
  | write _ _ _ ih => exact ih
  | tick _ _ ih => exact ih
  | close _ _ _ ih => exact ih
  | crash _ _ _ ih => exact ih
  | crashWrite _ _ _ _ _ ih => exact ih
  | crashOpen _ _ _ _ ih => exact ih
  | reopen _ _ ih => exact ih
  | truncate _ _ ih => exact ih

section
variable {nvmSize : Nat} {s t : Sys} {d : List Byte} {f : File} {c : Desc}

theorem GuardedInv.write {ok : Bool} (hn : SizeOk nvmSize) (h : GuardedInv (capOf nvmSize) s true)
    (h48 : s.guard.fsyncLen + s.guard.len + d.length < 2 ^ 48)
    (hr : Cmd.Run Ticks (fun _ k => k = 0) (aofguardWrite d) s ok t) : GuardedInv (capOf nvmSize) t true := by
  obtain ⟨L, hguard, -⟩ := h
  rw [hguard.length, ← List.length_append] at h48
  refine ⟨_, Cmd.wp_run (aofguardWrite_appends hn.blocks hguard h48) hr, ?_⟩
  rw [List.length_append] at h48
  split_ifs
  · rwa [List.length_append]
  · omega

theorem GuardedInv.tick (h : GuardedInv (capOf nvmSize) s true) (ht : Tick (fun _ k => k = 0) s t) :
    GuardedInv (capOf nvmSize) t true := by
  obtain ⟨L, hguard, h48⟩ := h
  exact ⟨L, hguard.ticks (succeed_zero _) (.single ht), h48⟩

theorem GuardedInv.close (h : GuardedInv (capOf nvmSize) s true)
    (hr : Cmd.Run Ticks (fun _ k => k = 0) aofguardDeinit s true t) (hw : c.writable = true) :
    GuardedInv (capOf nvmSize) (.boot t.file t.nvm c) false := by
  obtain ⟨L, hguard, h48⟩ := h
  have hnvm := (aofguardDeinit_keeps hr).1
  exact ⟨L, (hguard.reads.mono hguard.len_le).of_nvm hnvm, h48, rfl, hw⟩

theorem GuardedInv.crash (h : GuardedInv (capOf nvmSize) s true) (f : File) (hw : c.writable = true) :
    GuardedInv (capOf nvmSize) (.boot f s.nvm c) false := by
  obtain ⟨L, hguard, h48⟩ := h
  exact ⟨L, (hguard.reads.mono hguard.len_le).of_nvm rfl, h48, rfl, hw⟩

theorem GuardedInv.crashWrite (hn : SizeOk nvmSize) (h : GuardedInv (capOf nvmSize) s true)
    (h48 : s.guard.fsyncLen + s.guard.len + d.length < 2 ^ 48)
    (hc : Cmd.Crash Ticks (fun _ k => k = 0) (aofguardWrite d) s t) (f : File) (hw : c.writable = true) :
    GuardedInv (capOf nvmSize) (.boot f t.nvm c) false := by
  obtain ⟨L, hguard, h48'⟩ := h
  rw [hguard.length, ← List.length_append] at h48
  rcases Cmd.wp_crash (aofguardWrite_appends hn.blocks hguard h48) hc with hi | ⟨hle, hi⟩
  · exact ⟨L, (hi.mono hguard.len_le).of_nvm rfl, h48', rfl, hw⟩
  · exact ⟨_, (hi.mono hle).of_nvm rfl, h48, rfl, hw⟩

theorem GuardedInv.crashOpen (hn : SizeOk nvmSize) (h : GuardedInv (capOf nvmSize) s false)
    (hc : Cmd.Crash Ticks (fun _ k => k = 0) (aofguardInit nvmSize false) s t) (f : File) (hw : c.writable = true) :
    GuardedInv (capOf nvmSize) (.boot f t.nvm c) false := by
  obtain ⟨L, hreads, h48, hboot, hw'⟩ := h
  obtain ⟨x, fl, st, ln, L', hx, hh, hl, hle⟩ := hreads.notFull hn.blocks
  rw [hboot, hx] at hc
  have hi := Cmd.wp_crash (@aofguardInit_reopens False False _ _ _ _ _ _ _ _ _ silent_ticks hn hh hl
    (hh.fsyncLen_lt (hle.trans_lt h48)) hw' False.elim) hc
  exact ⟨L', (hi.mono hl.le).of_nvm rfl, by omega, rfl, hw⟩

theorem GuardedInv.reopen (hn : SizeOk nvmSize) (h : GuardedInv (capOf nvmSize) s false)
    (hr : Cmd.Run Ticks (fun _ k => k = 0) (aofguardInit nvmSize false) s true t) :
    GuardedInv (capOf nvmSize) t true := by
  obtain ⟨L, hreads, h48, hboot, hw'⟩ := h
  obtain ⟨x, fl, st, ln, L', hx, hh, hl, hle⟩ := hreads.notFull hn.blocks
  rw [hboot, hx] at hr
  have hguard := (Cmd.wp_run (@aofguardInit_reopens False False _ _ _ _ _ _ _ _ _ silent_ticks hn hh hl
    (hh.fsyncLen_lt (hle.trans_lt h48)) hw' False.elim) hr).2 rfl
  exact ⟨L', hguard.1, by omega⟩

/-- The words and the ring do not change with the file. -/
theorem GuardedInv.truncate (h : GuardedInv (capOf nvmSize) s false) (hw : c.writable = true) :
    GuardedInv (capOf nvmSize) (s.truncated c) false := by
  obtain ⟨L, hreads, h48, -⟩ := h
  exact ⟨L, hreads.of_nvm rfl, h48, rfl, hw⟩

theorem GuardedInv.create {nvm : Option NvmFile} {reset : Bool} (hn : SizeOk nvmSize) (hnew : nvm = none ∨ reset = true)
    (h48 : f.data.length < 2 ^ 48) (hw : c.writable = true)
    (hr : Cmd.Run Ticks (fun _ k => k = 0) (aofguardInit nvmSize reset) (.boot f nvm c) true t) :
    GuardedInv (capOf nvmSize) t true :=
  ⟨_, ((Cmd.wp_run (aofguardInit_fresh hn hnew hw False.elim) hr).2 rfl).1, h48⟩

end

theorem Guarded.inv {nvmSize : Nat} {s : Sys} {up : Bool} (h : Guarded nvmSize s up) :
    GuardedInv (capOf nvmSize) s up := by
  have hn := h.sizeOk
  induction h with
  | create hnew h48 hw hr => exact .create hn hnew h48 hw hr
  | write _ h48 hr ih => exact ih.write hn h48 hr
  | tick _ ht ih => exact ih.tick ht
  | close _ hr hw ih => exact ih.close hr hw
  | crash _ _ hw ih => exact ih.crash _ hw
  | crashWrite _ h48 hc _ hw ih => exact ih.crashWrite hn h48 hc _ hw
  | crashOpen _ hc _ hw ih => exact ih.crashOpen hn hc _ hw
  | reopen _ hr ih => exact ih.reopen hn hr
  | truncate _ hw ih => exact ih.truncate hw

/-! ## The content after an open -/

/-- The first `fsync_len` bytes of the file followed by the ring. -/
def logicalLog (s : Sys) : List Byte :=
  s.file.data.take s.guard.fsyncLen ++ cells s.mapped.data s.guard.capacity s.guard.start s.guard.len

/-- `aofguard_init` on the file `f` and the NVM file succeeds and leaves the logical log of `s`. -/
def Reopens (nvmSize : Nat) (c : Desc) (s : Sys) (f : File) (nvm : Option NvmFile) : Prop :=
  ∃ u, (aofguardInit nvmSize false).exec (.boot f nvm c) = some (true, u) ∧
    u.file.data.length = s.guard.fsyncLen + s.guard.len ∧ u.file.data = logicalLog s

/-- Where the ring goes does not matter. -/
def InPlace (c : Desc) (s : Sys) : Prop := c.append = true ∨ s.guard.fsyncLen = 0 ∨ s.guard.len = 0

theorem reopens_iff {nvmSize : Nat} {L : List Byte} {s : Sys} {c : Desc} (hn : SizeOk nvmSize)
    (hg : Guard False False False (capOf nvmSize) L s) (h48 : L.length < 2 ^ 48) (hfull : s.guard.len ≠ capOf nvmSize)
    (hw : c.writable = true) (h0 : c.offset = 0) (f : File) :
    Reopens nvmSize c s f s.nvm ↔
      s.guard.fsyncLen ≤ f.data.length ∧ f.data.take s.guard.fsyncLen = s.file.data.take s.guard.fsyncLen ∧
        InPlace c s := by
  have hle := hg.len_le
  obtain ⟨fl, st, ln, bc, x, hlive, hx, hh, -⟩ := hg
  have hl : ln < capOf nvmSize := by rw [hlive.len] at *; omega
  obtain ⟨hfl, hst, hend, hlen⟩ := hh.decode hn.blocks hl (hh.fsyncLen_lt h48)
  have hmapped : s.mapped = x := by rw [Sys.mapped, hx]; rfl
  have hring : ringOf (capOf nvmSize) x = cells x.data (capOf nvmSize) st ln := by rw [ringOf, hst, hlen]
  unfold Reopens logicalLog InPlace
  rw [hmapped, hx, hlive.capacity, hlive.fsyncLen, hlive.start, hlive.len]
  generalize hr : cells x.data (capOf nvmSize) st ln = ring at *
  have hrlen : ring.length = ln := by rw [← hr, length_cells]
  by_cases hacc : fl ≤ f.data.length
  · have haccepts : Accepts (capOf nvmSize) x f.data.length := ⟨hh.size, hst ▸ hh.start_lt, hend, hfl ▸ hacc⟩
    obtain ⟨t, ht, hdata⟩ := exec_accepts (c := c) hn hw haccepts
    rw [hfl, hring] at hdata
    have hex : (∃ u, (aofguardInit nvmSize false).exec (.boot f (some x) c) = some (true, u) ∧
        u.file.data.length = fl + ln ∧ u.file.data = s.file.data.take fl ++ ring) ↔
        t.file.data.length = fl + ln ∧ t.file.data = s.file.data.take fl ++ ring := by
      rw [ht]
      simp
    rw [hex, hdata]
    cases hc : c.append with
    | true =>
      rw [reopened_append hc hacc]
      simp only [List.append_cancel_right_eq, List.length_append, List.length_take, hrlen, min_eq_left hacc, hacc,
        true_and, true_or, and_true]
    | false =>
      rw [reopened_offset hc h0 hacc]
      simp only [List.length_append, List.length_drop, List.length_take, hrlen, min_eq_left hacc, hacc, true_and,
        Bool.false_eq_true, false_or]
      constructor
      · rintro ⟨hlen', hcat⟩
        have hzero : fl = 0 ∨ ln = 0 := by omega
        refine ⟨?_, hzero⟩
        rcases hzero with rfl | rfl
        · rfl
        · obtain rfl := List.eq_nil_of_length_eq_zero hrlen
          simpa using hcat
      · rintro ⟨hcat, rfl | rfl⟩
        · simp
        · obtain rfl := List.eq_nil_of_length_eq_zero hrlen
          simpa using hcat
  · have hrej : ¬ Accepts (capOf nvmSize) x f.data.length := fun h => hacc (hfl ▸ h.fsyncLen)
    obtain ⟨t, ht⟩ := exec_rejects (c := c) hn hrej
    rw [ht]
    simp [hacc]

/-- **Reopening.** After a close, and after a power failure, an open leaves the logical log exactly if the synced bytes
are there and the ring goes behind them. -/
theorem reopen_identity {nvmSize : Nat} {s : Sys} (h : Guarded nvmSize s true)
    (hfull : s.guard.len ≠ s.guard.capacity) {c : Desc} (hw : c.writable = true) (h0 : c.offset = 0) :
    ((∀ t, Cmd.Run Ticks (fun _ k => k = 0) aofguardDeinit s true t → Reopens nvmSize c s t.file t.nvm) ↔
        s.guard.fsyncLen ≤ s.file.data.length ∧ InPlace c s) ∧
      ((∀ f, s.file.Survives f → Reopens nvmSize c s f s.nvm) ↔
        s.guard.fsyncLen ≤ s.file.synced ∧ InPlace c s) := by
  have hn := h.sizeOk
  obtain ⟨L, hg, h48⟩ := h.inv
  rw [hg.capacity] at hfull
  have hiff := reopens_iff hn hg h48 hfull hw h0
  refine ⟨⟨fun hall => ?_, fun hcond t ht => ?_⟩, fun hall => ?_, fun hcond f hf => ?_⟩
  · obtain ⟨t, ht⟩ := exec_aofguardDeinit hg
    have hrun := exec_runs ht
    obtain ⟨hnvm, hdata, -⟩ := aofguardDeinit_keeps hrun
    have hre := hall t hrun
    rw [hnvm, hiff, hdata] at hre
    exact ⟨hre.1, hre.2.2⟩
  · obtain ⟨hnvm, hdata, -⟩ := aofguardDeinit_keeps ht
    rw [hnvm, hiff, hdata]
    exact ⟨hcond.1, rfl, hcond.2⟩
  · -- the failure that leaves only the synced bytes
    have hcut := hall _ s.file.survives_synced
    rw [hiff] at hcut
    exact ⟨hcut.1.trans (List.length_take_le _ _), hcut.2.2⟩
  · rw [hiff]
    exact ⟨hcond.1.trans hf.1, hf.take hcond.1, hcond.2⟩

/-- A file of one byte with one byte in the ring. -/
theorem guarded_record : ∃ s, Guarded twoBlocks s true ∧ Inv (capOf twoBlocks) [1, 2] s ∧ s.guard.fsyncLen = 1 ∧
    s.guard.len = 1 := by
  have hinit := exec_runs (exec_freshLog [1])
  have hopen : Session twoBlocks [1] _ [] := .init (Or.inl rfl) rfl rfl hinit
  obtain ⟨t, ht, hwrote⟩ := exec_record [1] (d := [2]) (by decide)
  have hinv := (hopen.write (exec_runs ht)).inv (by decide)
  have hguarded : Guarded twoBlocks _ true := .create (Or.inl rfl) (by decide) rfl hinit
  have hlen : t.guard.fsyncLen + t.guard.len = 2 := hinv.length
  have hone : t.guard.len = 1 := hwrote.len
  exact ⟨t, hguarded.write (by decide) (exec_runs ht), hinv, by omega, hone⟩

theorem Guard.weaken {app dur : Prop} {cap : Nat} {L : List Byte} {s : Sys} (h : Guard False app dur cap L s) :
    Guard False False False cap L s := by
  obtain ⟨fl, st, ln, bc, x, hlive, hx, hh, hbc⟩ := h
  exact ⟨fl, st, ln, bc, x, ⟨hlive.capacity, hlive.fsyncLen, hlive.start, hlive.len, hlive.blockCount, hlive.writable,
    hlive.started, hlive.running, hlive.outstanding, False.elim⟩, hx, hh, hbc⟩

theorem reopen_identity_append : ∃ s, Guarded twoBlocks s true ∧
    ∀ f, s.file.Survives f → Reopens twoBlocks ⟨true, true, 0⟩ s f s.nvm := by
  obtain ⟨s, hs, hinv, hfl, hl⟩ := guarded_record
  have hne : s.guard.len ≠ s.guard.capacity := by
    rw [hl, hinv.capacity]
    decide
  refine ⟨s, hs, (reopen_identity hs hne (c := ⟨true, true, 0⟩) rfl rfl).2.mpr ⟨?_, Or.inl rfl⟩⟩
  obtain ⟨fl, st, ln, bc, x, hlive, -⟩ := hinv
  rw [hlive.fsyncLen]
  exact (hlive.file trivial).synced trivial

/-- The open with `O_RDWR` writes the ring over the synced byte. -/
theorem reopen_overwrites : ¬ ∀ s, Guarded twoBlocks s true → s.guard.len ≠ s.guard.capacity → ∀ c : Desc,
    c.writable = true → c.offset = 0 →
    ∀ t, Cmd.Run Ticks (fun _ k => k = 0) aofguardDeinit s true t → Reopens twoBlocks c s t.file t.nvm := by
  intro hall
  obtain ⟨s, hs, hinv, hfl, hl⟩ := guarded_record
  have hne : s.guard.len ≠ capOf twoBlocks := by
    rw [hl]
    decide
  obtain ⟨t, ht⟩ := exec_aofguardDeinit hinv
  have hrun := exec_runs ht
  have hre := hall s hs (hinv.capacity ▸ hne) ⟨false, true, 0⟩ rfl rfl t hrun
  rw [(aofguardDeinit_keeps hrun).1,
    reopens_iff sizeOk_twoBlocks hinv.weaken (by decide) hne rfl rfl] at hre
  obtain ⟨-, -, hin⟩ := hre
  rcases hin with hin | hin | hin
  · cases hin
  · omega
  · omega

/-! ## The first open -/

/-- The NVM file `x` describes the content `L`. -/
def Describes (cap : Nat) (x : NvmFile) (L : List Byte) : Prop :=
  Accepts cap x L.length ∧ ringOf cap x = L.drop (getFsyncLen x.mixed)

/-- A power failure at this point of the fresh or reset branch does no harm. -/
def Stage.Harmless (cap : Nat) (L : List Byte) (nvm : Option NvmFile) : Stage → Prop
  | untouched => ∀ x, nvm = some x → Describes cap x L
  | created => False
  | sized => L = []
  | lengthSet => ∀ x, nvm = some x → x.bufEnd = 0

section
variable {nvmSize : Nat} {L : List Byte}

theorem recovers_none {v : Sys} (hn : SizeOk nvmSize) (hf : v.file = .durable L) (hx : v.nvm = none) :
    Recovers nvmSize L v := by
  intro f c hsurv _ _
  rw [hf] at hsurv
  obtain rfl := File.survives_durable hsurv
  rw [hx]
  exact ⟨_, exec_fresh hn _ _, rfl⟩

theorem recovers_some {v : Sys} {x : NvmFile} (hn : SizeOk nvmSize) (hf : v.file = .durable L) (hx : v.nvm = some x) :
    Recovers nvmSize L v ↔ Describes (capOf nvmSize) x L := by
  have hone : ∀ c : Desc, c.append = true → c.writable = true →
      ((∃ t, (aofguardInit nvmSize false).exec (.boot (.durable L) (some x) c) = some (true, t) ∧ t.file.data = L) ↔
        Describes (capOf nvmSize) x L) := by
    intro c happ hw
    unfold Describes
    by_cases hacc : Accepts (capOf nvmSize) x L.length
    · obtain ⟨t, ht, hdata⟩ := exec_accepts (f := .durable L) (c := c) hn hw hacc
      rw [reopened_append (f := .durable L) happ hacc.fsyncLen] at hdata
      rw [ht]
      simp only [Option.some.injEq, Prod.mk.injEq, true_and, exists_eq_left', hacc]
      rw [hdata]
      change L.take _ ++ _ = L ↔ _
      constructor
      · intro h
        have := h.trans (List.take_append_drop (getFsyncLen x.mixed) L).symm
        exact List.append_cancel_left this
      · intro h
        rw [h, List.take_append_drop]
    · obtain ⟨t, ht⟩ := exec_rejects (f := .durable L) (c := c) hn hacc
      rw [ht]
      simp [hacc]
  constructor
  · intro h
    have := h (.durable L) ⟨true, true, 0⟩ (by rw [hf]; exact File.survives_self (.durable L)) rfl rfl
    rw [hx] at this
    exact (hone _ rfl rfl).mp this
  · intro h f c hsurv happ hw
    rw [hf] at hsurv
    obtain rfl := File.survives_durable hsurv
    rw [hx]
    exact (hone c happ hw).mpr h

theorem describes_lengthSet {cap : Nat} {x : NvmFile} (hb : Blocks cap) (hsize : x.size = 128 + cap)
    (h48 : L.length < 2 ^ 48) : Describes cap { x with mixed := L.length } L ↔ x.bufEnd = 0 := by
  have hfl : getFsyncLen L.length = L.length := by
    rw [getFsyncLen_eq]
    omega
  have hst : getBufStart L.length = 0 := by
    rw [getBufStart_eq, Nat.div_eq_of_lt h48, Nat.zero_mod, Nat.mul_zero]
  have hring : ringOf cap { x with mixed := L.length } = cells x.data cap 0 x.bufEnd := by
    simp only [ringOf, hst, decodeLen, Nat.zero_le, if_true, Nat.sub_zero]
  unfold Describes
  rw [hring]
  simp only [hfl, List.drop_length]
  constructor
  · rintro ⟨-, hnil⟩
    simpa using congrArg List.length hnil
  · intro h0
    exact ⟨⟨hsize, hst ▸ hb.pos, h0 ▸ hb.pos, hfl.le⟩, by rw [h0, cells_zero]⟩

theorem describes_sized {cap : Nat} (hb : Blocks cap) :
    Describes cap { NvmFile.empty with size := 128 + cap } L ↔ L = [] := by
  have hfl : getFsyncLen NvmFile.empty.mixed = 0 := by decide
  have hst : getBufStart NvmFile.empty.mixed = 0 := by decide
  have hring : ringOf cap { NvmFile.empty with size := 128 + cap } = [] := by
    simp only [ringOf, hst, decodeLen]
    rfl
  unfold Describes
  rw [hring]
  simp only [hfl, List.drop_zero]
  constructor
  · rintro ⟨-, hnil⟩
    exact hnil.symm
  · intro h0
    exact ⟨⟨rfl, hst ▸ hb.pos, hb.pos, hfl ▸ Nat.zero_le _⟩, h0.symm⟩

end

/-- **The first open.** A power failure inside the fresh or the reset branch finds one of four NVM files, and a later
open brings the content back exactly if that point is harmless. -/
theorem first_init_crash_safe {nvmSize : Nat} {L : List Byte} {nvm : Option NvmFile} {reset : Bool} {c : Desc} {v : Sys}
    (hn : SizeOk nvmSize) (hnew : nvm = none ∨ reset = true) (h48 : L.length < 2 ^ 48) (hw : c.writable = true)
    (hv : Cmd.Crash Ticks (fun _ k => k = 0) (aofguardInit nvmSize reset) (.boot (.durable L) nvm c) v) :
    ∃ p : Stage, v.nvm = p.left (capOf nvmSize) L.length nvm ∧
      (Recovers nvmSize L v ↔ p.Harmless (capOf nvmSize) L nvm) := by
  have hb := hn.blocks
  obtain ⟨hf, p, hp, hx⟩ :=
    Cmd.wp_crash (@aofguardInit_fresh False False nvmSize (.durable L) nvm c reset hn hnew hw False.elim) hv
  refine ⟨p, hx, ?_⟩
  cases p with
  | untouched =>
    cases nvm with
    | none => exact iff_of_true (recovers_none hn hf hx) (by simp [Stage.Harmless])
    | some x =>
      rw [recovers_some hn hf hx]
      simp [Stage.Harmless]
  | created =>
    rw [recovers_some hn hf hx]
    refine iff_of_false (fun h => ?_) id
    have : 0 = 128 + capOf nvmSize := h.1.size
    omega
  | sized =>
    rw [recovers_some hn hf hx]
    exact describes_sized hb
  | lengthSet =>
    rw [recovers_some hn hf hx]
    refine (describes_lengthSet hb hp h48).trans ?_
    cases nvm with
    | none => exact iff_of_true rfl (by simp [Stage.Harmless])
    | some x => simp [base, Stage.Harmless]

theorem images_crashes {α : Type} {c : Cmd Syscall Sys α} {s t : Sys} (h : t ∈ c.images s) :
    Cmd.Crash Ticks (fun _ k => k = 0) c s t :=
  Cmd.images_crash (R := Ticks) (A := fun _ k => k = 0) (fun _ => Relation.ReflTransGen.refl) (fun _ => rfl) h

/-- The power failure right after the NVM file has been created. -/
theorem crash_created {nvmSize : Nat} (hn : SizeOk nvmSize) (f : File) (c : Desc) :
    Cmd.Crash Ticks (fun _ k => k = 0) (aofguardInit nvmSize false) (.boot f none c) (.boot f (some .empty) c) := by
  apply images_crashes
  unfold aofguardInit
  rw [if_neg (Nat.not_lt.mpr hn.1), if_neg (Nat.not_lt.mpr hn.2)]
  simp [openNvm, Sys.boot]

/-- The NVM file is created but has no bytes yet, and the later open says that it is broken. -/
theorem first_init_lost : ¬ ∀ (L : List Byte) (c : Desc) (v : Sys), L.length < 2 ^ 48 → c.writable = true →
    Cmd.Crash Ticks (fun _ k => k = 0) (aofguardInit twoBlocks false) (.boot (.durable L) none c) v →
    Recovers twoBlocks L v := by
  intro hall
  have hrec := hall [1] ⟨true, true, 0⟩ _ (by decide) rfl (crash_created sizeOk_twoBlocks _ _)
  have hsize := ((recovers_some sizeOk_twoBlocks rfl rfl).mp hrec).1.size
  exact absurd hsize (by decide)

theorem first_init_crash_safe_created : ∃ p : Stage,
    some NvmFile.empty = p.left (capOf twoBlocks) 1 none ∧
      (Recovers twoBlocks [1] (.boot (.durable [1]) (some .empty) ⟨true, true, 0⟩) ↔
        p.Harmless (capOf twoBlocks) [1] none) :=
  first_init_crash_safe sizeOk_twoBlocks (Or.inl rfl) (by decide) rfl (crash_created sizeOk_twoBlocks (.durable [1]) _)

end PmemProgram.Wal
