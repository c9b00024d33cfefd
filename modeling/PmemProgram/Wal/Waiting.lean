import PmemProgram.Lib.Progress
import PmemProgram.Wal.Posix

/-!
# No call waits for ever

`wait_afsync_done` waits for the thread of its guard.

* `Noted n b g` : the thread runs, `n` requests are in the semaphores and the thread, and the writer has noted `b` blocks;
* `Balanced g` : one request is on its way if blocks are noted, and none otherwise;
* `Noted.finishes` : the thread comes to post `sem_done`, so that a writer that waits can go on (`aofguardWrite_lives`);
* `Tended p w` : the guards of the table are balanced; `tends_openAt`, ... : every call lives and keeps it;
* `calls_return` : in every run, a call can return from wherever it is.
-/

namespace PmemProgram.Wal
open PmemProgram.Lib

/-! ## The requests -/

/-- The thread runs, with `n` requests in the semaphores and the thread, and `b` blocks are noted. -/
structure Noted (n b : Nat) (g : Aofguard) : Prop where
  started : g.thread ≠ .none
  running : g.thread ≠ .exited
  count : g.semStart + g.thread.busy + g.semDone = n
  blocks : g.blockCount = b

/-- A request is on its way if and only if its blocks are noted. -/
def Balanced (g : Aofguard) : Prop := ∃ b, Noted (if b = 0 then 0 else 1) b g

section
variable {n b : Nat} {s t : Sys} {d : List Byte} {L : List Byte}

theorem Noted.tick (h : Noted n b s.guard) (ht : Tick (fun _ k => k = 0) s t) : Noted n b t.guard := by
  obtain ⟨hstarted, hrunning, hcount, hblocks⟩ := h
  cases ht with
  | wait hk hth hsem =>
    rw [if_pos hk]
    rw [hth] at hcount
    refine ⟨by simp, by simp, ?_, hblocks⟩
    simp only [Afsync.busy] at hcount ⊢
    omega
  | sync hk hth =>
    rw [if_pos hk]
    rw [hth] at hcount
    exact ⟨by simp, by simp, hcount, hblocks⟩
  | post hk hth =>
    rw [if_pos hk]
    rw [hth] at hcount
    refine ⟨by simp, by simp, ?_, hblocks⟩
    simp only [Afsync.busy] at hcount ⊢
    omega

theorem Noted.ticks (h : Noted n b s.guard) (ht : Ticks s t) : Noted n b t.guard := by
  induction ht with
  | refl => exact h
  | tail _ hstep ih => exact ih.tick hstep

theorem Balanced.ticks (h : Balanced s.guard) (ht : Ticks s t) : Balanced t.guard := by
  obtain ⟨b, hb⟩ := h
  exact ⟨b, hb.ticks ht⟩

/-- Without a request the thread stays as it is. -/
theorem Noted.quiet (h : Noted 0 b s.guard) (ht : Ticks s t) : t = s := by
  induction ht with
  | refl => rfl
  | tail _ hstep ih =>
    subst ih
    have hcount := h.count
    cases hstep with
    | wait _ hth hsem => omega
    | sync _ hth =>
      rw [hth] at hcount
      simp [Afsync.busy] at hcount
    | post _ hth =>
      rw [hth] at hcount
      simp [Afsync.busy] at hcount

theorem synced_finishes (hth : s.guard.thread = .synced) : ∃ t, Ticks s t ∧ 0 < t.guard.semDone :=
  ⟨_, .single (.post (n := 0) rfl hth), Nat.succ_pos _⟩

theorem syncing_finishes {k c : Nat} (hth : s.guard.thread = .syncing k c) : ∃ t, Ticks s t ∧ 0 < t.guard.semDone := by
  have hstep := Tick.sync (A := fun _ k => k = 0) (n := 0) rfl hth
  have hsynced : ({ s with file := s.file.sync k c, guard := { s.guard with thread := .synced } } : Sys).guard.thread =
    .synced := rfl
  obtain ⟨t, ht, hpos⟩ := synced_finishes hsynced
  exact ⟨t, .head hstep ht, hpos⟩

/-- Three steps of the thread are enough for its request. -/
theorem Noted.finishes (h : Noted 1 b s.guard) : ∃ t, Ticks s t ∧ 0 < t.guard.semDone := by
  have hcount := h.count
  cases hth : s.guard.thread with
  | none => exact absurd hth h.started
  | exited => exact absurd hth h.running
  | synced => exact synced_finishes hth
  | syncing k c => exact syncing_finishes hth
  | idle =>
    by_cases hdone : 0 < s.guard.semDone
    · exact ⟨s, .refl, hdone⟩
    · rw [hth] at hcount
      simp only [Afsync.busy] at hcount
      have hstep := Tick.wait (A := fun _ k => k = 0) (n := 0) rfl hth (by omega)
      have hsyncing : ({ s.guard with
        semStart := s.guard.semStart - 1
        thread := .syncing s.file.data.length s.file.changes.length } : Aofguard).thread =
          .syncing s.file.data.length s.file.changes.length := rfl
      obtain ⟨t, ht, hpos⟩ := syncing_finishes (s := { s with guard := _ }) hsyncing
      exact ⟨t, .head hstep ht, hpos⟩

/-! ## The writer -/

/-- The command lives beside `R`, helped by `H`, and keeps `p` of its guard. -/
abbrev OnGuard {α : Type} (R H : Sys → Sys → Prop) (p : Aofguard → Prop) (c : Cmd Syscall Sys α) : Prop :=
  c.Stays R H (fun _ k => k = 0) fun s => p s.guard

section
variable {R H : Sys → Sys → Prop} {p : Aofguard → Prop}

theorem stays_setGuard {f : Aofguard → Aofguard} (h : ∀ g, p g → p (f g)) : OnGuard R H p (setGuard f) :=
  Cmd.stays_modify fun s => h s.guard

theorem stays_nvmSet64 (hH : ∀ s, H s s) (hp : ∀ s t, p s.guard → R s t → p t.guard) (f : NvmFile → NvmFile) :
    OnGuard R H p (nvmSet64 f) :=
  Cmd.stays_step hH hp fun _ h => h

theorem stays_syscallWrite (hH : ∀ s, H s s) (hp : ∀ s t, p s.guard → R s t → p t.guard) (data : List Byte) :
    OnGuard R H p (syscallWrite data) := by
  refine fun s hs => ⟨⟨0, rfl⟩, fun k _ => Cmd.lives_bind (Cmd.lives_get ?_)⟩
  refine Cmd.lives_ite (fun _ => hs) fun _ => Cmd.lives_stepGet hH fun s₁ hr => ?_
  change p s₁.guard
  exact hp s s₁ hs hr

end

/-- The command lives beside the thread of its guard, when all system calls succeed. -/
abbrev glives {α : Type} (c : Cmd Syscall Sys α) (Q : α → Sys → Prop) (s : Sys) : Prop :=
  Cmd.lives Ticks Ticks (fun _ k => k = 0) c Q s

/-- The command leaves the requests and the notes alone. -/
abbrev LeavesNotes {α : Type} (n b : Nat) (c : Cmd Syscall Sys α) : Prop := OnGuard Ticks Ticks (Noted n b) c

theorem noted_ticks (s t : Sys) (h : Noted n b s.guard) (ht : Ticks s t) : Noted n b t.guard := h.ticks ht

theorem stays_ringBufForward (val addition capacity : Nat) : LeavesNotes n b (ringBufForward val addition capacity) :=
  Cmd.stays_bind (Cmd.stays_check _) fun _ => Cmd.stays_pure _

theorem stays_updateAfterFsync (k : Nat) : LeavesNotes n b (updateAfterFsync k) := by
  refine Cmd.stays_ite (Cmd.stays_pure _) (Cmd.stays_bind (Cmd.stays_get _) fun g => ?_)
  refine Cmd.stays_bind (stays_ringBufForward _ _ _) fun start => Cmd.stays_bind (Cmd.stays_check _) fun _ => ?_
  refine Cmd.stays_bind (Cmd.stays_check _) fun _ => Cmd.stays_bind (stays_setGuard fun g hg => ?_) fun _ =>
    stays_nvmSet64 (fun _ => .refl) noted_ticks _
  exact ⟨hg.started, hg.running, hg.count, hg.blocks⟩

theorem stays_doFsync : LeavesNotes n b doFsync := by
  refine Cmd.stays_bind (Cmd.stays_succeeds ⟨0, rfl⟩) fun ok => Cmd.stays_ite ?_ (Cmd.stays_pure _)
  refine Cmd.stays_bind (Cmd.stays_step (fun _ => .refl) noted_ticks fun _ h => h) fun _ => ?_
  exact Cmd.stays_bind (Cmd.stays_get _) fun len => Cmd.stays_bind (stays_updateAfterFsync _) fun _ => Cmd.stays_pure _

theorem stays_copyToRing (writePos capacity : Nat) (data : List Byte) : LeavesNotes n b (copyToRing writePos capacity data) := by
  have hcopy : ∀ (pos : Nat) (e : List Byte), LeavesNotes n b (nvmMemcpy pos e) := fun pos e =>
    Cmd.stays_pieces (fun _ => .refl) noted_ticks fun _ h => h
  exact Cmd.stays_ite (hcopy _ _) (Cmd.stays_bind (hcopy _ _) fun _ => hcopy _ _)

/-- The request is done, and its blocks are noted no more. -/
theorem creditAfsync_lives (h : Noted 0 b s.guard) : glives creditAfsync (fun _ t => Balanced t.guard) s := by
  refine Cmd.lives_bind (Cmd.lives_get (Cmd.lives_bind (Cmd.lives_conseq (stays_updateAfterFsync _ s h) fun _ t ht => ?_)))
  exact Cmd.lives_bind (Cmd.lives_modify ⟨0, ht.started, ht.running, ht.count, rfl⟩)

/-- `sem_wait` on a request that is done. -/
theorem Noted.taken (h : Noted 1 b s.guard) (hpos : 0 < s.guard.semDone) :
    Noted 0 b { s.guard with semDone := s.guard.semDone - 1 } := by
  have hcount := h.count
  refine ⟨h.started, h.running, ?_, h.blocks⟩
  change s.guard.semStart + s.guard.thread.busy + (s.guard.semDone - 1) = 0
  omega

/-- A request is on its way. -/
theorem Noted.requested (h : Noted (if b = 0 then 0 else 1) b s.guard) (hne : s.guard.blockCount ≠ 0) :
    Noted 1 b s.guard := by
  rwa [if_neg (by rw [← h.blocks]; exact hne)] at h

theorem handleAfsyncIfFinish_lives (h : Balanced s.guard) :
    glives handleAfsyncIfFinish (fun _ t => Balanced t.guard) s := by
  obtain ⟨b, hb⟩ := h
  refine Cmd.lives_bind (Cmd.lives_get (Cmd.lives_ite (fun _ => ⟨b, hb⟩) fun hne => ?_))
  refine Cmd.lives_bind (Cmd.lives_succeeds ⟨0, rfl⟩ fun k hk => Cmd.lives_ite (fun _ => ?_) fun _ => ⟨b, hb⟩)
  refine Cmd.lives_bind (Cmd.lives_stepGet (fun _ => .refl) fun s₁ ht => ?_)
  by_cases hpos : 0 < s₁.guard.semDone
  · rw [if_pos hpos]
    exact Cmd.lives_ite (fun _ => creditAfsync_lives (s := { s₁ with
      guard := { s₁.guard with semDone := s₁.guard.semDone - 1 } }) (((hb.requested hne).ticks ht).taken hpos))
      fun hf => absurd rfl hf
  · rw [if_neg hpos]
    exact Cmd.lives_ite (fun hf => absurd hf Bool.false_ne_true) fun _ => ⟨b, hb.ticks ht⟩

/-- The writer waits for a request that the thread comes to finish. -/
theorem waitAfsyncDone_lives (h : Balanced s.guard) : glives waitAfsyncDone (fun _ t => Balanced t.guard) s := by
  obtain ⟨b, hb⟩ := h
  refine Cmd.lives_bind (Cmd.lives_get (Cmd.lives_ite (fun _ => ⟨b, hb⟩) fun hne => ?_))
  refine Cmd.lives_bind (Cmd.lives_succeeds ⟨0, rfl⟩ fun k hk => Cmd.lives_ite (fun _ => ?_) fun _ => ⟨b, hb⟩)
  have hb₁ := hb.requested hne
  refine Cmd.lives_bind (Cmd.lives_await fun s₁ ht => ⟨?_, fun s₂ hs₂ => ?_⟩)
  · obtain ⟨t, ht', hpos⟩ := (hb₁.ticks ht).finishes
    exact ⟨t, _, ht', if_pos hpos⟩
  · split_ifs at hs₂ with hpos
    cases hs₂
    exact creditAfsync_lives ((hb₁.ticks ht).taken hpos)

theorem makeRoom_lives (h : Balanced s.guard) (len : Nat) : glives (makeRoom len) (fun _ t => Balanced t.guard) s := by
  refine Cmd.lives_bind (Cmd.lives_get (Cmd.lives_ite (fun _ => Cmd.lives_ite (fun _ => h) fun _ => ?_) fun _ => h))
  refine Cmd.lives_bind (Cmd.lives_conseq (waitAfsyncDone_lives h) fun ok t ht => Cmd.lives_ite (fun _ => ?_) fun _ => ht)
  refine Cmd.lives_bind (Cmd.lives_get (Cmd.lives_ite (fun _ => ?_) fun _ => ht))
  obtain ⟨b, hb⟩ := ht
  exact Cmd.lives_conseq (stays_doFsync t hb) fun _ u hu => ⟨b, hu⟩

/-- A new request is posted when its blocks are noted. -/
theorem requestAfsync_lives (h : Balanced s.guard) : glives requestAfsync (fun _ t => Balanced t.guard) s := by
  refine Cmd.lives_bind (Cmd.lives_get (Cmd.lives_ite (fun hfull => ?_) fun _ => h))
  obtain ⟨b, hb⟩ := h
  obtain rfl : b = 0 := hb.blocks.symm.trans hfull.2
  have hpos : s.guard.len / blockSize ≠ 0 := (Nat.div_pos hfull.1 (by decide)).ne'
  have hnoted : Noted 0 (s.guard.len / blockSize) { s.guard with blockCount := s.guard.len / blockSize } :=
    ⟨hb.started, hb.running, hb.count, rfl⟩
  refine Cmd.lives_bind (Cmd.lives_modify (Cmd.lives_bind (Cmd.lives_succeeds ⟨0, rfl⟩ fun k hk => ?_)))
  obtain rfl : k = 0 := hk
  refine Cmd.lives_ite (fun _ => Cmd.lives_bind ?_) fun hf => absurd rfl hf
  refine Cmd.lives_step (fun _ => .refl) fun s₁ ht => ⟨s.guard.len / blockSize, ?_⟩
  obtain rfl := hnoted.quiet ht
  rw [if_neg hpos]
  have hcount := hnoted.count
  refine ⟨hb.started, hb.running, ?_, rfl⟩
  change s.guard.semStart + 1 + s.guard.thread.busy + s.guard.semDone = 1
  dsimp only at hcount
  omega

theorem appendRecord_lives (h : Balanced s.guard) (data : List Byte) :
    glives (appendRecord data) (fun _ t => Balanced t.guard) s := by
  obtain ⟨b, hb⟩ := h
  refine Cmd.lives_bind (Cmd.lives_get (Cmd.lives_bind (Cmd.lives_check fun _ => Cmd.lives_bind ?_)))
  refine Cmd.lives_conseq (stays_syscallWrite (fun _ => .refl) noted_ticks data s hb) fun k t ht =>
    Cmd.lives_ite (fun _ => ?_) fun _ => ⟨b, ht⟩
  refine Cmd.lives_bind (Cmd.lives_conseq (stays_ringBufForward _ _ _ t ht) fun writePos t ht => ?_)
  refine Cmd.lives_bind (Cmd.lives_conseq (stays_copyToRing _ _ _ t ht) fun _ t ht => ?_)
  refine Cmd.lives_bind (Cmd.lives_modify (Cmd.lives_bind (Cmd.lives_check fun _ => ?_)))
  refine Cmd.lives_bind (Cmd.lives_conseq (stays_ringBufForward _ _ _ _ ⟨ht.started, ht.running, ht.count, ht.blocks⟩)
    fun bufEnd t ht => ?_)
  exact Cmd.lives_bind (Cmd.lives_conseq (stays_nvmSet64 (fun _ => .refl) noted_ticks _ t ht) fun _ t ht =>
    requestAfsync_lives ⟨b, ht⟩)

theorem aofguardWrite_lives (h : Balanced s.guard) (data : List Byte) :
    glives (aofguardWrite data) (fun _ t => Balanced t.guard) s := by
  refine Cmd.lives_bind (Cmd.lives_conseq (handleAfsyncIfFinish_lives h) fun ok t ht => Cmd.lives_ite (fun _ => ?_) fun _ => ht)
  refine Cmd.lives_bind (Cmd.lives_conseq (makeRoom_lives ht _) fun ok u hu => Cmd.lives_ite (fun _ => ?_) fun _ => hu)
  exact appendRecord_lives hu data

/-! ## `aofguard_init` and `aofguard_deinit` -/

/-- There is no thread, or one without a request. -/
def Unasked (g : Aofguard) : Prop :=
  g.thread = .none ∨ (g.thread = .idle ∧ g.semStart = 0 ∧ g.semDone = 0 ∧ g.blockCount = 0)

/-- A guard with a thread is balanced. -/
def Awake (g : Aofguard) : Prop := g.thread ≠ .none → Balanced g

theorem Unasked.awake {g : Aofguard} (h : Unasked g) : Awake g := by
  intro hne
  obtain ⟨hth, hstart, hdone, hblocks⟩ := h.resolve_left hne
  exact ⟨0, by simp [hth], by simp [hth], by simp [hstart, hdone, hth, Afsync.busy], hblocks⟩

/-- What the environment keeps of such a guard. -/
abbrev KeepsUnasked (s t : Sys) : Prop := Unasked s.guard → Unasked t.guard

abbrev LeavesUnasked {α : Type} (c : Cmd Syscall Sys α) : Prop := OnGuard KeepsUnasked Eq Unasked c

theorem unasked_keeps (s t : Sys) (h : Unasked s.guard) (hr : KeepsUnasked s t) : Unasked t.guard := hr h

/-- Words that no request depends on. -/
theorem Unasked.congr {g g' : Aofguard} (h : Unasked g) (hth : g'.thread = g.thread) (hstart : g'.semStart = g.semStart)
    (hdone : g'.semDone = g.semDone) (hblocks : g'.blockCount = g.blockCount) : Unasked g' := by
  unfold Unasked
  rwa [hth, hstart, hdone, hblocks]

theorem stays_openNvm (n : Nat) : LeavesUnasked (openNvm n) := by
  refine Cmd.stays_bind (Cmd.stays_get _) fun nvm => ?_
  cases nvm with
  | some x =>
    refine Cmd.stays_bind (Cmd.stays_succeeds ⟨0, rfl⟩) fun opened => ?_
    exact Cmd.stays_bind (Cmd.stays_succeeds ⟨0, rfl⟩) fun fstat => Cmd.stays_pure _
  | none =>
    have hstep : ∀ f : Option NvmFile → Option NvmFile,
        LeavesUnasked (.step fun s => { s with nvm := f s.nvm }) :=
      fun f => Cmd.stays_step Eq.refl unasked_keeps fun _ h => h
    refine Cmd.stays_bind (Cmd.stays_succeeds ⟨0, rfl⟩) fun opened => Cmd.stays_ite ?_ (Cmd.stays_pure _)
    refine Cmd.stays_bind (hstep fun _ => _) fun _ => Cmd.stays_bind (Cmd.stays_succeeds ⟨0, rfl⟩) fun ok => ?_
    exact Cmd.stays_ite (Cmd.stays_bind (hstep fun y => y.map _) fun _ => Cmd.stays_pure _) (Cmd.stays_pure _)

theorem stays_rewriteTail : LeavesUnasked rewriteTail := by
  have hwrite := stays_syscallWrite (R := KeepsUnasked) (H := Eq) Eq.refl unasked_keeps
  refine Cmd.stays_bind (Cmd.stays_get _) fun g => Cmd.stays_bind (Cmd.stays_get _) fun nvm => Cmd.stays_ite ?_ ?_
  · exact Cmd.stays_bind (hwrite _) fun k => Cmd.stays_pure _
  · refine Cmd.stays_bind (hwrite _) fun k => Cmd.stays_ite ?_ (Cmd.stays_pure _)
    exact Cmd.stays_bind (hwrite _) fun k => Cmd.stays_pure _

theorem stays_syscallFtruncate (n : Nat) : LeavesUnasked (syscallFtruncate n) := by
  refine Cmd.stays_bind (Cmd.stays_succeeds ⟨0, rfl⟩) fun ok => Cmd.stays_bind (Cmd.stays_get _) fun writable => ?_
  refine Cmd.stays_ite (Cmd.stays_bind ?_ fun _ => Cmd.stays_pure _) (Cmd.stays_pure _)
  exact Cmd.stays_step Eq.refl unasked_keeps fun _ h => h

theorem stays_recover (size : Nat) : LeavesUnasked (recover size) := by
  refine Cmd.stays_bind (Cmd.stays_get _) fun capacity => Cmd.stays_bind (Cmd.stays_get _) fun nvm => ?_
  refine Cmd.stays_bind (stays_setGuard fun g hg => hg.congr rfl rfl rfl rfl) fun _ => ?_
  refine Cmd.stays_ite (Cmd.stays_pure _) (Cmd.stays_ite (Cmd.stays_pure _) ?_)
  refine Cmd.stays_bind (stays_setGuard fun g hg => hg.congr rfl rfl rfl rfl) fun _ => Cmd.stays_ite (Cmd.stays_pure _) ?_
  refine Cmd.stays_bind (Cmd.stays_ite (stays_syscallFtruncate _) (Cmd.stays_pure _)) fun ok => ?_
  exact Cmd.stays_ite stays_rewriteTail (Cmd.stays_pure _)

theorem stays_resetMeta (size : Nat) : LeavesUnasked (resetMeta size) := by
  have hword : ∀ f, LeavesUnasked (nvmSet64 f) := stays_nvmSet64 Eq.refl unasked_keeps
  refine Cmd.stays_bind (stays_setGuard fun g hg => hg.congr rfl rfl rfl rfl) fun _ => Cmd.stays_bind (hword _) fun _ => ?_
  exact Cmd.stays_bind (hword _) fun _ => Cmd.stays_pure _

/-- The thread starts without a request. -/
theorem stays_startThread : LeavesUnasked startThread := by
  refine fun s hs => Cmd.lives_bind (Cmd.lives_modify ?_)
  have hrest : Unasked { s.guard with blockCount := 0 } := hs.imp id fun h => ⟨h.1, h.2.1, h.2.2.1, rfl⟩
  refine Cmd.lives_bind (Cmd.lives_succeeds ⟨0, rfl⟩ fun _ _ => Cmd.lives_bind (Cmd.lives_succeeds ⟨0, rfl⟩ fun _ _ => ?_))
  refine Cmd.lives_bind (Cmd.lives_succeeds ⟨0, rfl⟩ fun _ _ => Cmd.lives_ite (fun _ => ?_) fun _ => hrest)
  exact Cmd.lives_bind (Cmd.lives_modify (Or.inr ⟨rfl, rfl, rfl, rfl⟩))

theorem stays_aofguardInit (nvmSize : Nat) (reset : Bool) : LeavesUnasked (aofguardInit nvmSize reset) := by
  refine Cmd.stays_ite (Cmd.stays_pure _) (Cmd.stays_ite (Cmd.stays_pure _) ?_)
  refine Cmd.stays_bind (Cmd.stays_get _) fun nvmFileExist => Cmd.stays_bind (stays_openNvm _) fun opened => ?_
  refine Cmd.stays_ite (Cmd.stays_bind (Cmd.stays_succeeds ⟨0, rfl⟩) fun mapped => ?_) (Cmd.stays_pure _)
  refine Cmd.stays_bind (Cmd.stays_succeeds ⟨0, rfl⟩) fun fstat => Cmd.stays_ite ?_ (Cmd.stays_pure _)
  refine Cmd.stays_bind (Cmd.stays_get _) fun size => ?_
  refine Cmd.stays_bind (stays_setGuard fun g hg => hg.congr rfl rfl rfl rfl) fun _ => ?_
  refine Cmd.stays_bind (Cmd.stays_ite (stays_recover _) (stays_resetMeta _)) fun ok => ?_
  exact Cmd.stays_ite stays_startThread (Cmd.stays_pure _)

/-- The thread is cancelled wherever it is. -/
theorem stays_aofguardDeinit {R : Sys → Sys → Prop} (hR : ∀ s t, Awake s.guard → R s t → Awake t.guard) :
    OnGuard R Eq Awake aofguardDeinit := by
  refine Cmd.stays_bind (Cmd.stays_succeeds ⟨0, rfl⟩) fun cancelled => ?_
  refine Cmd.stays_bind (Cmd.stays_succeeds ⟨0, rfl⟩) fun joined => Cmd.stays_ite ?_ (Cmd.stays_pure _)
  refine Cmd.stays_bind (Cmd.stays_stepGet Eq.refl hR fun s hs hne => absurd rfl hne) fun thread => ?_
  exact Cmd.stays_bind (Cmd.stays_check _) fun _ => Cmd.stays_succeeds ⟨0, rfl⟩

end

/-! ## The table -/

/-- What is due of the guard with the key: that it is awake, if it is in the table, and `p` of the one outside it. -/
def Due (p : Aofguard → Prop) (T : Tables) : Option Nat → Aofguard → Prop
  | none, g => p g
  | some k, g => (T.fdTable k).aofguard.isSome → Awake g

def TendedBut (p : Aofguard → Prop) (key : Option Nat) (w : World) : Prop :=
  ∀ key', key' ≠ key → Due p w.tables key' (w.guards key')

def Tended (p : Aofguard → Prop) (w : World) : Prop := ∀ key, Due p w.tables key (w.guards key)

section
variable {cfg : Config} {P : String → Prop} {dur : Prop} {C : Nat → List Byte} {w w' w₀ : World} {fd : Nat} {key : Option Nat}
  {p q : Aofguard → Prop}

/-- What every thread keeps is kept by all. -/
theorem WTicks.guard (hq : ∀ {s t}, Tick (fun _ k => k = 0) s t → q s.guard → q t.guard) (ht : WTicks w w')
    (h : q (w.guards key)) : q (w'.guards key) := by
  induction ht with
  | refl => exact h
  | @tail w₁ w₂ _ hstep ih =>
    obtain @⟨fd, n, s, -, htick⟩ := hstep
    simp only [Port.put, Tables.port]
    by_cases hkey : key = some fd
    · subst hkey
      rw [Function.update_self]
      exact hq htick ih
    · rwa [Function.update_of_ne hkey]

theorem WTicks.guard_none (ht : WTicks w w') : w'.guards none = w.guards none := by
  induction ht with
  | refl => rfl
  | tail _ hstep ih =>
    rw [← ih]
    obtain @⟨fd, n, s, -, -⟩ := hstep
    change Function.update _ (some fd) s.guard none = _
    exact Function.update_of_ne (Option.some_ne_none fd).symm _ _

theorem Awake.tick {s t : Sys} (ht : Tick (fun _ k => k = 0) s t) (h : Awake s.guard) : Awake t.guard := by
  refine fun _ => (h ?_).ticks (.single ht)
  cases ht with
  | wait _ hth => simp [hth]
  | sync _ hth => simp [hth]
  | post _ hth => simp [hth]

/-- A thread without a request does not step. -/
theorem Unasked.tick {s t : Sys} (ht : Tick (fun _ k => k = 0) s t) (h : Unasked s.guard) : Unasked t.guard := by
  cases ht with
  | wait _ hth hsem =>
    rcases h with hnone | ⟨-, hstart, -⟩
    · rw [hth] at hnone
      cases hnone
    · omega
  | sync _ hth => simp [Unasked, hth] at h
  | post _ hth => simp [Unasked, hth] at h

theorem Due.ticks (ht : WTicks w w') (h : Due p w.tables key (w.guards key)) : Due p w'.tables key (w'.guards key) := by
  cases key with
  | none =>
    rw [ht.guard_none]
    exact h
  | some k =>
    rw [ht.tables]
    exact fun hk => ht.guard Awake.tick (h hk)

theorem Tended.ticks (h : Tended p w) (ht : WTicks w w') : Tended p w' := fun key => (h key).ticks ht

theorem TendedBut.ticks (h : TendedBut p key w) (ht : WTicks w w') : TendedBut p key w' := fun key' hne => (h key' hne).ticks ht

theorem Tended.but (h : Tended p w) (key : Option Nat) : TendedBut p key w := fun key' _ => h key'

theorem TendedBut.all (h : TendedBut p key w) (hkey : Due p w.tables key (w.guards key)) : Tended p w := fun key' => by
  by_cases heq : key' = key
  · exact heq ▸ hkey
  · exact h key' heq

theorem TendedBut.put {v : Port} (h : TendedBut p v.key w) (s : Sys) : TendedBut p v.key (v.put s w) := by
  intro key' hne
  have hguard : (v.put s w).guards key' = w.guards key' := Function.update_of_ne hne _ _
  rw [hguard]
  exact h key' hne

/-- The guards are as before, and no entry has a new one. -/
theorem Tended.sub (h : Tended p w) (hguards : w'.guards = w.guards)
    (hsub : ∀ k, (w'.tables.fdTable k).aofguard.isSome → (w.tables.fdTable k).aofguard.isSome) : Tended p w' := by
  intro key
  rw [hguards]
  cases key with
  | none => exact h none
  | some k => exact fun hk => h (some k) (hsub k hk)

theorem Tended.mono (h : Tended p w) (hpq : p (w.guards none) → q (w.guards none)) : Tended q w := by
  intro key
  cases key with
  | none => exact hpq (h none)
  | some k => exact h (some k)

/-- The command lives beside the threads, and keeps the guards tended. -/
abbrev Tends {α : Type} (p : Aofguard → Prop) (c : Cmd Syscall World α) : Prop :=
  c.Stays WTicks WTicks (fun _ k => k = 0) (Tended p)

abbrev wlives {α : Type} (c : Cmd Syscall World α) (Q : α → World → Prop) (w : World) : Prop :=
  Cmd.lives WTicks WTicks (fun _ k => k = 0) c Q w

/-- A command that waits for nobody, on a guard. -/
theorem lives_port {α : Type} {v : Port} {c : Cmd Syscall Sys α}
    (hq : ∀ w w', WTicks w w' → q (w.guards v.key) → q (w'.guards v.key))
    (hc : OnGuard (fun s t => q s.guard → q t.guard) Eq q c) (hbut : TendedBut p v.key w) (hw : q (w.guards v.key)) :
    wlives (v.run c) (fun _ w' => TendedBut p v.key w' ∧ q (w'.guards v.key)) w := by
  refine Cmd.lives_zoom (F := TendedBut p v.key) (fun s w => v.view_put s w) (fun s w hF => hF.put s)
    (fun w w' hF ht => ⟨hF.ticks ht, hq w w' ht⟩) ?_ hbut (hc (v.view w) hw)
  rintro w s - rfl
  exact ⟨w, .refl, rfl⟩

/-! ## The commands -/

theorem tends_step {f : World → World} (h : ∀ w, Tended p w → Tended p (f w)) : Tends p (.step f) :=
  Cmd.stays_step (fun _ => .refl) (fun _ _ hw ht => hw.ticks ht) h

theorem tends_stepGet {α : Type} {f : World → α × World} (h : ∀ w, Tended p w → Tended p (f w).2) : Tends p (.stepGet f) :=
  Cmd.stays_stepGet (fun _ => .refl) (fun _ _ hw ht => hw.ticks ht) h

theorem tends_succeeds (q : Syscall) : Tends p (.succeeds q) := Cmd.stays_succeeds ⟨0, rfl⟩

theorem tends_syscallOpen (place : String) (flags : Flags) (fd : Nat) : Tends p (syscallOpen place flags fd) := by
  refine Cmd.stays_bind (tends_succeeds _) fun ok => Cmd.stays_ite (tends_stepGet fun w hw => ?_) (Cmd.stays_pure _)
  split
  · exact hw.sub rfl fun _ => id
  · split_ifs
    · exact hw.sub rfl fun _ => id
    · exact hw

theorem tends_syscallClose (fd : Nat) : Tends p (syscallClose fd) := by
  refine Cmd.stays_bind (tends_succeeds _) fun ok => Cmd.stays_bind (Cmd.stays_get _) fun ino => ?_
  refine Cmd.stays_ite (Cmd.stays_bind (tends_step fun w hw => ?_) fun _ => Cmd.stays_pure _) (Cmd.stays_pure _)
  exact hw.sub rfl fun _ => id

theorem tends_syscallFsync (fd : Nat) : Tends p (syscallFsync fd) := by
  refine Cmd.stays_bind (tends_succeeds _) fun ok => Cmd.stays_bind (Cmd.stays_get _) fun ino => ?_
  cases ino with
  | none => exact Cmd.stays_pure _
  | some i =>
    refine Cmd.stays_ite (Cmd.stays_bind (tends_step fun w hw => ?_) fun _ => Cmd.stays_pure _) (Cmd.stays_pure _)
    exact hw.sub rfl fun _ => id

theorem tends_nvmExists (q : String) : Tends p (nvmExists q) :=
  Cmd.stays_bind (tends_succeeds _) fun _ => Cmd.stays_bind (Cmd.stays_get _) fun _ => Cmd.stays_pure _

theorem tends_unlinkatNvm (q : String) : Tends p (unlinkatNvm q) := by
  refine Cmd.stays_bind (tends_succeeds _) fun ok => Cmd.stays_ite ?_ (Cmd.stays_pure _)
  exact Cmd.stays_bind (tends_step fun w hw => hw.sub rfl fun _ => id) fun _ => Cmd.stays_pure _

theorem tends_renameatNvm (q r : String) : Tends p (renameatNvm q r) := by
  refine Cmd.stays_bind (tends_succeeds _) fun ok => Cmd.stays_ite ?_ (Cmd.stays_pure _)
  refine Cmd.stays_bind (tends_step fun w hw => hw.sub rfl fun k => ?_) fun _ => Cmd.stays_pure _
  change (((w.tables.moveNvm q r).fdTable k).aofguard.isSome → _)
  unfold Tables.moveNvm
  split_ifs
  · exact id
  · exact id

theorem tends_growTable (fd : Nat) : Tends p (growTable fd) := by
  refine Cmd.stays_bind (Cmd.stays_get _) fun capacity => Cmd.stays_ite ?_ (Cmd.stays_pure _)
  refine Cmd.stays_bind (tends_succeeds _) fun ok => Cmd.stays_ite ?_ (Cmd.stays_pure _)
  refine Cmd.stays_bind (Cmd.stays_modify fun w hw => hw.sub rfl fun k hk => ?_) fun _ => Cmd.stays_pure _
  simp only [Tables.grow] at hk
  split_ifs at hk
  · exact absurd hk Bool.false_ne_true
  · exact hk

/-- An entry that has no new guard. -/
theorem Tended.setEntry (h : Tended p w) {e : Filedes} (he : e.aofguard.isSome → (w.tables.fdTable fd).aofguard.isSome) :
    Tended p { w with tables := w.tables.setEntry fd e } := by
  refine h.sub rfl fun k hk => ?_
  simp only [Tables.setEntry, Function.update_apply] at hk
  split_ifs at hk with heq
  · rw [heq]
    exact he hk
  · exact hk

theorem tends_setName (fd : Nat) (name : String) : Tends p (setName fd name) := by
  refine Cmd.stays_bind (tends_succeeds _) fun ok => Cmd.stays_bind (Cmd.stays_modify fun w hw => ?_) fun _ => Cmd.stays_pure _
  exact hw.setEntry id

theorem tends_dropGuard (fd : Nat) : Tends p (dropGuard fd) := by
  refine fun w hw => Cmd.lives_bind (Cmd.lives_get ?_)
  cases hg : (w.tables.fdTable fd).aofguard with
  | none => exact hw
  | some n =>
    refine Cmd.lives_bind (Cmd.lives_get (Cmd.lives_bind (Cmd.lives_conseq (lives_port (q := Awake)
      (fun _ _ ht => ht.guard Awake.tick) (stays_aofguardDeinit fun _ _ h hr => hr h) (hw.but _)
      (hw (some fd) (by rw [hg]; rfl))) fun ok w' hw' => ?_)))
    have htended : Tended p w' := hw'.1.all fun _ => hw'.2
    exact Cmd.lives_ite (fun _ => Cmd.lives_bind (Cmd.lives_modify (htended.setEntry fun hf => absurd hf Bool.false_ne_true)))
      fun _ => htended

/-- The guard outside the table has no request, if there is one. -/
abbrev Spare (guard : Option NvmIno) (g : Aofguard) : Prop := guard.isSome → Unasked g

theorem lives_newGuard {file : String} (hw : Tended (fun _ => True) w) :
    wlives (newGuard cfg file fd) (fun r => Tended fun g => ∀ guard, r = some guard → Spare guard g) w := by
  refine Cmd.lives_ite (fun _ => ?_) fun _ => hw.mono ?_
  · refine Cmd.lives_bind (Cmd.lives_succeeds ⟨0, rfl⟩ fun _ _ => Cmd.lives_ite (fun _ => ?_) fun _ => hw.mono ?_)
    · refine Cmd.lives_bind (Cmd.lives_modify (Cmd.lives_bind (Cmd.lives_get (Cmd.lives_bind (Cmd.lives_get ?_)))))
      have hbut : TendedBut (fun _ => True) none { w with guards := Function.update w.guards none .blank } := by
        intro key hne
        change Due _ w.tables key (Function.update w.guards none .blank key)
        rw [Function.update_of_ne hne]
        exact hw key
      refine Cmd.lives_bind (Cmd.lives_conseq (lives_port (q := Unasked) (fun _ _ ht => ht.guard Unasked.tick)
        (stays_aofguardInit cfg.nvmSize false) hbut ?_) fun ok w' hw' => ?_)
      · change Unasked (Function.update w.guards none .blank none)
        rw [Function.update_self]
        exact Or.inl rfl
      · have htended : Tended (fun _ => True) w' := hw'.1.all trivial
        exact htended.mono fun _ _ _ _ => hw'.2
    · exact fun _ _ hr => nomatch hr
  · rintro - guard hr hsome
    cases hr
    cases hsome

theorem lives_storeGuard {guard : Option NvmIno} (hw : Tended (Spare guard) w) :
    wlives (storeGuard fd guard) (fun _ => Tended fun _ => True) w := by
  refine Cmd.lives_modify fun key => ?_
  cases key with
  | none => exact trivial
  | some k =>
    change ((w.tables.setEntry fd _).fdTable k).aofguard.isSome → Awake _
    simp only [Tables.setEntry, Function.update_apply]
    by_cases hk : k = fd
    · rw [if_pos hk]
      intro hsome
      rw [if_pos hsome, hk, Function.update_self]
      exact (hw none hsome).awake
    · rw [if_neg hk]
      intro hsome
      have hguard : (if guard.isSome then Function.update w.guards (some fd) (w.guards none) else w.guards) (some k) =
          w.guards (some k) := by
        split_ifs
        · exact Function.update_of_ne (by simpa using hk) _ _
        · rfl
      rw [hguard]
      exact hw (some k) hsome

theorem tends_handleOpen (file : String) (fd : Nat) : Tends (fun _ => True) (handleOpen cfg file fd) := by
  have hany : ∀ {q : Aofguard → Prop} {w}, Tended q w → Tended (fun _ => True) w := fun h => h.mono fun _ => trivial
  refine Cmd.stays_bind (tends_succeeds _) fun fstat => Cmd.stays_ite (fun w hw => ?_) (Cmd.stays_pure _)
  refine Cmd.lives_bind (Cmd.lives_conseq (lives_newGuard hw) fun r w₁ hw₁ => ?_)
  cases r with
  | none => exact hany hw₁
  | some guard =>
    have hready : Tended (Spare guard) w₁ := hw₁.mono fun h => h guard rfl
    refine Cmd.lives_bind (Cmd.lives_conseq (tends_growTable fd w₁ hready) fun grown w₂ hw₂ => ?_)
    refine Cmd.lives_ite (fun _ => ?_) fun _ => hany hw₂
    refine Cmd.lives_bind (Cmd.lives_get (Cmd.lives_bind (Cmd.lives_check fun _ => Cmd.lives_bind ?_)))
    refine Cmd.lives_conseq (tends_setName fd file w₂ hw₂) fun named w₃ hw₃ => Cmd.lives_ite (fun _ => ?_) fun _ => hany hw₃
    refine Cmd.lives_bind (Cmd.lives_conseq (tends_dropGuard fd w₃ hw₃) fun dropped w₄ hw₄ => ?_)
    exact Cmd.lives_ite (fun _ => Cmd.lives_bind (lives_storeGuard hw₄)) fun _ => hany hw₄

theorem tends_openAt (place file : String) (flags : Flags) (fd : Nat) :
    Tends (fun _ => True) (openAt cfg place file flags fd) := by
  refine Cmd.stays_bind (tends_syscallOpen _ _ _) fun opened => Cmd.stays_ite ?_ (Cmd.stays_pure _)
  refine Cmd.stays_bind (tends_handleOpen _ _) fun ok => Cmd.stays_ite (Cmd.stays_pure _) ?_
  exact Cmd.stays_bind (tends_syscallClose _) fun _ => Cmd.stays_pure _

theorem tends_syncCall (fd : Nat) : Tends p (syncCall cfg fd) :=
  Cmd.stays_bind (Cmd.stays_get _) fun _ => Cmd.stays_ite (Cmd.stays_pure _) (tends_syscallFsync _)

theorem tends_close (fd : Nat) : Tends p (close fd) := by
  refine Cmd.stays_bind (Cmd.stays_get _) fun capacity => Cmd.stays_ite ?_ (tends_syscallClose _)
  refine Cmd.stays_bind (Cmd.stays_modify fun w hw => hw.setEntry id) fun _ => Cmd.stays_bind (tends_dropGuard _) fun ok => ?_
  exact Cmd.stays_ite (tends_syscallClose _) (Cmd.stays_pure _)

theorem tends_unlink (file : String) : Tends p (unlink cfg file) := by
  have hcall : Tends p (syscallUnlink file) := by
    refine Cmd.stays_bind (tends_succeeds _) fun ok => Cmd.stays_ite (tends_stepGet fun w hw => ?_) (Cmd.stays_pure _)
    exact hw.sub rfl fun _ => id
  refine Cmd.stays_bind hcall fun ok => Cmd.stays_ite (Cmd.stays_ite ?_ (Cmd.stays_pure _)) (Cmd.stays_pure _)
  refine Cmd.stays_bind (tends_nvmExists _) fun found => Cmd.stays_ite ?_ (Cmd.stays_pure _)
  exact Cmd.stays_bind (tends_unlinkatNvm _) fun _ => Cmd.stays_pure _

/-! ## `rename` -/

theorem tends_forEntries (name : String) {body : Nat → Cmd Syscall World Bool} (hbody : ∀ fd, Tends p (body fd))
    (fds : List Nat) : Tends p (forEntries name body fds) := by
  induction fds with
  | nil => exact Cmd.stays_pure _
  | cons fd fds ih =>
    refine Cmd.stays_bind (Cmd.stays_get _) fun e => Cmd.stays_ite ?_ ih
    exact Cmd.stays_bind (hbody fd) fun ok => Cmd.stays_ite ih (Cmd.stays_pure _)

theorem tends_attachGuard (newpath : String) (fd : Nat) : Tends p (attachGuard cfg newpath fd) := by
  refine Cmd.stays_bind (Cmd.stays_get _) fun e => Cmd.stays_bind (Cmd.stays_check _) fun _ => ?_
  refine Cmd.stays_bind (tends_succeeds _) fun malloc => Cmd.stays_ite (fun w hw => ?_) (Cmd.stays_pure _)
  refine Cmd.lives_bind (Cmd.lives_get (Cmd.lives_bind (Cmd.lives_modify (Cmd.lives_bind (Cmd.lives_get ?_)))))
  refine Cmd.lives_conseq (lives_port (q := Unasked) (p := p) (fun _ _ ht => ht.guard Unasked.tick)
    (stays_aofguardInit cfg.nvmSize true) ?_ ?_) fun ok w' hw' => hw'.1.all fun _ => hw'.2.awake
  · intro key (hne : key ≠ some fd)
    change Due p (w.tables.setEntry fd _) key (Function.update w.guards (some fd) .blank key)
    rw [Function.update_of_ne hne]
    cases key with
    | none => exact hw none
    | some k =>
      intro hk
      simp only [Tables.setEntry, Function.update_of_ne (fun heq => hne (congrArg some heq))] at hk
      exact hw (some k) hk
  · change Unasked (Function.update w.guards (some fd) .blank (some fd))
    rw [Function.update_self]
    exact Or.inl rfl

theorem tends_moveNvm (old new : String) : Tends p (moveNvm cfg old new) := by
  refine Cmd.stays_bind (tends_nvmExists _) fun found => Cmd.stays_ite (tends_renameatNvm _ _) ?_
  exact Cmd.stays_bind (tends_nvmExists _) fun found => Cmd.stays_ite (tends_unlinkatNvm _) (Cmd.stays_pure _)

theorem tends_removeNvm (old : String) : Tends p (removeNvm cfg old) := by
  refine Cmd.stays_bind (tends_nvmExists _) fun found => Cmd.stays_ite ?_ (Cmd.stays_pure _)
  refine Cmd.stays_bind (tends_unlinkatNvm _) fun ok => Cmd.stays_ite ?_ (Cmd.stays_pure _)
  refine Cmd.stays_bind (Cmd.stays_get _) fun capacity => tends_forEntries _ (fun fd => ?_) _
  refine Cmd.stays_bind (Cmd.stays_get _) fun e => Cmd.stays_bind (Cmd.stays_check _) fun _ => tends_dropGuard fd

theorem tends_rename (old new : String) : Tends p (rename cfg old new) := by
  have hcall : Tends p (syscallRename old new) := by
    refine Cmd.stays_bind (tends_succeeds _) fun ok => Cmd.stays_ite (tends_stepGet fun w hw => ?_) (Cmd.stays_pure _)
    refine hw.sub rfl fun k => ?_
    change ((w.tables.moveFile old new).fdTable k).aofguard.isSome → _
    rw [(w.tables.moveFile_rest old new).1]
    exact id
  have hentries : Tends p (renameEntries old new) := by
    refine Cmd.stays_bind (Cmd.stays_get _) fun capacity => ?_
    exact Cmd.stays_bind (tends_forEntries _ (fun fd => tends_setName fd new) _) fun _ => Cmd.stays_pure _
  refine Cmd.stays_bind hcall fun ok => Cmd.stays_ite (Cmd.stays_ite (Cmd.stays_ite ?_ ?_) (Cmd.stays_ite ?_ hentries))
    (Cmd.stays_pure _)
  · exact Cmd.stays_bind (tends_moveNvm _ _) fun ok => Cmd.stays_ite hentries (Cmd.stays_pure _)
  · refine Cmd.stays_bind (Cmd.stays_get _) fun capacity => ?_
    refine Cmd.stays_bind (tends_forEntries _ (fun fd => tends_attachGuard new fd) _) fun ok => ?_
    exact Cmd.stays_ite hentries (Cmd.stays_pure _)
  · exact Cmd.stays_bind (tends_removeNvm _) fun ok => Cmd.stays_ite hentries (Cmd.stays_pure _)

/-! ## `write` -/

/-- The thread of a guard is one of the threads. -/
theorem lift_ticks {n : NvmIno} {s : Sys} (hg : (w.tables.fdTable fd).aofguard = some n)
    (h : Ticks ((w.tables.port fd n (some fd)).view w) s) :
    ∃ w', WTicks w w' ∧ (w.tables.port fd n (some fd)).view w' = s := by
  induction h with
  | refl => exact ⟨w, .refl, rfl⟩
  | tail _ hstep ih =>
    obtain ⟨w₁, ht, rfl⟩ := ih
    rw [← ht.tables] at hg hstep ⊢
    exact ⟨_, ht.tail (.mk hg hstep), Port.view_put _ _ _⟩

theorem lives_write_guarded {i : Nat} {n : NvmIno} {data : List Byte} (h : Sound cfg P dur C w) (hw : Tended p w)
    (hg : w.tables.Guards fd n i) :
    wlives (Port.run ⟨i, n, fd, some fd⟩ (aofguardWrite data)) (fun _ => Tended p) w := by
  have hport := hg.port
  have hguard := h.keeps.guard fd n i hg (by simp)
  obtain ⟨fl, st, ln, bc, x, hlive, -⟩ := hguard
  have hbalanced : Balanced (w.guards (some fd)) := hw (some fd) (by rw [hg.1]; rfl) hlive.started
  have hput : ∀ (s : Sys) (w' : World), w'.tables = w.tables ∧ TendedBut p (some fd) w' →
      (Port.put ⟨i, n, fd, some fd⟩ s w').tables = w.tables ∧ TendedBut p (some fd) (Port.put ⟨i, n, fd, some fd⟩ s w') :=
    fun s w' hF => ⟨hF.1, hF.2.put (v := ⟨i, n, fd, some fd⟩) s⟩
  refine Cmd.lives_conseq (Cmd.lives_zoom (R := Ticks) (H := Ticks) (fun s w => Port.view_put _ s w) hput ?_ ?_
    ⟨rfl, hw.but _⟩ (aofguardWrite_lives (s := Port.view ⟨i, n, fd, some fd⟩ w) hbalanced data)) fun ok w' hw' => ?_
  · rintro w₁ w₂ ⟨htables, hbut⟩ ht
    have hapart : Apart cfg P w.tables w₁.tables ⟨i, n, fd, some fd⟩ := by
      rw [htables]
      exact h.linked.apart_guard hg
    exact ⟨⟨ht.tables.trans htables, hbut.ticks ht⟩, hapart.ticks ht⟩
  · rintro w₁ s ⟨htables, -⟩ hs
    rw [← htables] at hg hport
    rw [← hport] at hs ⊢
    exact lift_ticks hg.1 hs
  · exact hw'.1.2.all fun _ _ => hw'.2

theorem lives_write {data : List Byte} (h : Sound cfg P dur C w) (hw : Tended p w) :
    wlives (write fd data) (fun _ => Tended p) w := by
  refine Cmd.lives_ite (fun _ => hw) fun _ => Cmd.lives_bind (Cmd.lives_get ?_)
  rw [h.linked.entry]
  cases hg : (w.tables.fdTable fd).aofguard with
  | some n =>
    obtain ⟨i, hi⟩ := h.linked.guards hg
    refine Cmd.lives_bind (Cmd.lives_get (Cmd.lives_bind (Cmd.lives_conseq ?_ fun ok w' hw' => hw')))
    rw [hi.port]
    exact lives_write_guarded h hw hi
  | none =>
    refine Cmd.lives_bind (Cmd.lives_get ?_)
    cases w.tables.fds fd with
    | none => exact hw
    | some i =>
      have hkeep : ∀ w w', WTicks w w' → p (w.guards none) → p (w'.guards none) := by
        intro w₁ w₂ ht hp
        rwa [ht.guard_none]
      have hcall := stays_syscallWrite (R := fun s t => p s.guard → p t.guard) (H := Eq) (p := p) Eq.refl
        (fun _ _ hp hr => hr hp) data
      refine Cmd.lives_bind (Cmd.lives_conseq (lives_port (v := ⟨i, ("", 0), fd, none⟩) hkeep hcall (hw.but none) (hw none))
        fun k w' hw' => ?_)
      exact hw'.1.all hw'.2

/-! ## Calls -/

theorem Call.lives {c : Call} (h : Sound cfg P dur C w) (hw : Tended (fun _ => True) w) :
    wlives (c.cmd cfg) (fun _ => Tended fun _ => True) w := by
  cases c with
  | openAt place file flags fd => exact tends_openAt place file flags fd w hw
  | write fd data => exact lives_write h hw
  | fsync fd => exact tends_syncCall fd w hw
  | fdatasync fd => exact tends_syncCall fd w hw
  | close fd => exact tends_close fd w hw
  | unlink file => exact tends_unlink file w hw
  | rename old new => exact tends_rename old new w hw

theorem Call.not_aborts {c : Call} (hn : SizeOk cfg.nvmSize) (hnames : NoCollision cfg P) (h : Sound cfg P dur C w)
    (hok : c.Ok cfg P dur w) : ¬ Cmd.Aborts WTicks (fun _ k => k = 0) (c.cmd cfg) w := by
  cases c with
  | openAt place file flags fd => exact Cmd.wp_not_aborts (openAt_sound hn hnames h hok)
  | write fd data => exact Cmd.wp_not_aborts (write_sound hn h hok)
  | fsync fd => exact Cmd.wp_not_aborts (syncCall_sound h)
  | fdatasync fd => exact Cmd.wp_not_aborts (syncCall_sound h)
  | close fd => exact Cmd.wp_not_aborts (close_sound h hok)
  | unlink file => exact Cmd.wp_not_aborts (unlink_sound hnames h hok)
  | rename old new => exact Cmd.wp_not_aborts (rename_sound hn hnames h hok)

variable {trace : List (Call × Int)}

theorem Intercepted.tended (hn : SizeOk cfg.nvmSize) (hnames : NoCollision cfg P) (h₀ : Initial cfg P False w₀)
    (h : Intercepted cfg P w₀ trace w) : Tended (fun _ => True) w := by
  induction h with
  | start =>
    intro key
    cases key with
    | none => exact trivial
    | some k =>
      intro hk
      rw [h₀.idle.fdTable] at hk
      cases hk
  | thread _ ht ih => exact ih.ticks (.single ht)
  | call hrun _ hr ih =>
    obtain ⟨C, hs, -⟩ := hrun.runs hn hnames h₀.sound
    exact Cmd.lives_run (Call.lives hs ih) hr

/-- **No call waits for ever.** In every run, wherever a call has come to beside the threads, they can go on so that it
returns; and the run goes on after it. -/
theorem calls_return (hn : SizeOk cfg.nvmSize) (hnames : NoCollision cfg P) (h₀ : Initial cfg P False w₀)
    (h : Intercepted cfg P w₀ trace w) {c : Call} (hok : c.Ok cfg P False w) {c' : Cmd Syscall World Int}
    (harr : Cmd.Arrives WTicks (fun _ k => k = 0) (c.cmd cfg) w c' w') :
    ∃ r w'', Cmd.Run WTicks (fun _ k => k = 0) c' w' r w'' ∧ Intercepted cfg P w₀ (trace ++ [(c, r)]) w'' := by
  obtain ⟨C, hs, -⟩ := h.runs hn hnames h₀.sound
  have htrans : ∀ u v w : World, WTicks u v → WTicks v w → WTicks u w := fun _ _ _ => Relation.ReflTransGen.trans
  obtain ⟨r, w'', hr⟩ := Cmd.lives_arrives (fun _ => .refl) (fun _ _ => id) htrans (Call.lives hs (h.tended hn hnames h₀))
    (Call.not_aborts hn hnames hs hok) harr
  exact ⟨r, w'', hr, h.call hok (harr.run htrans hr)⟩

end

/-- A write to a guarded descriptor goes as in `aofguard.c`. -/
theorem exec_write_guarded {w : World} {fd : Nat} {n : NvmIno} {d : List Byte} (hd : d.length ≠ 0)
    (hg : (w.tables.entry fd).aofguard = some n) :
    ((Call.write fd d).cmd logConfig).exec w =
      ((aofguardWrite d).exec ((w.tables.port fd n (some fd)).view w)).map fun r =>
        (if r.1 then (d.length : Int) else -1, (w.tables.port fd n (some fd)).put r.2 w) := by
  have hzoom := Cmd.exec_zoom (w.tables.port fd n (some fd)).view_put
    (fun s t w' => by simp [Port.put]) (w.tables.port fd n (some fd)).put_view (aofguardWrite d) w
  have hwrite : ((Call.write fd d).cmd logConfig).exec w = (write fd d).exec w := rfl
  rw [hwrite]
  simp only [write, if_neg hd, Cmd.exec_bind, Cmd.exec_get, Option.bind_some, hg, Port.run, hzoom, Cmd.exec_pure]
  cases (aofguardWrite d).exec ((w.tables.port fd n (some fd)).view w) <;> rfl

/-- A record that does not fit beside the blocks of a request waits for it. -/
theorem exec_aofguardWrite_waits {s : Sys} {d : List Byte} {cap : Nat} (hc : s.guard.capacity = cap)
    (hpos : s.guard.blockCount ≠ 0) (hdone : s.guard.semDone = 0) (hfull : cap < sadd s.guard.len d.length)
    (hfits : sadd (s.guard.len % blockSize) d.length ≤ cap) : (aofguardWrite d).exec s = none := by
  have hwait : waitAfsyncDone.exec s = none := by
    simp [waitAfsyncDone, Cmd.await, Cmd.exec, Cmd.exec_bind, hpos, hdone]
  simp only [aofguardWrite, Cmd.exec_bind, exec_handleAfsyncIfFinish_busy hdone, Option.bind_some, if_true, makeRoom,
    Cmd.exec_ite, Cmd.exec_get, hc, if_pos hfull, if_neg (Nat.not_lt.mpr hfits), hwait, Option.bind_none]

/-- A new log, and a record of a block, the length of the ring being two blocks. -/
theorem written_block {d : List Byte} (hd : d.length = blockSize) : ∃ w,
    Intercepted logConfig (fun _ => True) logWorld [(createLog, 3), (.write 3 d, d.length)] w ∧
      w.tables.fds 3 = some 1 ∧ (w.files 1).data.length = blockSize ∧ ∃ n, (w.tables.entry 3).aofguard = some n ∧
        w.guards (some 3) = ⟨0, capOf twoBlocks, 0, blockSize, 1, 1, 0, .idle⟩ := by
  have htest : ((createLog.cmd logConfig).exec logWorld).any (fun r =>
      r.1 == 3 && r.2.tables.fds 3 == some 1 && (r.2.tables.entry 3).aofguard == some ("m.log.ag", 0) &&
      decide ((r.2.files 1).data = []) && decide (r.2.guards (some 3) = (freshLog []).guard) &&
      decide (r.2.descs 3 = ⟨true, true, 0⟩)) = true := by
    decide +kernel
  obtain ⟨⟨r, w⟩, hr, htest⟩ := (Option.any_eq_true _ _).mp htest
  simp only [Bool.and_eq_true, beq_iff_eq, decide_eq_true_eq] at htest
  obtain ⟨⟨⟨⟨⟨rfl, hfd⟩, hentry⟩, hempty⟩, hguard⟩, hdesc⟩ := htest
  have hcreate : createLog.Ok logConfig (fun _ => True) False logWorld :=
    ⟨rfl, trivial, rfl, fun _ => ⟨rfl, rfl, rfl⟩, by simp [logWorld]⟩
  have hok : (Call.write 3 d).Ok logConfig (fun _ => True) False w := by
    rintro m i ⟨-, hi⟩
    obtain rfl : 1 = i := Option.some.inj (hfd.symm.trans hi)
    rw [hempty, hd]
    decide
  obtain ⟨v, hv⟩ : ∃ v, v = w.tables.port 3 ("m.log.ag", 0) (some 3) := ⟨_, rfl⟩
  have hino : v.ino = 1 := by
    rw [hv]
    simp [Tables.port, hfd]
  have hkey : v.key = some 3 := by
    rw [hv]
    rfl
  have hview : (v.view w).guard = (freshLog []).guard := by
    rw [← hguard]
    exact congrArg w.guards hkey
  have hdesc' : (v.view w).desc = ⟨true, true, 0⟩ := by
    rw [← hdesc, hv]
    rfl
  obtain ⟨t, ht, hwrote⟩ := exec_aofguardWrite (s := v.view w) (d := d) sizeOk_twoBlocks.blocks (by rw [hview]; rfl)
    (by rw [hview]; exact sizeOk_twoBlocks.blocks.pos) (by rw [hdesc']) (by rw [hview]; rfl) (by rw [hview, hd]; decide)
  have hexec : ((Call.write 3 d).cmd logConfig).exec w = some ((d.length : Int), v.put t w) := by
    rw [exec_write_guarded (by rw [hd]; decide) hentry, ← hv, ht]
    rfl
  have hdata : t.file.data = d := by
    rw [hwrote.file]
    refine (Desc.write_append (by rw [hdesc']) (v.view w).file d).1.trans ?_
    change (w.files v.ino).data ++ d = d
    rw [hino, hempty, List.nil_append]
  refine ⟨v.put t w, (Intercepted.start.call hcreate (exec_calls hr)).call hok (exec_calls hexec), hfd, ?_, _, hentry, ?_⟩
  · simp [Port.put, hino, hdata, hd]
  · simp only [Port.put, hkey, Function.update_self]
    rw [hwrote.guard, hview, hd]
    simp [freshLog, Aofguard.posted, show blockSize / blockSize = 1 by decide]

/-- A second record waits for the `fdatasync` of the first one, and returns once the thread has done it. -/
theorem calls_return_waiting : ∃ (d e : List Byte) (w w' : World) (c' : Cmd Syscall World Int),
    Intercepted logConfig (fun _ => True) logWorld [(createLog, 3), (.write 3 d, d.length)] w ∧
      Cmd.Arrives WTicks (fun _ k => k = 0) ((Call.write 3 e).cmd logConfig) w c' w' ∧ c'.exec w' = none ∧
      ∃ r w'', Cmd.Run WTicks (fun _ k => k = 0) c' w' r w'' ∧
        Intercepted logConfig (fun _ => True) logWorld [(createLog, 3), (.write 3 d, d.length), (.write 3 e, r)] w'' := by
  obtain ⟨d, hd⟩ : ∃ d : List Byte, d.length = blockSize := ⟨List.replicate blockSize 0, List.length_replicate⟩
  obtain ⟨e, he⟩ : ∃ e : List Byte, e.length = blockSize + 1 := ⟨List.replicate (blockSize + 1) 0, List.length_replicate⟩
  have hinit : Initial logConfig (fun _ => True) False logWorld := { initial_logWorld with durable := False.elim }
  obtain ⟨w, hrun, hfd, hlen, n, hentry, hguard⟩ := written_block hd
  have hok : (Call.write 3 e).Ok logConfig (fun _ => True) False w := by
    rintro m i ⟨-, hi⟩
    obtain rfl : 1 = i := Option.some.inj (hfd.symm.trans hi)
    rw [hlen, he]
    decide
  obtain ⟨C, hs, -⟩ := hrun.runs sizeOk_twoBlocks noCollision_logConfig hinit.sound
  have hstuck : ((Call.write 3 e).cmd logConfig).exec w = none := by
    have hview : ((w.tables.port 3 n (some 3)).view w).guard = _ := hguard
    rw [exec_write_guarded (by rw [he]; decide) hentry, exec_aofguardWrite_waits (congrArg Aofguard.capacity hview)
      (by rw [hview]; decide) (by rw [hview]) (by rw [hview, he]; decide) (by rw [hview, he]; decide)]
    rfl
  obtain ⟨c', w', harr, hwaits⟩ := Cmd.waits_of_exec_none (R := WTicks) (A := fun _ k => k = 0) (fun _ => .refl)
    (fun _ => rfl) hstuck (Call.not_aborts sizeOk_twoBlocks noCollision_logConfig hs hok)
  exact ⟨d, e, w, w', c', hrun, harr, hwaits, calls_return sizeOk_twoBlocks noCollision_logConfig hinit hrun hok harr⟩

end PmemProgram.Wal
