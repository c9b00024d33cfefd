import PmemProgram.Wal.Schedule

/-!
# Calls that fail

A call of `aofguard_write` may return 0 because a system call or a semaphore operation has failed. `failed_calls` : if
`write` transfers all bytes or none and `sem_post` succeeds, the log is what the calls that returned 1 have appended.
A `write` that transfers a part of the record leaves that part in the file (`short_write_shifts`).
-/

namespace PmemProgram.Wal
open PmemProgram.Lib PmemProgram.Lib.Ring

/-- Calls on a guard whose system calls get the answers `A`, and those of the thread any answers. `L` is the content at
the start followed by the buffers of the calls that returned 1. No call leaves the ring exactly full, and logs stay
below `2 ^ 48` bytes. -/
inductive Appends (nvmSize : Nat) (A : Syscall → Nat → Prop) : Sys → List Byte → Prop
  | start {s : Sys} {L₀ L : List Byte} : Cycles nvmSize L₀ s (.running L) → Appends nvmSize A s L
  | tick {s t : Sys} {L : List Byte} : Appends nvmSize A s L → Tick (fun _ _ => True) s t → Appends nvmSize A t L
  | write {s t : Sys} {L d : List Byte} {ok : Bool} : Appends nvmSize A s L → (L ++ d).length < 2 ^ 48 →
      Cmd.Run (TicksOf fun _ _ => True) A (aofguardWrite d) s ok t → t.guard.len ≠ capOf nvmSize →
      Appends nvmSize A t (if ok = true then L ++ d else L)

/-- An append-mode `aofguard_init` on what a close leaves succeeds and finds the content `L`. -/
def ReopensAs (nvmSize : Nat) (L : List Byte) (s : Sys) : Prop :=
  ∀ t ok c, Cmd.Run (TicksOf fun _ _ => True) (fun _ _ => True) aofguardDeinit s ok t → c.append = true →
    c.writable = true → ∃ u, (aofguardInit nvmSize false).exec (.boot t.file t.nvm c) = some (true, u) ∧ u.file.data = L

/-- The log is `L`: for recovery after a power failure, for an open after a close, and in the file and the ring. -/
structure Consistent (nvmSize : Nat) (L : List Byte) (s : Sys) : Prop where
  crash : Recovers nvmSize L s
  close : ReopensAs nvmSize L s
  ring : s.file.data.drop s.guard.fsyncLen = cells s.mapped.data s.guard.capacity s.guard.start s.guard.len

/-- `write` transfers all bytes, none or fails, and `sem_post` succeeds. Everything else may fail. -/
def Whole (q : Syscall) (k : Nat) : Prop := (q = .write → k ≤ 2) ∧ (q = .semPost → k = 0)

theorem answers_whole : Answers True Whole :=
  ⟨fun herr => absurd trivial herr, fun _ h => h.1 rfl, fun _ h => h.2 rfl⟩

theorem succeed_any : Succeed True fun _ _ => True := fun herr => absurd trivial herr

theorem Appends.sizeOk {nvmSize : Nat} {A : Syscall → Nat → Prop} {s : Sys} {L : List Byte}
    (h : Appends nvmSize A s L) : SizeOk nvmSize := by
  induction h with
  | start h => exact h.sizeOk
  | tick _ _ ih => exact ih
  | write _ _ _ _ ih => exact ih

theorem Guard.fallible {app dur : Prop} {cap : Nat} {L : List Byte} {s : Sys} (h : Guard False app dur cap L s) :
    Guard True app dur cap L s := by
  obtain ⟨fl, st, ln, bc, x, hlive, hx, hh, hbc⟩ := h
  exact ⟨fl, st, ln, bc, x, { hlive with running := fun herr => absurd trivial herr }, hx, hh, hbc⟩

theorem Appends.guard {nvmSize : Nat} {s : Sys} {L : List Byte} (h : Appends nvmSize Whole s L) :
    Guard True True True (capOf nvmSize) L s ∧ s.guard.len ≠ capOf nvmSize ∧ L.length < 2 ^ 48 := by
  have hn := h.sizeOk
  induction h with
  | start h =>
    obtain ⟨hinv, hlen, h48⟩ := h.ok
    exact ⟨hinv.fallible, hlen.ne, h48⟩
  | tick _ ht ih =>
    obtain ⟨hguard, hlen, h48⟩ := ih
    exact ⟨hguard.ticks succeed_any (.single ht), (tick_keeps ht).2.2.2 ▸ hlen, h48⟩
  | @write s t L d ok _ h48 hr hne ih =>
    obtain ⟨hguard, -, h48'⟩ := ih
    rw [List.length_append] at h48
    have hspec := aofguardWrite_spec (d := d) answers_whole succeed_any hn.blocks hguard (by omega) (by omega)
    refine ⟨(Cmd.wp_run hspec hr).1, hne, ?_⟩
    split_ifs
    · rwa [List.length_append]
    · exact h48'

/-- **Failed calls.** After any calls, of which any may fail, the log is what was there followed by the buffers of the
calls that returned 1, unless a `write` has transferred a part of its bytes or `sem_post` has failed. -/
theorem failed_calls {nvmSize : Nat} {s : Sys} {L : List Byte} (h : Appends nvmSize Whole s L) :
    Consistent nvmSize L s := by
  have hn := h.sizeOk
  obtain ⟨hguard, hlen, h48⟩ := h.guard
  refine ⟨hguard.recovers hn h48 hlen, fun t ok c hr happ hw => ?_, hguard.ringOk.ring⟩
  obtain ⟨hnvm, hdata, hsynced⟩ := aofguardDeinit_keeps hr
  obtain ⟨x, fl, st, ln, hx, hh, hl, hs, ht⟩ := hguard.image hlen
  have himage : Image (capOf nvmSize) L (.boot t.file t.nvm c) :=
    ⟨x, fl, st, ln, hnvm.trans hx, hh, hl, hs.trans hsynced, (congrArg (List.take fl) hdata).trans ht⟩
  exact himage.exec hn h48 happ hw

/-- A new log. -/
theorem appends_new (A : Syscall → Nat → Prop) : Appends twoBlocks A ⟨.durable [], ⟨true, true, 0⟩,
    some ⟨128 + capOf twoBlocks, 0, 0, fun _ => 0⟩, ⟨0, capOf twoBlocks, 0, 0, 0, 0, 0, .idle⟩⟩ [] :=
  .start (.init (Or.inl rfl) rfl rfl (by decide) (exec_runs (exec_fresh sizeOk_twoBlocks (.durable []) ⟨true, true, 0⟩)))

/-- The `write` of a record fails, and nothing has happened. -/
theorem failed_calls_write : ∃ s, Appends twoBlocks Whole s [] ∧ Consistent twoBlocks [] s := by
  have hrun : Cmd.Run (TicksOf fun _ _ => True) Whole (aofguardWrite [7, 8]) ⟨.durable [], ⟨true, true, 0⟩,
      some ⟨128 + capOf twoBlocks, 0, 0, fun _ => 0⟩, ⟨0, capOf twoBlocks, 0, 0, 0, 0, 0, .idle⟩⟩ false _ :=
    .loc (.loc (.loc (.ask (n := 1) ⟨by decide, by decide⟩ (.loc .ret))))
  have happ := (appends_new Whole).write (by decide) hrun (by decide)
  exact ⟨_, happ, failed_calls happ⟩

/-- A `write` that transfers one byte of two: the file has a byte that the ring does not have. -/
theorem short_write_shifts : ¬ ∀ s L, Appends twoBlocks (fun _ _ => True) s L → Consistent twoBlocks L s := by
  intro hall
  have hrun : Cmd.Run (TicksOf fun _ _ => True) (fun _ _ => True) (aofguardWrite [7, 8]) ⟨.durable [], ⟨true, true, 0⟩,
      some ⟨128 + capOf twoBlocks, 0, 0, fun _ => 0⟩, ⟨0, capOf twoBlocks, 0, 0, 0, 0, 0, .idle⟩⟩ false _ :=
    .loc (.loc (.loc (.ask (n := 3) trivial (.loc (.act .refl rfl .ret)))))
  have hring := (hall _ _ ((appends_new _).write (by decide) hrun (by decide))).ring
  exact absurd hring (by decide)

end PmemProgram.Wal
