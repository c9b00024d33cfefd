import PmemProgram.Wal.Reopen

/-!
# The ring under every schedule of the thread

* `ring_invariant` : whatever NVM words and file `aofguard_init` accepts, the ring and the file agree after any calls
  and steps of the thread, and no assertion of `aofguard_write` fails;
* `schedule_independent` : what the calls return, the content of the file, the stored `buf_end` and the length of the
  log do not depend on when the thread makes its steps.
-/

namespace PmemProgram.Wal
open PmemProgram.Lib PmemProgram.Lib.Ring

/-! ## What `aofguard_init` accepts -/

/-- An accepted NVM file holds the log that recovery makes of it. -/
theorem Accepts.holds {cap : Nat} {x : NvmFile} {f : File} (h : Accepts cap x f.data.length) :
    Holds cap x (getFsyncLen x.mixed) (getBufStart x.mixed) (decodeLen cap (getBufStart x.mixed) x.bufEnd)
      (f.data.take (getFsyncLen x.mixed) ++ ringOf cap x) := by
  obtain ⟨hsize, hst, hend, hfl⟩ := h
  have hlen : (f.data.take (getFsyncLen x.mixed)).length = getFsyncLen x.mixed := by
    rw [List.length_take, min_eq_left hfl]
  refine ⟨hsize, hst, ?_, (decodeLen_le hst hend).le, ?_, ?_, fun _ => rfl, ?_, ?_⟩
  · rw [getBufStart_eq]
    exact Nat.dvd_mul_right _ _
  · rw [List.length_append, hlen, ringOf, length_cells]
  · rw [getFsyncLen_eq, Nat.mod_mod]
  · unfold decodeLen
    split_ifs with hle
    · rw [Nat.add_sub_cancel' hle, Nat.mod_eq_of_lt hend]
    · rw [show getBufStart x.mixed + (cap + x.bufEnd - getBufStart x.mixed) = x.bufEnd + cap by omega,
        Nat.add_mod_right, Nat.mod_eq_of_lt hend]
  · rw [List.drop_left' hlen, ringOf]

theorem recover_rejects {cap : Nat} {x : NvmFile} {s : Sys} {I : Sys → Prop} (hc : s.guard.capacity = cap)
    (hx : s.nvm = some x) (hsize : x.size = 128 + cap) (h : ¬ Accepts cap x s.file.data.length) :
    Cmd.wp Ticks (fun _ k => k = 0) I (recover s.file.data.length) (fun ok _ => ok = false) s := by
  unfold recover
  simp only [setGuard, Cmd.wp_bind, Cmd.wp_get, Cmd.wp_modify, Cmd.wp_ite, Cmd.wp_pure, hc, mapped_of_nvm hx]
  exact ⟨fun _ => trivial, fun hst => ⟨fun _ => trivial, fun hend => ⟨fun _ => trivial, fun hfl =>
    absurd ⟨hsize, Nat.lt_of_not_le hst, Nat.lt_of_not_le hend, Nat.le_of_not_lt hfl⟩ h⟩⟩⟩

/-- An `aofguard_init` that trusts the NVM file and succeeds has accepted it. -/
theorem accepts_of_run {nvmSize : Nat} {f : File} {x : NvmFile} {c : Desc} {s : Sys} (hn : SizeOk nvmSize)
    (h : Cmd.Run Ticks (fun _ k => k = 0) (aofguardInit nvmSize false) (.boot f (some x) c) true s) :
    Accepts (capOf nvmSize) x f.data.length := by
  by_contra hacc
  suffices hwp : Cmd.wp Ticks (fun _ k => k = 0) (fun _ => True) (aofguardInit nvmSize false)
      (fun ok _ => ok = false) (.boot f (some x) c) from absurd (Cmd.wp_run hwp h) (by decide)
  refine wp_aofguardInit hn (openNvm_some ?_)
  split_ifs with hsize
  · simp only [setUp, setGuard, Cmd.wp_bind, Cmd.wp_get, Cmd.wp_modify]
    refine Cmd.wp_conseq (recover_rejects
      (s := ⟨f, c, some x, { Aofguard.blank with capacity := capOf nvmSize }⟩) rfl rfl (beq_iff_eq.mp hsize) hacc) ?_
    rintro ok t rfl
    exact rfl
  · rfl

/-- A successful `aofguard_init` starts a guard, whatever the NVM file says; it keeps the file if that is in append
mode. -/
theorem guard_of_init {app dur : Prop} {nvmSize : Nat} {f : File} {nvm : Option NvmFile} {reset : Bool} {c : Desc}
    {s : Sys} (hf : f.data.length < 2 ^ 63) (hdur : dur → f.synced = f.data.length) (happ : app → c.append = true)
    (hw : c.writable = true)
    (hr : Cmd.Run Ticks (fun _ k => k = 0) (aofguardInit nvmSize reset) (.boot f nvm c) true s) :
    ∃ L, Guard False app dur (capOf nvmSize) L s ∧ L.length < 2 ^ 63 := by
  have hn := sizeOk_of_run hr
  by_cases hnew : nvm = none ∨ reset = true
  · exact ⟨_, ((Cmd.wp_run (aofguardInit_fresh hn hnew hw fun ha : app => ⟨hdur, happ ha⟩) hr).2 rfl).1, hf⟩
  · obtain ⟨hsome, rfl⟩ : nvm ≠ none ∧ reset = false := by
      rw [not_or] at hnew
      exact ⟨hnew.1, Bool.eq_false_iff.mpr hnew.2⟩
    obtain ⟨x, rfl⟩ := Option.ne_none_iff_exists'.mp hsome
    have hacc := accepts_of_run hn hr
    have hh := hacc.holds
    have h48 : getFsyncLen x.mixed < 2 ^ 48 := by
      rw [getFsyncLen_eq]
      exact Nat.mod_lt _ (by decide)
    have hlen := decodeLen_le hacc.start hacc.bufEnd
    have htake : (f.data.take (getFsyncLen x.mixed) ++ ringOf (capOf nvmSize) x).take (getFsyncLen x.mixed) =
        f.data.take (getFsyncLen x.mixed) :=
      List.take_left' (by rw [List.length_take, min_eq_left hacc.fsyncLen])
    have hsynced : dur → getFsyncLen x.mixed ≤ f.synced := fun h => hdur h ▸ hacc.fsyncLen
    refine ⟨_, ((Cmd.wp_run (aofguardInit_reopens silent_ticks hn hh hlen h48 hw
      fun ha : app => ⟨hacc.fsyncLen, hsynced, htake.symm, happ ha⟩) hr).2 rfl).1, ?_⟩
    have hsmall := hn.blocks.small
    rw [← hh.split]
    omega

/-! ## The ring -/

/-- The ring and the file agree. -/
structure RingOk (s : Sys) : Prop where
  start_lt : s.guard.start < s.guard.capacity
  start_dvd : blockSize ∣ s.guard.start
  len_le : s.guard.len ≤ s.guard.capacity
  request_le : blockSize * s.guard.blockCount ≤ s.guard.len
  length : s.file.data.length = s.guard.fsyncLen + s.guard.len
  ring : s.file.data.drop s.guard.fsyncLen = cells s.mapped.data s.guard.capacity s.guard.start s.guard.len

theorem Guard.ringOk {err dur : Prop} {cap : Nat} {L : List Byte} {s : Sys} (h : Guard err True dur cap L s) :
    RingOk s := by
  have hdata := h.data
  obtain ⟨fl, st, ln, bc, x, hlive, hx, hh, hbc⟩ := h
  constructor
  · rw [hlive.start, hlive.capacity]
    exact hh.start_lt
  · rw [hlive.start]
    exact hh.start_dvd
  · rw [hlive.len, hlive.capacity]
    exact hh.len_le
  · rw [hlive.len, hlive.blockCount]
    exact hbc
  · rw [hdata, hlive.fsyncLen, hlive.len, hh.split]
  · rw [hdata, hlive.fsyncLen, mapped_of_nvm hx, hlive.capacity, hlive.start, hlive.len, hh.ring]

/-- A guard that `aofguard_init` has accepted on an append-mode file, with any NVM file, after calls and steps of the
thread. A file has less than `2 ^ 63` bytes (`off_t`). -/
inductive Ringed (nvmSize : Nat) : Sys → Prop
  | init {f : File} {nvm : Option NvmFile} {reset : Bool} {c : Desc} {s : Sys} : f.data.length < 2 ^ 63 →
      c.append = true → c.writable = true →
      Cmd.Run Ticks (fun _ k => k = 0) (aofguardInit nvmSize reset) (.boot f nvm c) true s → Ringed nvmSize s
  | tick {s t : Sys} : Ringed nvmSize s → Tick (fun _ k => k = 0) s t → Ringed nvmSize t
  | write {s t : Sys} {d : List Byte} {ok : Bool} : Ringed nvmSize s → d.length < 2 ^ 63 →
      Cmd.Run Ticks (fun _ k => k = 0) (aofguardWrite d) s ok t → t.file.data.length < 2 ^ 63 → Ringed nvmSize t

theorem Ringed.sizeOk {nvmSize : Nat} {s : Sys} (h : Ringed nvmSize s) : SizeOk nvmSize := by
  induction h with
  | init _ _ _ hr => exact sizeOk_of_run hr
  | tick _ _ ih => exact ih
  | write _ _ _ _ ih => exact ih

/-- Every accepted state is a guard of the content of its file. -/
theorem Ringed.guard {nvmSize : Nat} {s : Sys} (h : Ringed nvmSize s) :
    Guard False True False (capOf nvmSize) s.file.data s ∧ s.file.data.length < 2 ^ 63 := by
  have hn := h.sizeOk
  suffices hs : ∃ L, Guard False True False (capOf nvmSize) L s ∧ L.length < 2 ^ 63 by
    obtain ⟨L, hguard, hlen⟩ := hs
    rw [hguard.data]
    exact ⟨hguard, hlen⟩
  induction h with
  | init hf happ hw hr => exact guard_of_init hf False.elim (fun _ => happ) hw hr
  | tick _ ht ih =>
    obtain ⟨L, hguard, hlen⟩ := ih
    exact ⟨L, hguard.ticks (succeed_zero _) (.single ht), hlen⟩
  | write _ hd hr hfile ih =>
    obtain ⟨L, hguard, hlen⟩ := ih
    have hnext := (Cmd.wp_run (aofguardWrite_spec (answers_zero _) (succeed_zero _) hn.blocks hguard hlen hd) hr).1
    exact ⟨_, hnext, hnext.data ▸ hfile⟩

/-- **The ring invariant.** In every accepted state the ring and the file agree, and the next call meets no failing
assertion. -/
theorem ring_invariant {nvmSize : Nat} {s : Sys} (h : Ringed nvmSize s) :
    RingOk s ∧ ∀ d : List Byte, d.length < 2 ^ 63 → ¬ Cmd.Aborts Ticks (fun _ k => k = 0) (aofguardWrite d) s := by
  obtain ⟨hguard, hlen⟩ := h.guard
  refine ⟨hguard.ringOk, fun d hd => ?_⟩
  exact Cmd.wp_not_aborts (aofguardWrite_spec (answers_zero _) (succeed_zero _) h.sizeOk.blocks hguard hlen hd)

/-- Words that nothing has written: the ring starts in the second block and wraps to its fifth byte. -/
theorem ring_invariant_wrapped : ∃ s, Ringed twoBlocks s ∧ RingOk s := by
  let x : NvmFile := ⟨128 + 2 ^ 21, 2 ^ 48, 5, fun _ => 7⟩
  have hacc : Accepts (capOf twoBlocks) x (File.durable [1]).data.length := ⟨rfl, by decide, by decide, by decide⟩
  obtain ⟨t, ht, -⟩ := exec_accepts (c := ⟨true, true, 0⟩) sizeOk_twoBlocks rfl hacc
  have hring : Ringed twoBlocks t := .init (by decide) rfl rfl (exec_runs ht)
  exact ⟨t, hring, (ring_invariant hring).1⟩

/-! ## Schedules -/

/-- What a caller can see of a call. -/
structure Outcome where
  ok : Bool
  data : List Byte
  bufEnd : Nat
  total : Nat

/-- The outcome of a call that has returned `ok` in `s`. -/
def Sys.outcome (s : Sys) (ok : Bool) : Outcome := ⟨ok, s.file.data, s.mapped.bufEnd, s.guard.fsyncLen + s.guard.len⟩

/-- Calls with the buffers `ds` from `s` on and their outcomes, with steps of the thread anywhere. -/
inductive Calls : Sys → List (List Byte) → List Outcome → Prop
  | nil {s : Sys} : Calls s [] []
  | tick {s t : Sys} {ds : List (List Byte)} {os : List Outcome} : Tick (fun _ k => k = 0) s t → Calls t ds os →
      Calls s ds os
  | call {s t : Sys} {d : List Byte} {ds : List (List Byte)} {ok : Bool} {os : List Outcome} : d.length < 2 ^ 63 →
      Cmd.Run Ticks (fun _ k => k = 0) (aofguardWrite d) s ok t → t.file.data.length < 2 ^ 63 → Calls t ds os →
      Calls s (d :: ds) (t.outcome ok :: os)

/-- Which calls are accepted, with `n` bytes in the ring at the start and accepted since. -/
def accepted (cap : Nat) : Nat → List (List Byte) → List Bool
  | _, [] => []
  | n, d :: ds =>
    if n % blockSize + d.length ≤ cap then true :: accepted cap (n + d.length) ds else false :: accepted cap n ds

/-- The outcomes, from the content of the file, the stored `buf_end` and the bytes in the ring. -/
def predict (cap : Nat) : List Byte → Nat → Nat → List (List Byte) → List Outcome
  | _, _, _, [] => []
  | L, e, n, d :: ds =>
    if n % blockSize + d.length ≤ cap then
      ⟨true, L ++ d, (e + d.length) % cap, (L ++ d).length⟩ ::
        predict cap (L ++ d) ((e + d.length) % cap) (n + d.length) ds
    else ⟨false, L, e, L.length⟩ :: predict cap L e n ds

theorem predict_ok (cap : Nat) (L : List Byte) (e n : Nat) (ds : List (List Byte)) :
    (predict cap L e n ds).map Outcome.ok = accepted cap n ds := by
  induction ds generalizing L e n with
  | nil => rfl
  | cons d ds ih =>
    unfold predict accepted
    split_ifs
    · rw [List.map_cons, ih]
    · rw [List.map_cons, ih]

theorem Guard.outcome {err dur : Prop} {cap : Nat} {L : List Byte} {s : Sys} (h : Guard err True dur cap L s)
    (ok : Bool) : s.outcome ok = ⟨ok, L, s.mapped.bufEnd, L.length⟩ := by
  rw [Sys.outcome, h.data, h.length]

/-- The outcomes are the predicted ones; only the part of a block in the ring matters. -/
theorem Calls.predicted {cap n : Nat} {L : List Byte} {s : Sys} {ds : List (List Byte)} {os : List Outcome}
    (h : Calls s ds os) (hb : Blocks cap) (hg : Guard False True False cap L s) (h63 : L.length < 2 ^ 63)
    (hn : n % blockSize = s.guard.len % blockSize) : os = predict cap L s.mapped.bufEnd n ds := by
  induction h generalizing L n with
  | nil => rfl
  | @tick s t ds os ht _ ih =>
    obtain ⟨-, hnvm, -, hlen⟩ := tick_keeps ht
    rw [ih (hg.ticks (succeed_zero _) (.single ht)) h63 (hlen ▸ hn), Sys.mapped, hnvm, Sys.mapped]
  | @call s t d ds ok os hd hr hfile _ ih =>
    obtain ⟨hguard, hadv, hfits, hroom⟩ :=
      Cmd.wp_run (aofguardWrite_spec (answers_zero _) (succeed_zero _) hb hg h63 hd) hr
    have hlen := hadv.len_mod
    have hend := hadv.bufEnd
    have hnext := hguard.outcome ok
    rw [hguard.data] at hfile
    unfold predict
    rw [hn]
    cases ok with
    | true =>
      simp only [if_true] at hguard hlen hend hnext hfile
      rw [if_pos (hfits rfl), hnext, hend]
      congr 1
      rw [← hend]
      exact ih hguard hfile (by rw [hlen, Nat.add_mod, hn, ← Nat.add_mod])
    | false =>
      simp only [Bool.false_eq_true, if_false, Nat.add_zero] at hguard hlen hend hnext hfile
      rw [if_neg fun hle => absurd (hroom id hle) (by decide), hnext, hend]
      congr 1
      rw [← hend]
      exact ih hguard hfile (hn.trans hlen.symm)

/-- **Schedules do not matter.** Two runs of the same calls from one state, with any steps of the thread, have the same
outcomes, and a call is accepted exactly if it fits beside the part of a block that all bytes so far leave. -/
theorem schedule_independent {cap : Nat} {s : Sys} {ds : List (List Byte)} {os₁ os₂ : List Outcome} (hb : Blocks cap)
    (hg : Guard False True False cap s.file.data s) (h63 : s.file.data.length < 2 ^ 63) (h₁ : Calls s ds os₁)
    (h₂ : Calls s ds os₂) : os₁ = os₂ ∧ os₁.map Outcome.ok = accepted cap s.guard.len ds := by
  have hp₁ := h₁.predicted hb hg h63 rfl
  have hp₂ := h₂.predicted hb hg h63 rfl
  exact ⟨hp₁.trans hp₂.symm, by rw [hp₁, predict_ok]⟩

/-- A call right after a record of one block, and the same call after the thread has synced the block: only the second
one credits it. -/
theorem schedule_independent_record : ∃ t u os, Ticks t u ∧ t.guard.semDone = 0 ∧ u.guard.semDone = 1 ∧
    Calls t [[7]] os ∧ Calls u [[7]] os := by
  have hb := sizeOk_twoBlocks.blocks
  obtain ⟨d, hd⟩ : ∃ d : List Byte, d.length = blockSize := ⟨List.replicate blockSize 0, List.length_replicate⟩
  obtain ⟨t, ht, hwrote⟩ := exec_record [] (d := d) (by rw [hd]; decide)
  have hguard := hwrote.block hd
  obtain ⟨happ, hw, hdata⟩ := hwrote.append
  have hopen : Ringed twoBlocks (freshLog []) := .init (by decide) rfl rfl (exec_runs (exec_freshLog []))
  have hring : Ringed twoBlocks t :=
    hopen.write (by rw [hd]; decide) (exec_runs ht) (by rw [hdata, List.nil_append, hd]; decide)
  -- the call without a step of the thread
  obtain ⟨v, hv, hsoon⟩ := exec_aofguardWrite_heard (d := [7]) (exec_handleAfsyncIfFinish_busy (s := t) (by rw [hguard]))
    hb (by rw [hguard]) (by rw [hguard]; exact hb.pos) hw (by rw [hguard]; decide)
  -- the call after a round of it
  obtain ⟨s₁, s₂, h₁, h₂, h₃⟩ := tick_round (s := t) (by rw [hguard]) (by rw [hguard]; decide)
  obtain ⟨r, hheard, hfile, hdesc, hcredited⟩ := exec_round hguard (by decide)
  obtain ⟨u, hu, hlate⟩ := exec_aofguardWrite_heard (d := [7]) hheard hb (by rw [hcredited]) (by rw [hcredited]; decide)
    (hdesc ▸ hw) (by rw [hcredited]; decide)
  have hlen : ∀ w : Sys, w.file.data = t.file.data ++ [7] → w.file.data.length < 2 ^ 63 := fun w hw => by
    rw [hw, hdata, List.length_append, List.nil_append, hd]
    decide
  have hvd : v.file.data = t.file.data ++ [7] := by
    rw [hsoon.file]
    exact (Desc.write_append happ t.file [7]).1
  have hud : u.file.data = t.file.data ++ [7] := by
    rw [hlate.file, Sys.write, hfile, hdesc]
    exact (Desc.write_append happ t.file.syncAll [7]).1
  have hone : Calls t [[7]] [v.outcome true] := .call (by decide) (exec_runs hv) (hlen v hvd) .nil
  have htwo : Calls t.round [[7]] [u.outcome true] := .call (by decide) (exec_runs hu) (hlen u hud) .nil
  have heq := (schedule_independent hb hring.guard.1 hring.guard.2 hone (.tick h₁ (.tick h₂ (.tick h₃ htwo)))).1
  refine ⟨t, t.round, _, .head h₁ (.head h₂ (.single h₃)), by rw [hguard], ?_, hone, heq ▸ htwo⟩
  rw [Sys.round, hguard]

end PmemProgram.Wal
