import PmemProgram.Lib.Cmd
import PmemProgram.Cxl.Framing

/-!
# Copying with a DMA engine (`dsa_move.c`)

`dsaMoveData` splits a copy into jobs: full rounds of `job_num` jobs of `block_size` bytes, a partial round, and a job
for the rest. The engine copies the range of a job some time between its submission and a successful wait; until then
the destination may hold anything there (`Drift`).

* `Tiles` : moves that follow each other without a gap; `play` : every job is waited for before it is submitted again;
* `Moving` : the state of a copy with the jobs `a .. b - 1` in flight;
* `dsa_moves_once` : when all submissions and waits succeed, every byte is moved by exactly one job.
-/

namespace PmemProgram.Cxl
open PmemProgram.Lib

/-! ## The engine -/

/-- What a job moves: `source_first_ptr`, `destination_first_ptr` (from the start of either buffer), `source_length`. -/
structure Move where
  source : Nat
  dest : Nat
  length : Nat
  deriving DecidableEq

/-- The calls of `dml` that return a status; `0` is `DML_STATUS_OK`. -/
inductive DsaCall
  | submit (job : Nat)
  | wait (job : Nat)

/-- What has been done with the jobs. -/
inductive DsaEvent
  | submitted (job : Nat) (move : Move)
  | waited (job : Nat)
  | finalized (job : Nat)
  deriving DecidableEq

/-- The two buffers, the jobs in flight, and the calls so far. -/
structure Copy where
  src : Nat → Byte
  dst : Nat → Byte
  flight : Nat → Option Move
  log : List DsaEvent

/-- The destination with the bytes of a move. -/
def Move.apply (m : Move) (src dst : Nat → Byte) : Nat → Byte := fun x =>
  if m.dest ≤ x ∧ x < m.dest + m.length then src (m.source + (x - m.dest)) else dst x

def Copy.submit (v : Copy) (i : Nat) (m : Move) : Copy :=
  { v with flight := Function.update v.flight i (some m), log := v.log ++ [.submitted i m] }

/-- Job `i` is done: its range has been copied. -/
def Copy.complete (v : Copy) (i : Nat) : Copy :=
  { v with
    dst := match v.flight i with
      | some m => m.apply v.src v.dst
      | none => v.dst
    flight := Function.update v.flight i none
    log := v.log ++ [.waited i] }

def Copy.finalize (v : Copy) (i : Nat) : Copy := { v with log := v.log ++ [.finalized i] }

/-- Position `x` of the destination belongs to a job in flight. -/
def Copy.Open (v : Copy) (x : Nat) : Prop := ∃ i m, v.flight i = some m ∧ m.dest ≤ x ∧ x < m.dest + m.length

/-- The engine works on the jobs in flight. -/
structure Drift (v w : Copy) : Prop where
  src : w.src = v.src
  flight : w.flight = v.flight
  log : w.log = v.log
  dst : ∀ x, ¬ v.Open x → w.dst x = v.dst x

theorem Drift.refl (v : Copy) : Drift v v := ⟨rfl, rfl, rfl, fun _ _ => rfl⟩

theorem Drift.trans (u v w : Copy) (h₁ : Drift u v) (h₂ : Drift v w) : Drift u w := by
  refine ⟨h₂.src.trans h₁.src, h₂.flight.trans h₁.flight, h₂.log.trans h₁.log, fun x hx => ?_⟩
  have hx' : ¬ v.Open x := by
    unfold Copy.Open
    rw [h₁.flight]
    exact hx
  exact (h₂.dst x hx').trans (h₁.dst x hx)

/-! ## `dsa_move_data` -/

/-- `dml_submit_job(jobs[i])` with its descriptor filled; the length is a 32-bit field. -/
def submitJob (i source dest length : Nat) : Cmd DsaCall Copy Bool := do
  let ok ← Cmd.succeeds (.submit i)
  if ok then
    Cmd.step fun v => v.submit i ⟨source, dest, length % 2 ^ 32⟩
    return true
  else
    return false

/-- `dml_wait_job(jobs[i], ..)`. -/
def waitJob (i : Nat) : Cmd DsaCall Copy Bool := do
  let ok ← Cmd.succeeds (.wait i)
  if ok then
    Cmd.step fun v => v.complete i
    return true
  else
    return false

/-- Wait for the jobs `i .. i + k - 1`. -/
def waitJobs : Nat → Nat → Cmd DsaCall Copy Bool
  | 0, _ => return true
  | k + 1, i => do
    let ok ← waitJob i
    if ok then waitJobs k (i + 1)
    else return false

/-- The local variables of `dsa_move_data` after a loop. -/
structure Locals where
  i : Nat
  source : Nat
  dest : Nat
  srcSize : Nat

/-- How a loop ends: an error, too little fuel, or its last values. -/
inductive LoopEnd
  | error
  | fuel
  | done (l : Locals)

/-- The jobs `i .. i + k - 1` of a full round. -/
def submitRound (blockSize : Nat) : Nat → Locals → Cmd DsaCall Copy LoopEnd
  | 0, l => return .done l
  | k + 1, l => do
    let ok ← submitJob l.i l.source l.dest blockSize
    if ok then
      submitRound blockSize k ⟨l.i + 1, l.source + blockSize, l.dest + blockSize, l.srcSize - blockSize⟩
    else return .error

/-- `while (src_size > max_move)`. -/
def fullRounds (jobNum blockSize maxMove : Nat) : Nat → Locals → Cmd DsaCall Copy LoopEnd
  | 0, _ => return .fuel
  | fuel + 1, l =>
    if l.srcSize > maxMove then do
      let submitted ← submitRound blockSize jobNum { l with i := 0 }
      match submitted with
      | .done l => do
        let waited ← waitJobs jobNum 0
        if waited then fullRounds jobNum blockSize maxMove fuel l
        else return .error
      | out => return out
    else return .done l

/-- The loop of the partial round, with `k` jobs left. -/
def partialRound (blockSize : Nat) : Nat → Locals → Cmd DsaCall Copy LoopEnd
  | 0, l => return .done l
  | k + 1, l =>
    if l.srcSize > blockSize then do
      let ok ← submitJob l.i l.source l.dest blockSize
      if ok then
        -- the early break counts the job it has just submitted
        if l.srcSize - blockSize < blockSize then
          return .done ⟨l.i + 1, l.source + blockSize, l.dest + blockSize, l.srcSize - blockSize⟩
        else
          partialRound blockSize k ⟨l.i + 1, l.source + blockSize, l.dest + blockSize, l.srcSize - blockSize⟩
      else return .error
    else return .done l

/-- The job for what is left; the number of jobs in use, or `none` for an error. -/
def tailJob (l : Locals) : Cmd DsaCall Copy (Option Nat) :=
  if l.srcSize > 0 then do
    let ok ← submitJob l.i l.source l.dest l.srcSize
    if ok then return some (l.i + 1)
    else return none
  else return some l.i

/-- `dml_finalize_job` for the jobs `i .. i + k - 1`. -/
def finalizeJobs : Nat → Nat → Cmd DsaCall Copy Unit
  | 0, _ => return ()
  | k + 1, i => do
    Cmd.step fun v => v.finalize i
    finalizeJobs k (i + 1)

/-- The label `dml_error`. -/
def dmlError (jobNum : Nat) : Cmd DsaCall Copy (Option Bool) := do
  finalizeJobs jobNum 0
  return some false

/-- The wait for the last jobs, and the return. -/
def finish (jobNum : Nat) : Option Nat → Cmd DsaCall Copy (Option Bool)
  | none => dmlError jobNum
  | some usedJobNum => do
    let waited ← waitJobs usedJobNum 0
    if waited then return some true
    else dmlError jobNum

/-- The jobs after the full rounds. -/
def lastRound (jobNum blockSize : Nat) : LoopEnd → Cmd DsaCall Copy (Option Bool)
  | .fuel => return none
  | .error => dmlError jobNum
  | .done l => do
    let part ← partialRound blockSize jobNum { l with i := 0 }
    match part with
    | .fuel => return none
    | .error => dmlError jobNum
    | .done l => do
      let used ← tailJob l
      finish jobNum used

/-- `dsa_move_data`: whether it returned without an error, which the caller is not told; `none` when the fuel for the
full rounds runs out. -/
def dsaMoveData (fuel jobNum srcSize blockSize : Nat) : Cmd DsaCall Copy (Option Bool) := do
  let maxMove := blockSize * jobNum % 2 ^ 64
  let full ← fullRounds jobNum blockSize maxMove fuel ⟨0, 0, 0, srcSize⟩
  lastRound jobNum blockSize full

/-! ## Moves that tile, jobs that are waited for -/

/-- The moves copy `[o, e)`, each byte to its own position, without a gap and without an empty move. -/
def Tiles (o e : Nat) : List Move → Prop
  | [] => o = e
  | m :: ms => m.source = o ∧ m.dest = o ∧ 0 < m.length ∧ Tiles (o + m.length) e ms

/-- The moves submitted. -/
def moves (log : List DsaEvent) : List Move := log.filterMap fun
  | .submitted _ m => some m
  | _ => none

def DsaEvent.job : DsaEvent → Nat
  | .submitted i _ => i
  | .waited i => i
  | .finalized i => i

/-- The jobs in flight after a call; `none` if a job is submitted again before the wait for it, or waited for twice. -/
def DsaEvent.play (s : Finset Nat) : DsaEvent → Option (Finset Nat)
  | .submitted i _ => if i ∈ s then none else some (insert i s)
  | .waited i => if i ∈ s then some (s.erase i) else none
  | .finalized _ => some s

def play (log : List DsaEvent) : Option (Finset Nat) := log.foldlM DsaEvent.play ∅

theorem tiles_append {o e f : Nat} {ms : List Move} (h : Tiles o e ms) (m : Move) (hs : m.source = e) (hd : m.dest = e)
    (hl : 0 < m.length) (hf : e + m.length = f) : Tiles o f (ms ++ [m]) := by
  induction ms generalizing o with
  | nil =>
    obtain rfl : o = e := h
    exact ⟨hs, hd, hl, hf⟩
  | cons k ms ih => exact ⟨h.1, h.2.1, h.2.2.1, ih h.2.2.2⟩

@[simp] theorem moves_append (l₁ l₂ : List DsaEvent) : moves (l₁ ++ l₂) = moves l₁ ++ moves l₂ := List.filterMap_append

theorem play_append (log : List DsaEvent) (e : DsaEvent) : play (log ++ [e]) = (play log).bind fun s => e.play s := by
  unfold play
  rw [List.foldlM_append]
  cases List.foldlM DsaEvent.play ∅ log with
  | none => rfl
  | some s => simp

/-! ## A copy in progress -/

/-- The move for the bytes from `x` on. -/
def chunk (S B x : Nat) : Move := ⟨x, x, min B (S - x)⟩

/-- Of the round that starts at `o`, the jobs `a .. b - 1` are in flight, and everything before them has been copied. -/
structure Moving (S B N : Nat) (source : Nat → Byte) (o a b : Nat) (v : Copy) : Prop where
  src : v.src = source
  copied : ∀ x, x < o + B * a → x < S → v.dst x = source x
  flight : ∀ i, v.flight i = if a ≤ i ∧ i < b then some (chunk S B (o + B * i)) else none
  tiles : Tiles 0 (min (o + B * b) S) (moves v.log)
  jobs : ∀ e ∈ v.log, e.job < N
  play : play v.log = some (Finset.Ico a b)

/-- Everything has been copied, and no job is in flight. -/
structure Moved (S N : Nat) (source : Nat → Byte) (v : Copy) : Prop where
  src : v.src = source
  copied : ∀ x < S, v.dst x = source x
  flight : v.flight = fun _ => none
  tiles : Tiles 0 S (moves v.log)
  jobs : ∀ e ∈ v.log, e.job < N
  play : Cxl.play v.log = some ∅

/-- No job is in flight, and no call has been made. -/
structure AtRest (v : Copy) : Prop where
  flight : v.flight = fun _ => none
  log : v.log = []

/-- Weakest precondition with the engine at work and calls that succeed. -/
abbrev dwp {α : Type} (c : Cmd DsaCall Copy α) (Q : α → Copy → Prop) (v : Copy) : Prop :=
  Cmd.wp Drift (fun _ n => n = 0) (fun _ => True) c Q v

section Moving
variable {S B N : Nat} {source : Nat → Byte} {o a b k : Nat} {v w : Copy}

theorem AtRest.moving (h : AtRest v) : Moving S B N v.src 0 0 0 v := by
  refine ⟨rfl, fun x hx => absurd hx (by omega), fun i => ?_, ?_, ?_, ?_⟩
  · rw [h.flight, if_neg (by omega)]
  · rw [h.log, Nat.mul_zero, Nat.add_zero, Nat.zero_min]
    exact rfl
  · rw [h.log]
    exact fun e he => absurd he List.not_mem_nil
  · rw [h.log, Finset.Ico_self]
    exact rfl

theorem Moving.drift (h : Moving S B N source o a b v) (hd : Drift v w) : Moving S B N source o a b w := by
  refine ⟨hd.src.trans h.src, fun x hx hxS => ?_, fun i => ?_, ?_, ?_, ?_⟩
  · rw [hd.dst x, h.copied x hx hxS]
    -- the jobs in flight write behind what has been copied
    intro ⟨i, m, hm, hle, _⟩
    rw [h.flight i] at hm
    split_ifs at hm with hi
    obtain rfl := Option.some.inj hm
    have hmul := Nat.mul_le_mul_left B hi.1
    simp only [chunk] at hle
    omega
  · rw [hd.flight, h.flight]
  · rw [hd.log]
    exact h.tiles
  · rw [hd.log]
    exact h.jobs
  · rw [hd.log]
    exact h.play

theorem Moving.submit (h : Moving S B N source o a b v) (hB : 0 < B) (ha : a ≤ b) (hb : b < N) (hx : o + B * b < S) :
    Moving S B N source o a (b + 1) (v.submit b (chunk S B (o + B * b))) := by
  have hlen : 0 < min B (S - (o + B * b)) := by omega
  refine ⟨h.src, h.copied, fun i => ?_, ?_, fun e he => ?_, ?_⟩
  · simp only [Copy.submit]
    by_cases hib : i = b
    · subst hib
      rw [Function.update_self, if_pos ⟨ha, Nat.lt_succ_self i⟩]
    · rw [Function.update_of_ne hib, h.flight]
      split_ifs <;> first | rfl | omega
  · simp only [Copy.submit, moves_append]
    have htiles := h.tiles
    rw [Nat.min_eq_left hx.le] at htiles
    refine tiles_append htiles (chunk S B (o + B * b)) rfl rfl hlen ?_
    rw [Nat.mul_succ]
    simp only [chunk]
    omega
  · rcases List.mem_append.mp he with he | he
    · exact h.jobs e he
    · obtain rfl := List.mem_singleton.mp he
      exact hb
  · simp only [Copy.submit, play_append, h.play, Option.bind_some, DsaEvent.play]
    rw [if_neg (by simp)]
    congr 1
    ext i
    simp only [Finset.mem_insert, Finset.mem_Ico]
    omega

theorem Moving.complete (h : Moving S B N source o a b v) (ha : a < b) (hb : b ≤ N) :
    Moving S B N source o (a + 1) b (v.complete a) := by
  have hflight : v.flight a = some (chunk S B (o + B * a)) := by rw [h.flight, if_pos ⟨le_rfl, ha⟩]
  refine ⟨h.src, fun x hx hxS => ?_, fun i => ?_, ?_, fun e he => ?_, ?_⟩
  · rw [Nat.mul_succ] at hx
    simp only [Copy.complete, hflight, Move.apply]
    by_cases hin : (chunk S B (o + B * a)).dest ≤ x ∧ x < (chunk S B (o + B * a)).dest + (chunk S B (o + B * a)).length
    · rw [if_pos hin, h.src]
      simp only [chunk] at hin ⊢
      congr 1
      omega
    · rw [if_neg hin]
      simp only [chunk] at hin
      exact h.copied x (by omega) hxS
  · simp only [Copy.complete]
    by_cases hia : i = a
    · subst hia
      rw [Function.update_self, if_neg (by omega)]
    · rw [Function.update_of_ne hia, h.flight]
      split_ifs <;> first | rfl | omega
  · simp only [Copy.complete, moves_append]
    rw [show moves [DsaEvent.waited a] = [] from rfl, List.append_nil]
    exact h.tiles
  · rcases List.mem_append.mp he with he | he
    · exact h.jobs e he
    · obtain rfl := List.mem_singleton.mp he
      exact lt_of_lt_of_le ha hb
  · simp only [Copy.complete, play_append, h.play, Option.bind_some, DsaEvent.play]
    rw [if_pos (Finset.mem_Ico.mpr ⟨le_rfl, ha⟩)]
    congr 1
    ext i
    simp only [Finset.mem_erase, Finset.mem_Ico]
    omega

/-- After the waits the next round starts. -/
theorem Moving.next (h : Moving S B N source o b b v) : Moving S B N source (o + B * b) 0 0 v := by
  refine ⟨h.src, fun x hx => h.copied x (by omega), fun i => ?_, h.tiles, h.jobs, ?_⟩
  · rw [h.flight, if_neg (by omega), if_neg (by omega)]
  · rw [h.play, Finset.Ico_self, Finset.Ico_self]

theorem Moving.moved (h : Moving S B N source o b b v) (hS : S ≤ o + B * b) : Moved S N source v := by
  refine ⟨h.src, fun x hx => h.copied x (by omega) hx, ?_, ?_, h.jobs, ?_⟩
  · funext i
    rw [h.flight, if_neg (by omega)]
  · rw [← Nat.min_eq_right hS]
    exact h.tiles
  · rw [h.play, Finset.Ico_self]

/-! ## The loops -/

theorem submitJob_spec (h : Moving S B N source o a b v) (hB : 0 < B) (hB32 : B < 2 ^ 32) (ha : a ≤ b) (hb : b < N)
    (hx : o + B * b < S) {len : Nat} (hlen : len = min B (S - (o + B * b))) :
    dwp (submitJob b (o + B * b) (o + B * b) len) (fun ok w => ok = true ∧ Moving S B N source o a (b + 1) w) v := by
  have hmod : len % 2 ^ 32 = min B (S - (o + B * b)) := by
    rw [← hlen]
    exact Nat.mod_eq_of_lt (by omega)
  simp only [submitJob, Cmd.wp_bind, Cmd.wp_succeeds, Cmd.wp_ite, Cmd.wp_pure]
  intro n hn
  subst hn
  refine ⟨fun _ => Cmd.wp_step fun w hw => ⟨trivial, trivial, ?_⟩, fun hno => absurd rfl hno⟩
  rw [hmod]
  exact (h.drift hw).submit hB ha hb hx

theorem waitJob_spec (h : Moving S B N source o a b v) (ha : a < b) (hb : b ≤ N) :
    dwp (waitJob a) (fun ok w => ok = true ∧ Moving S B N source o (a + 1) b w) v := by
  simp only [waitJob, Cmd.wp_bind, Cmd.wp_succeeds, Cmd.wp_ite, Cmd.wp_pure]
  intro n hn
  subst hn
  exact ⟨fun _ => Cmd.wp_step fun w hw => ⟨trivial, trivial, (h.drift hw).complete ha hb⟩, fun hno => absurd rfl hno⟩

theorem waitJobs_spec (h : Moving S B N source o a b v) (hk : a + k = b) (hb : b ≤ N) :
    dwp (waitJobs k a) (fun ok w => ok = true ∧ Moving S B N source o b b w) v := by
  induction k generalizing a v with
  | zero =>
    obtain rfl : a = b := by omega
    exact ⟨rfl, h⟩
  | succ k ih =>
    simp only [waitJobs, Cmd.wp_bind, Cmd.wp_ite, Cmd.wp_pure]
    refine Cmd.wp_conseq (waitJob_spec h (by omega) hb) fun ok w hdone => ⟨fun _ => ?_, fun hno => absurd hdone.1 hno⟩
    exact ih hdone.2 (by omega)

/-- The local variables when job `i` of the round is next. -/
def localsAt (S B o i : Nat) : Locals := ⟨i, o + B * i, o + B * i, S - (o + B * i)⟩

theorem localsAt_succ (S B o i : Nat) :
    (⟨i + 1, o + B * i + B, o + B * i + B, S - (o + B * i) - B⟩ : Locals) = localsAt S B o (i + 1) := by
  simp only [localsAt, Nat.mul_succ, Locals.mk.injEq, true_and]
  omega

theorem submitRound_spec (h : Moving S B N source o 0 b v) (hB : 0 < B) (hB32 : B < 2 ^ 32) (hk : b + k ≤ N)
    (hS : o + B * (b + k) ≤ S) :
    dwp (submitRound B k (localsAt S B o b))
      (fun r w => r = .done (localsAt S B o (b + k)) ∧ Moving S B N source o 0 (b + k) w) v := by
  induction k generalizing b v with
  | zero => exact ⟨rfl, h⟩
  | succ k ih =>
    have hmul : B * (b + 1) ≤ B * (b + (k + 1)) := Nat.mul_le_mul_left B (by omega)
    rw [Nat.mul_succ] at hmul
    simp only [submitRound, Cmd.wp_bind, Cmd.wp_ite, Cmd.wp_pure]
    have hlen : B = min B (S - (o + B * b)) := by omega
    have hjob := submitJob_spec h hB hB32 (Nat.zero_le b) (by omega) (by omega) hlen
    refine Cmd.wp_conseq hjob fun ok w hdone => ⟨fun _ => ?_, fun hno => absurd hdone.1 hno⟩
    have hrest := ih hdone.2 (by omega) (by rwa [show b + 1 + k = b + (k + 1) by omega])
    rw [show b + 1 + k = b + (k + 1) by omega, ← localsAt_succ] at hrest
    exact hrest

theorem fullRounds_spec {fuel i : Nat} (h : Moving S B N source o 0 0 v) (hB : 0 < B) (hB32 : B < 2 ^ 32) (hN : 0 < N)
    (ho : o ≤ S) (hfuel : S - o < fuel) :
    dwp (fullRounds N B (B * N) fuel ⟨i, o, o, S - o⟩) (fun r w => ∃ j e, r = .done ⟨j, e, e, S - e⟩ ∧ e ≤ S ∧
      S - e ≤ B * N ∧ Moving S B N source e 0 0 w) v := by
  have hpos : 0 < B * N := Nat.mul_pos hB hN
  induction fuel generalizing o i v with
  | zero => omega
  | succ fuel ih =>
    simp only [fullRounds, Cmd.wp_ite, Cmd.wp_pure]
    refine ⟨fun hlt => ?_, fun hge => ⟨i, o, rfl, ho, by omega, h⟩⟩
    simp only [Cmd.wp_bind]
    have hround := submitRound_spec (k := N) h hB hB32 (by omega) (by rw [Nat.zero_add]; omega)
    rw [localsAt, Nat.mul_zero, Nat.add_zero, Nat.zero_add] at hround
    refine Cmd.wp_conseq hround fun r w hdone => ?_
    obtain ⟨rfl, hw⟩ := hdone
    simp only [Cmd.wp_bind, Cmd.wp_ite, Cmd.wp_pure]
    refine Cmd.wp_conseq (waitJobs_spec hw (Nat.zero_add N) le_rfl) fun ok u hwait =>
      ⟨fun _ => ?_, fun hno => absurd hwait.1 hno⟩
    exact ih hwait.2.next (by omega) (by omega)

theorem partialRound_spec (h : Moving S B N source o 0 b v) (hB : 0 < B) (hB32 : B < 2 ^ 32) (hk : b + k = N)
    (hx : o + B * b ≤ S) (hS : S ≤ o + B * N) :
    dwp (partialRound B k (localsAt S B o b)) (fun r w => ∃ c, r = .done (localsAt S B o c) ∧ c ≤ N ∧
      S ≤ o + B * (c + 1) ∧ Moving S B N source o 0 c w) v := by
  induction k generalizing b v with
  | zero =>
    obtain rfl : b = N := by omega
    exact ⟨b, rfl, le_rfl, by rw [Nat.mul_succ]; omega, h⟩
  | succ k ih =>
    simp only [partialRound, Cmd.wp_ite, Cmd.wp_pure]
    refine ⟨fun hlt => ?_, fun hge => ⟨b, rfl, by omega, ?_, h⟩⟩
    · simp only [localsAt] at hlt
      simp only [Cmd.wp_bind, Cmd.wp_ite, Cmd.wp_pure]
      have hlen : B = min B (S - (o + B * b)) := by omega
      have hjob := submitJob_spec h hB hB32 (Nat.zero_le b) (by omega) (by omega) hlen
      refine Cmd.wp_conseq hjob fun ok w hdone => ⟨fun _ => ?_, fun hno => absurd hdone.1 hno⟩
      have hw := hdone.2
      simp only [localsAt]
      rw [localsAt_succ]
      refine ⟨fun hbreak => ⟨b + 1, rfl, by omega, ?_, hw⟩, fun _ => ?_⟩
      · rw [Nat.mul_succ, Nat.mul_succ]
        omega
      · exact ih hw (by omega) (by rw [Nat.mul_succ]; omega)
    · simp only [localsAt] at hge
      rw [Nat.mul_succ]
      omega

theorem tailJob_spec (h : Moving S B N source o 0 b v) (hB : 0 < B) (hB32 : B < 2 ^ 32) (hb : b ≤ N)
    (hlast : S ≤ o + B * (b + 1)) (hS : S ≤ o + B * N) :
    dwp (tailJob (localsAt S B o b)) (fun r w => ∃ c, r = some c ∧ c ≤ N ∧ S ≤ o + B * c ∧ Moving S B N source o 0 c w)
      v := by
  rw [Nat.mul_succ] at hlast
  simp only [tailJob, Cmd.wp_ite, Cmd.wp_pure]
  refine ⟨fun hpos => ?_, fun hno => ⟨b, rfl, hb, ?_, h⟩⟩
  · simp only [localsAt] at hpos
    -- bytes are left, so a job is left
    have hbN : b < N := by
      refine lt_of_le_of_ne hb fun he => ?_
      subst he
      omega
    simp only [Cmd.wp_bind, Cmd.wp_ite, Cmd.wp_pure, localsAt]
    have hlen : S - (o + B * b) = min B (S - (o + B * b)) := by omega
    have hjob := submitJob_spec h hB hB32 (Nat.zero_le b) hbN (by omega) hlen
    refine Cmd.wp_conseq hjob fun ok w hdone =>
      ⟨fun _ => ⟨b + 1, rfl, hbN, ?_, hdone.2⟩, fun hno => absurd hdone.1 hno⟩
    rw [Nat.mul_succ]
    omega
  · simp only [localsAt] at hno
    omega

/-- **`dsa_move_data`** copies everything when its calls succeed. -/
theorem dsaMoveData_spec {fuel : Nat} (h : AtRest v) (hB : 0 < B) (hB32 : B < 2 ^ 32) (hN : 0 < N) (hM : B * N < 2 ^ 64)
    (hfuel : S < fuel) :
    dwp (dsaMoveData fuel N S B) (fun r w => r = some true ∧ Moved S N v.src w) v := by
  simp only [dsaMoveData, Cmd.wp_bind, Nat.mod_eq_of_lt hM]
  have hfull := fullRounds_spec (i := 0) (h.moving (S := S) (B := B) (N := N)) hB hB32 hN (Nat.zero_le S) hfuel
  refine Cmd.wp_conseq hfull fun r w hfulls => ?_
  obtain ⟨j, e, rfl, he, hle, hw⟩ := hfulls
  simp only [lastRound, Cmd.wp_bind]
  have hpart := partialRound_spec (k := N) hw hB hB32 (Nat.zero_add N) (by omega) (by omega)
  rw [localsAt, Nat.mul_zero, Nat.add_zero] at hpart
  refine Cmd.wp_conseq hpart fun r u hparts => ?_
  obtain ⟨c, rfl, hc, hlast, hu⟩ := hparts
  simp only [Cmd.wp_bind]
  refine Cmd.wp_conseq (tailJob_spec hu hB hB32 hc hlast (by omega)) fun r u htail => ?_
  obtain ⟨c, rfl, hc, hS, hu⟩ := htail
  simp only [finish, Cmd.wp_bind, Cmd.wp_ite, Cmd.wp_pure]
  exact Cmd.wp_conseq (waitJobs_spec hu (Nat.zero_add c) hc) fun ok u hwait =>
    ⟨fun _ => ⟨trivial, hwait.2.moved hS⟩, fun hno => absurd hwait.1 hno⟩

end Moving

/-! ## The calls -/

/-- The source is only read. -/
def SameSrc (v w : Copy) : Prop := w.src = v.src

theorem plain_submitJob (i source dest length : Nat) : (submitJob i source dest length).Plain SameSrc :=
  Cmd.plain_bind (Cmd.plain_succeeds _) fun _ =>
    Cmd.plain_ite (Cmd.plain_bind (Cmd.plain_step fun _ => rfl) fun _ => Cmd.plain_pure _) (Cmd.plain_pure _)

theorem plain_waitJobs (k i : Nat) : (waitJobs k i).Plain SameSrc := by
  induction k generalizing i with
  | zero => exact Cmd.plain_pure _
  | succ k ih =>
    refine Cmd.plain_bind (Cmd.plain_bind (Cmd.plain_succeeds _) fun _ => ?_) fun _ =>
      Cmd.plain_ite (ih _) (Cmd.plain_pure _)
    exact Cmd.plain_ite (Cmd.plain_bind (Cmd.plain_step fun _ => rfl) fun _ => Cmd.plain_pure _) (Cmd.plain_pure _)

theorem plain_submitRound (B k : Nat) (l : Locals) : (submitRound B k l).Plain SameSrc := by
  induction k generalizing l with
  | zero => exact Cmd.plain_pure _
  | succ k ih =>
    exact Cmd.plain_bind (plain_submitJob _ _ _ _) fun _ => Cmd.plain_ite (ih _) (Cmd.plain_pure _)

theorem plain_fullRounds (N B M fuel : Nat) (l : Locals) : (fullRounds N B M fuel l).Plain SameSrc := by
  induction fuel generalizing l with
  | zero => exact Cmd.plain_pure _
  | succ fuel ih =>
    refine Cmd.plain_ite (Cmd.plain_bind (plain_submitRound _ _ _) fun r => ?_) (Cmd.plain_pure _)
    cases r with
    | error => exact Cmd.plain_pure _
    | fuel => exact Cmd.plain_pure _
    | done l => exact Cmd.plain_bind (plain_waitJobs _ _) fun _ => Cmd.plain_ite (ih _) (Cmd.plain_pure _)

theorem plain_partialRound (B k : Nat) (l : Locals) : (partialRound B k l).Plain SameSrc := by
  induction k generalizing l with
  | zero => exact Cmd.plain_pure _
  | succ k ih =>
    exact Cmd.plain_ite (Cmd.plain_bind (plain_submitJob _ _ _ _) fun _ =>
      Cmd.plain_ite (Cmd.plain_ite (Cmd.plain_pure _) (ih _)) (Cmd.plain_pure _)) (Cmd.plain_pure _)

theorem plain_dmlError (N : Nat) : (dmlError N).Plain SameSrc := by
  have hall : ∀ k i, (finalizeJobs k i).Plain SameSrc := by
    intro k
    induction k with
    | zero => exact fun _ => Cmd.plain_pure _
    | succ k ih => exact fun i => Cmd.plain_bind (Cmd.plain_step fun _ => rfl) fun _ => ih _
  exact Cmd.plain_bind (hall N 0) fun _ => Cmd.plain_pure _

theorem plain_dsaMoveData (fuel N S B : Nat) : (dsaMoveData fuel N S B).Plain SameSrc := by
  have hfinish : ∀ used, (finish N used).Plain SameSrc := by
    intro used
    cases used with
    | none => exact plain_dmlError N
    | some k => exact Cmd.plain_bind (plain_waitJobs _ _) fun _ => Cmd.plain_ite (Cmd.plain_pure _) (plain_dmlError N)
  have htail : ∀ l, (tailJob l).Plain SameSrc := fun l =>
    Cmd.plain_ite (Cmd.plain_bind (plain_submitJob _ _ _ _) fun _ =>
      Cmd.plain_ite (Cmd.plain_pure _) (Cmd.plain_pure _)) (Cmd.plain_pure _)
  refine Cmd.plain_bind (plain_fullRounds _ _ _ _ _) fun r => ?_
  cases r with
  | error => exact plain_dmlError N
  | fuel => exact Cmd.plain_pure _
  | done l =>
    refine Cmd.plain_bind (plain_partialRound _ _ _) fun r => ?_
    cases r with
    | error => exact plain_dmlError N
    | fuel => exact Cmd.plain_pure _
    | done l => exact Cmd.plain_bind (htail l) hfinish

/-- **Every byte is moved once.** When every submission and every wait succeeds, `dsa_move_data` returns, its moves
tile the block, it uses the jobs below `job_num` only, submits none again before the wait for it and leaves none in
flight; so the destination is the source. -/
theorem dsa_moves_once {fuel N S B : Nat} (hB : 1 ≤ B) (hB32 : B < 2 ^ 32) (hN : 1 ≤ N) (hM : B * N < 2 ^ 64)
    (hfuel : S < fuel) {v : Copy} (hv : AtRest v) :
    (∃ r w, Cmd.Run Drift (fun _ n => n = 0) (dsaMoveData fuel N S B) v r w) ∧
      ∀ r w, Cmd.Run Drift (fun _ n => n = 0) (dsaMoveData fuel N S B) v r w →
        r = some true ∧ Tiles 0 S (moves w.log) ∧ (∀ e ∈ w.log, e.job < N) ∧ play w.log = some ∅ ∧
          ∀ x < S, w.dst x = v.src x := by
  have hspec := dsaMoveData_spec hv hB hB32 hN hM hfuel
  constructor
  · obtain ⟨r, w, hw, -⟩ := Cmd.wp_exec (A := fun _ n => n = 0) Drift.refl (fun _ => rfl) hspec
      (plain_dsaMoveData fuel N S B).total
    exact ⟨r, w, Cmd.exec_run (A := fun _ n => n = 0) Drift.refl (fun _ => rfl) hw⟩
  · intro r w hw
    obtain ⟨hr, hmoved⟩ := Cmd.wp_run hspec hw
    exact ⟨hr, hmoved.tiles, hmoved.jobs, hmoved.play, hmoved.copied⟩

/-- No bytes copied yet. -/
def startCopy (src : Nat → Byte) : Copy := ⟨src, fun _ => 0, fun _ => none, []⟩

/-- With one job: three full rounds and a rest of one byte. -/
theorem dsa_moves_once_ten :
    ∃ r w, Cmd.Run Drift (fun _ n => n = 0) (dsaMoveData 11 1 10 3) (startCopy fun x => BitVec.ofNat 8 x) r w ∧
      Tiles 0 10 (moves w.log) ∧ w.dst 9 = 9 := by
  have hidle : AtRest (startCopy fun x => BitVec.ofNat 8 x) := ⟨rfl, rfl⟩
  obtain ⟨⟨r, w, hw⟩, hall⟩ := dsa_moves_once (show 1 ≤ 3 by decide) (by decide) (show 1 ≤ 1 by decide) (by decide)
    (show 10 < 11 by decide) hidle
  obtain ⟨-, htiles, -, -, hcopied⟩ := hall r w hw
  exact ⟨r, w, hw, htiles, hcopied 9 (by decide)⟩

/-- The moves of ten bytes in blocks of three with two jobs: a full round, a block and the last byte. -/
example : ((dsaMoveData 11 2 10 3).exec (startCopy fun _ => 0)).map (fun r => moves r.2.log) =
    some [⟨0, 0, 3⟩, ⟨3, 3, 3⟩, ⟨6, 6, 3⟩, ⟨9, 9, 1⟩] := by decide +kernel

end PmemProgram.Cxl
