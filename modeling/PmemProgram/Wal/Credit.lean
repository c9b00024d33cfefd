import PmemProgram.Lib.Trace
import PmemProgram.Wal.Schedule

/-!
# Credit for asynchronous `fdatasync` calls

The writer posts a request of some blocks, the thread completes an `fdatasync`, and the writer credits the blocks to
`fsync_len`. The events of a run are written down beside it (`events`).

* `Rounds l p` : the log `l` is a sequence of rounds `request b`, `complete`, `credit b`, the last one cut at `p`;
* `Credit app req p w` : a request of `req` blocks is on its way, the log is in phase `p`, and in append mode (`app`) the
  guard is `Behind` the disk;
* `credit_once` : between calls the semaphores, the thread, `block_count` and the log agree, inside a call there is at most
  one request (`request_not_posted`), and in append mode neither `fsync_len` nor the length stored in NVM passes what is
  on the disk (`credit_overtakes`).

The system call `write` may have any outcome; all other calls succeed.
-/

namespace PmemProgram.Wal
open PmemProgram.Lib

/-! ## Events -/

inductive Event
  | request (blocks : Nat)
  | complete
  | credit (blocks : Nat)

def Afsync.isSyncing : Afsync → Bool
  | syncing _ _ => true
  | _ => false

/-- The events of a step: the writer posts its request, the thread's `fdatasync` completes, or the writer moves
`fsync_len` while a request is open. -/
def events (s t : Sys) : List Event :=
  (if s.guard.semStart < t.guard.semStart then [.request t.guard.blockCount] else []) ++
  (if s.guard.thread.isSyncing = true ∧ t.guard.thread = .synced then [.complete] else []) ++
  (if s.guard.fsyncLen ≠ t.guard.fsyncLen ∧ t.guard.blockCount ≠ 0 then
    [.credit ((t.guard.fsyncLen - s.guard.fsyncLen) / blockSize)] else [])

/-- Where the last round stands. -/
inductive Phase
  | idle
  | requested (blocks : Nat)
  | completed (blocks : Nat)

inductive Rounds : List Event → Phase → Prop
  | nil : Rounds [] .idle
  | request {l : List Event} {b : Nat} : Rounds l .idle → Rounds (l ++ [.request b]) (.requested b)
  | complete {l : List Event} {b : Nat} : Rounds l (.requested b) → Rounds (l ++ [.complete]) (.completed b)
  | credit {l : List Event} {b : Nat} : Rounds l (.completed b) → Rounds (l ++ [.credit b]) .idle

/-- A step that leaves the semaphore, the thread and `fsync_len` alone has no events. -/
theorem events_eq_nil {s t : Sys} (h₁ : t.guard.semStart ≤ s.guard.semStart) (h₂ : t.guard.thread = s.guard.thread)
    (h₃ : t.guard.fsyncLen = s.guard.fsyncLen) : events s t = [] := by
  have hsync : ¬ (s.guard.thread.isSyncing = true ∧ t.guard.thread = .synced) := by
    rw [h₂]
    rintro ⟨h, h'⟩
    rw [h'] at h
    cases h
  simp only [events, if_neg (Nat.not_lt.mpr h₁), if_neg hsync, h₃, ne_eq, not_true, false_and, if_false, List.append_nil]

/-- The request of `b` blocks, which in append mode (`app`) covers the first `n` bytes of the file, and the phase of the
log. -/
inductive Flow (app : Prop) (n : Nat) (s : Sys) : Nat → Phase → Prop
  | quiet {p : Phase} : s.guard.semStart = 0 → s.guard.thread = .idle → s.guard.semDone = 0 → Flow app n s 0 p
  | posted {b : Nat} : b ≠ 0 → s.guard.semStart = 1 → s.guard.thread = .idle → s.guard.semDone = 0 →
      Flow app n s b (.requested b)
  | syncing {b k c : Nat} : b ≠ 0 → s.guard.semStart = 0 → s.guard.thread = .syncing k c → s.guard.semDone = 0 →
      (app → n ≤ s.file.intact k c) → Flow app n s b (.requested b)
  | synced {b : Nat} : b ≠ 0 → s.guard.semStart = 0 → s.guard.thread = .synced → s.guard.semDone = 0 →
      (app → n ≤ s.file.synced) → Flow app n s b (.completed b)
  | done {b : Nat} : b ≠ 0 → s.guard.semStart = 0 → s.guard.thread = .idle → s.guard.semDone = 1 →
      (app → n ≤ s.file.synced) → Flow app n s b (.completed b)

/-- An append-mode file that the guard does not run ahead of, in memory or in NVM. -/
structure Behind (s : Sys) : Prop where
  append : s.desc.append = true
  room : s.guard.fsyncLen + s.guard.len ≤ s.file.data.length
  synced : s.guard.fsyncLen ≤ s.file.synced
  nvm : ∀ x, s.nvm = some x → getFsyncLen x.mixed ≤ s.file.synced

/-- A request of `req` blocks is on its way, and the log is in phase `p`. -/
structure Credit (app : Prop) (req : Nat) (p : Phase) (w : Sys × List Event) : Prop where
  behind : app → Behind w.1
  request : blockSize * req ≤ w.1.guard.len
  flow : Flow app (w.1.guard.fsyncLen + blockSize * req) w.1 req p
  rounds : Rounds w.2 p

/-- The number of requests in the semaphores and the thread. -/
def inFlight (s : Sys) : Nat := s.guard.semStart + s.guard.thread.busy + s.guard.semDone

/-- What holds at every point inside a call. -/
structure Inside (app : Prop) (w : Sys × List Event) : Prop where
  atMostOne : inFlight w.1 ≤ 1
  none : w.1.guard.blockCount = 0 → inFlight w.1 = 0
  synced : app → w.1.guard.fsyncLen ≤ w.1.file.synced
  nvm : app → ∀ x, w.1.nvm = some x → getFsyncLen x.mixed ≤ w.1.file.synced

/-- The thread runs, and its events are written down. -/
abbrev Ticked : Sys × List Event → Sys × List Event → Prop :=
  Relation.ReflTransGen (Cmd.Logs events (Tick fun _ k => k = 0))

section
variable {app : Prop} {req n : Nat} {p : Phase} {w w' : Sys × List Event}

theorem Flow.inFlight {s : Sys} (h : Flow app n s req p) : inFlight s = if req = 0 then 0 else 1 := by
  unfold Wal.inFlight
  cases h with
  | quiet h₁ h₂ h₃ => simp [h₁, h₂, h₃, Afsync.busy]
  | posted hb h₁ h₂ h₃ => simp [hb, h₁, h₂, h₃, Afsync.busy]
  | syncing hb h₁ h₂ h₃ => simp [hb, h₁, h₂, h₃, Afsync.busy]
  | synced hb h₁ h₂ h₃ => simp [hb, h₁, h₂, h₃, Afsync.busy]
  | done hb h₁ h₂ h₃ => simp [hb, h₁, h₂, h₃, Afsync.busy]

theorem Credit.inside (h : Credit app req p w) (h0 : w.1.guard.blockCount = 0 → req = 0) : Inside app w := by
  have hout := h.flow.inFlight
  refine ⟨?_, fun hb => ?_, fun ha => (h.behind ha).synced, fun ha => (h.behind ha).nvm⟩
  · rw [hout]
    split_ifs <;> omega
  · rw [hout, if_pos (h0 hb)]

theorem Flow.idle {s : Sys} (h : Flow app n s 0 p) :
    s.guard.semStart = 0 ∧ s.guard.thread = .idle ∧ s.guard.semDone = 0 := by
  generalize h0 : 0 = z at h
  cases h with
  | quiet h₁ h₂ h₃ => exact ⟨h0 ▸ h₁, h₂, h0 ▸ h₃⟩
  | posted hb => exact absurd h0.symm hb
  | syncing hb => exact absurd h0.symm hb
  | synced hb => exact absurd h0.symm hb
  | done hb => exact absurd h0.symm hb

/-- With no request on its way only the semaphores and the thread matter. -/
theorem Flow.of_zero {n' : Nat} {p' : Phase} {s t : Sys} (h : Flow app n s 0 p)
    (h₁ : t.guard.semStart = s.guard.semStart) (h₂ : t.guard.thread = s.guard.thread)
    (h₃ : t.guard.semDone = s.guard.semDone) : Flow app n' t 0 p' :=
  .quiet (h₁.trans h.idle.1) (h₂.trans h.idle.2.1) (h₃.trans h.idle.2.2)

/-- What the guard says, in memory and in NVM, has not moved. -/
theorem Behind.congr {s t : Sys} (h : Behind s) (hdesc : t.desc = s.desc) (hfile : t.file = s.file)
    (hfl : t.guard.fsyncLen = s.guard.fsyncLen) (hl : t.guard.len = s.guard.len)
    (hnvm : t.nvm.map NvmFile.mixed = s.nvm.map NvmFile.mixed) : Behind t := by
  refine ⟨hdesc ▸ h.append, ?_, ?_, fun x hx => ?_⟩
  · rw [hfile, hfl, hl]
    exact h.room
  · rw [hfile, hfl]
    exact h.synced
  · rw [hx, Option.map_some] at hnvm
    obtain ⟨y, hy, hxy⟩ := Option.map_eq_some_iff.mp hnvm.symm
    rw [hfile, ← hxy]
    exact h.nvm y hy

/-- More is on the disk. -/
theorem Behind.sync {s : Sys} {f : File} (h : Behind s) (hdata : f.data = s.file.data)
    (hs : s.file.synced ≤ f.synced) : Behind { s with file := f } := by
  refine ⟨h.append, ?_, h.synced.trans hs, fun x hx => (h.nvm x hx).trans hs⟩
  change s.guard.fsyncLen + s.guard.len ≤ f.data.length
  rw [hdata]
  exact h.room

/-- A step of the thread moves the request on, and the log with it. -/
theorem Credit.logs (h : Credit app req p w) (ht : Cmd.Logs events (Tick fun _ k => k = 0) w w') :
    ∃ p', Credit app req p' w' ∧ (req = 0 → w' = w) := by
  obtain ⟨s, l⟩ := w
  obtain ⟨t, m⟩ := w'
  obtain ⟨ht, hm⟩ := ht
  change Tick _ s t at ht
  change m = l ++ events s t at hm
  subst hm
  have hbehind : app → Behind s := h.behind
  have hreq : blockSize * req ≤ s.guard.len := h.request
  have hflow : Flow app (s.guard.fsyncLen + blockSize * req) s req p := h.flow
  have hrounds : Rounds l p := h.rounds
  have hroom : app → s.guard.fsyncLen + blockSize * req ≤ s.file.data.length := fun ha => by
    have := (hbehind ha).room
    omega
  cases ht with
  | wait hn hth hsem =>
    subst hn
    -- the thread starts with all bytes that are in the file
    cases hflow with
    | quiet h₁ => omega
    | posted hb h₁ h₂ h₃ =>
      refine ⟨_, ⟨fun ha => (hbehind ha).congr rfl rfl rfl rfl rfl, hreq, .syncing hb ?_ rfl h₃ fun ha => ?_, ?_⟩,
        fun h0 => absurd h0 hb⟩
      · simp [h₁]
      · change s.guard.fsyncLen + _ ≤ s.file.intact s.file.data.length s.file.changes.length
        rw [File.intact_all]
        exact hroom ha
      · simpa [events, hth, h₁, Afsync.isSyncing] using hrounds
    | syncing hb h₁ => omega
    | synced hb h₁ => omega
    | done hb h₁ => omega
  | @sync n k c hn hth =>
    subst hn
    cases hflow with
    | quiet h₁ h₂ => rw [h₂] at hth; cases hth
    | posted hb h₁ h₂ => rw [h₂] at hth; cases hth
    | @syncing _ k' c' hb h₁ h₂ h₃ h₄ =>
      obtain ⟨rfl, rfl⟩ : k = k' ∧ c = c' := Afsync.syncing.inj (hth.symm.trans h₂)
      have hsynced := s.file.synced_le_sync k c
      refine ⟨_, ⟨fun ha => ?_, hreq, .synced hb h₁ rfl h₃ fun ha => ?_, ?_⟩, fun h0 => absurd h0 hb⟩
      · exact ((hbehind ha).sync (f := s.file.sync k c) rfl hsynced).congr rfl rfl rfl rfl rfl
      · exact (le_min (h₄ ha) (hroom ha)).trans (le_max_right _ _)
      · simpa [events, hth, Afsync.isSyncing] using hrounds.complete
    | synced hb h₁ h₂ => rw [h₂] at hth; cases hth
    | done hb h₁ h₂ => rw [h₂] at hth; cases hth
  | post hn hth =>
    subst hn
    cases hflow with
    | quiet h₁ h₂ => rw [h₂] at hth; cases hth
    | posted hb h₁ h₂ => rw [h₂] at hth; cases hth
    | syncing hb h₁ h₂ => rw [h₂] at hth; cases hth
    | synced hb h₁ h₂ h₃ h₄ =>
      refine ⟨_, ⟨fun ha => (hbehind ha).congr rfl rfl rfl rfl rfl, hreq, .done hb h₁ rfl ?_ h₄, ?_⟩,
        fun h0 => absurd h0 hb⟩
      · simp [h₃]
      · simpa [events, hth, Afsync.isSyncing] using hrounds
    | done hb h₁ h₂ => rw [h₂] at hth; cases hth

theorem Credit.ticked (h : Credit app req p w) (ht : Ticked w w') :
    (∃ p', Credit app req p' w') ∧ (req = 0 → w' = w) ∧ Ticks w.1 w'.1 := by
  induction ht with
  | refl => exact ⟨⟨p, h⟩, fun _ => rfl, .refl⟩
  | tail _ hstep ih =>
    obtain ⟨⟨p', h'⟩, hsame, hticks⟩ := ih
    obtain ⟨p'', h'', hsame'⟩ := h'.logs hstep
    exact ⟨⟨p'', h''⟩, fun h0 => (hsame' h0).trans (hsame h0), hticks.tail hstep.1⟩

/-- With no request on its way the thread stays where it is. -/
theorem Credit.quiet (h : Credit app 0 p w) (ht : Ticked w w') : w' = w := (h.ticked ht).2.1 rfl

end

/-- Between two calls: the request of `block_count` blocks is on its way. -/
def AtRest (app : Prop) (w : Sys × List Event) : Prop :=
  ∃ p, Credit app w.1.guard.blockCount p w ∧ (w.1.guard.blockCount = 0 → p = .idle)

theorem tick_blockCount {s t : Sys} (h : Ticks s t) : t.guard.blockCount = s.guard.blockCount := by
  induction h with
  | refl => rfl
  | tail _ hstep ih => exact hstep.fields.2.2.2.trans ih

theorem tick_fsyncLen {s t : Sys} (h : Ticks s t) : t.guard.fsyncLen = s.guard.fsyncLen := by
  induction h with
  | refl => rfl
  | tail _ hstep ih => exact hstep.fields.2.1.trans ih

theorem AtRest.ticked {app : Prop} {w w' : Sys × List Event} (h : AtRest app w) (ht : Ticked w w') :
    AtRest app w' ∧ Ticks w.1 w'.1 := by
  obtain ⟨p, hcredit, hidle⟩ := h
  obtain ⟨⟨p', hcredit'⟩, hsame, hticks⟩ := hcredit.ticked ht
  refine ⟨?_, hticks⟩
  by_cases h0 : w.1.guard.blockCount = 0
  · obtain rfl := hsame h0
    exact ⟨p, hcredit, hidle⟩
  · rw [← tick_blockCount hticks] at hcredit' h0
    exact ⟨p', hcredit', fun h => absurd h h0⟩

theorem AtRest.inside {app : Prop} {w : Sys × List Event} (h : AtRest app w) : Inside app w := by
  obtain ⟨p, hcredit, -⟩ := h
  exact hcredit.inside id

/-! ## The calls -/

/-- `write` may have any outcome, and everything else succeeds. -/
def OnlyWriteFails (q : Syscall) (k : Nat) : Prop := q = .write ∨ k = 0

section
variable {app : Prop} {req k : Nat} {p : Phase} {w : Sys × List Event}

/-- Nothing that is synced is lost from `f` to `g`, and only what is behind the end of `f` has changed. -/
structure File.Extends (f g : File) : Prop where
  synced : f.synced ≤ g.synced
  intact : ∀ n c, min (f.intact n c) f.data.length ≤ g.intact n c

theorem File.Extends.refl (f : File) : f.Extends f := ⟨le_rfl, fun _ _ => min_le_left _ _⟩

theorem Flow.congr {n : Nat} {s t : Sys} (h : Flow app n s req p) (hn : app → n ≤ s.file.data.length)
    (hs : app → s.file.Extends t.file) (h₁ : t.guard.semStart = s.guard.semStart)
    (h₂ : t.guard.thread = s.guard.thread) (h₃ : t.guard.semDone = s.guard.semDone) : Flow app n t req p := by
  cases h with
  | quiet k₁ k₂ k₃ => exact .quiet (h₁.trans k₁) (h₂.trans k₂) (h₃.trans k₃)
  | posted hb k₁ k₂ k₃ => exact .posted hb (h₁.trans k₁) (h₂.trans k₂) (h₃.trans k₃)
  | syncing hb k₁ k₂ k₃ k₄ =>
    exact .syncing hb (h₁.trans k₁) (h₂.trans k₂) (h₃.trans k₃) fun ha =>
      (le_min (k₄ ha) (hn ha)).trans ((hs ha).intact _ _)
  | synced hb k₁ k₂ k₃ k₄ =>
    exact .synced hb (h₁.trans k₁) (h₂.trans k₂) (h₃.trans k₃) fun ha => (k₄ ha).trans (hs ha).synced
  | done hb k₁ k₂ k₃ k₄ =>
    exact .done hb (h₁.trans k₁) (h₂.trans k₂) (h₃.trans k₃) fun ha => (k₄ ha).trans (hs ha).synced

/-- A step of the writer that leaves `fsync_len`, the semaphores and the thread alone. -/
theorem Credit.step {t : Sys} (h : Credit app req p w) (hb : app → Behind t) (hreq : blockSize * req ≤ t.guard.len)
    (hs : app → w.1.file.Extends t.file) (hfl : t.guard.fsyncLen = w.1.guard.fsyncLen)
    (h₁ : t.guard.semStart = w.1.guard.semStart) (h₂ : t.guard.thread = w.1.guard.thread)
    (h₃ : t.guard.semDone = w.1.guard.semDone) : Credit app req p (t, w.2 ++ events w.1 t) := by
  rw [events_eq_nil h₁.le h₂ hfl, List.append_nil]
  refine ⟨hb, hreq, ?_, h.rounds⟩
  have hreq' := h.request
  rw [hfl]
  exact h.flow.congr (fun ha => by have := (h.behind ha).room; omega) hs h₁ h₂ h₃

/-- A step of the writer that changes nothing the log depends on. -/
theorem Credit.same {t : Sys} (h : Credit app req p w) (hdesc : t.desc = w.1.desc) (hfile : t.file = w.1.file)
    (hfl : t.guard.fsyncLen = w.1.guard.fsyncLen) (hl : t.guard.len = w.1.guard.len)
    (h₁ : t.guard.semStart = w.1.guard.semStart) (h₂ : t.guard.thread = w.1.guard.thread)
    (h₃ : t.guard.semDone = w.1.guard.semDone) (hnvm : t.nvm.map NvmFile.mixed = w.1.nvm.map NvmFile.mixed) :
    Credit app req p (t, w.2 ++ events w.1 t) :=
  h.step (fun ha => (h.behind ha).congr hdesc hfile hfl hl hnvm) (hl ▸ h.request) (fun _ => hfile ▸ .refl _) hfl
    h₁ h₂ h₃

/-- `fsync_len` moves on by `m`. -/
def Sys.forward (s : Sys) (start m : Nat) : Sys :=
  { s with guard := { s.guard with start := start, len := s.guard.len - m, fsyncLen := s.guard.fsyncLen + m } }

theorem Credit.forward {m : Nat} (h : Credit app 0 p w) (start : Nat) (hm : m ≤ w.1.guard.len)
    (hs : app → w.1.guard.fsyncLen + m ≤ w.1.file.synced) {l : List Event} {p' : Phase} (hl : Rounds l p') :
    Credit app 0 p' (w.1.forward start m, l) := by
  refine ⟨fun ha => ?_, Nat.zero_le _, h.flow.of_zero rfl rfl rfl, hl⟩
  obtain ⟨happ, hroom, -, hnvm⟩ := h.behind ha
  refine ⟨happ, ?_, hs ha, hnvm⟩
  change w.1.guard.fsyncLen + m + (w.1.guard.len - m) ≤ w.1.file.data.length
  omega

/-- The writer has taken the request from `sem_done`. -/
theorem Credit.taken {s : Sys} {l : List Event} (h : Credit app req p (s, l)) (hd : 0 < s.guard.semDone) :
    let t : Sys := { s with guard := { s.guard with semDone := s.guard.semDone - 1 } }
    req ≠ 0 ∧ Credit app 0 (.completed req) (t, l ++ events s t) ∧
      (app → s.guard.fsyncLen + blockSize * req ≤ s.file.synced) := by
  intro t
  have hflow : Flow app (s.guard.fsyncLen + blockSize * req) s req p := h.flow
  have hrounds : Rounds l p := h.rounds
  have hev : events s t = [] := events_eq_nil le_rfl rfl rfl
  rw [hev, List.append_nil]
  cases hflow with
  | quiet _ _ h₃ => omega
  | posted _ _ _ h₃ => omega
  | syncing _ _ _ h₃ => omega
  | synced _ _ _ h₃ => omega
  | done hb h₁ h₂ h₃ h₄ =>
    refine ⟨hb, ⟨fun ha => (h.behind ha).congr rfl rfl rfl rfl rfl, Nat.zero_le _, .quiet h₁ h₂ ?_, hrounds⟩, h₄⟩
    change s.guard.semDone - 1 = 0
    omega

/-- Between two calls, with a ring of `ln` bytes and `n` bytes more in an append-mode file. -/
structure Ahead (app : Prop) (ln n : Nat) (w : Sys × List Event) : Prop where
  rest : AtRest app w
  len : w.1.guard.len = ln
  room : app → w.1.guard.fsyncLen + ln + n ≤ w.1.file.data.length

theorem Ahead.ticked {ln n : Nat} {w' : Sys × List Event} (h : Ahead app ln n w) (ht : Ticked w w') :
    Ahead app ln n w' := by
  obtain ⟨hrest, hticks⟩ := h.rest.ticked ht
  obtain ⟨hdata, -, -, hlen⟩ := ticks_keep hticks
  refine ⟨hrest, hlen.trans h.len, ?_⟩
  rw [tick_fsyncLen hticks, hdata]
  exact h.room

/-- A change of the NVM file that keeps its first word. -/
theorem Ahead.setNvm {ln n : Nat} {f : NvmFile → NvmFile} (h : Ahead app ln n w) (hf : ∀ x, (f x).mixed = x.mixed) :
    Ahead app ln n ({ w.1 with nvm := w.1.nvm.map f }, w.2 ++ events w.1 { w.1 with nvm := w.1.nvm.map f }) := by
  obtain ⟨p, hcredit, hidle⟩ := h.rest
  have hmixed : (w.1.nvm.map f).map NvmFile.mixed = w.1.nvm.map NvmFile.mixed := by
    rw [Option.map_map]
    exact congrArg (Option.map · w.1.nvm) (funext hf)
  exact ⟨⟨p, hcredit.same rfl rfl rfl rfl rfl rfl rfl hmixed, hidle⟩, h.len, h.room⟩

/-- An append makes the file longer and leaves what is synced; another write leaves the guard alone. -/
theorem AtRest.write {s : Sys} {l : List Event} (h : AtRest app (s, l)) (d : List Byte) :
    AtRest app (s.write d, l ++ events s (s.write d)) ∧
      (app → (s.write d).file.data.length = s.file.data.length + d.length) := by
  obtain ⟨p, hcredit, hidle⟩ := h
  have hbehind : app → Behind s := hcredit.behind
  have hlen : app → (s.write d).file.data.length = s.file.data.length + d.length := fun ha => by
    rw [← List.length_append]
    exact congrArg List.length (Desc.write_append (hbehind ha).append s.file d).1
  have hsame : app → (s.write d).file.synced = s.file.synced := fun ha =>
    (Desc.write_append (hbehind ha).append s.file d).2.1
  refine ⟨⟨p, hcredit.step (fun ha => ?_) hcredit.request (fun ha => ?_) rfl rfl rfl rfl, hidle⟩, hlen⟩
  · obtain ⟨happ, hroom, hsynced, hnvm⟩ := hbehind ha
    refine ⟨(Desc.write_append happ s.file d).2.2, ?_, (hsame ha).symm ▸ hsynced, (hsame ha).symm ▸ hnvm⟩
    change s.guard.fsyncLen + s.guard.len ≤ (s.write d).file.data.length
    rw [hlen ha]
    omega
  · exact ⟨(hsame ha).ge, Desc.write_intact (hbehind ha).append _ d⟩

end

/-! ## Runs -/

/-- A guard on a file whose content is on the disk at the start, opened with `O_APPEND` or without, after calls and steps
of the thread, with the log of their events. A log has less than `2 ^ 63` bytes (`off_t`). -/
inductive Credited (nvmSize : Nat) (append : Bool) : Sys → List Event → Prop
  | init {f : File} {nvm : Option NvmFile} {reset : Bool} {c : Desc} {s : Sys} : f.data.length < 2 ^ 63 →
      f.synced = f.data.length → c.append = append → c.writable = true →
      Cmd.Run Ticks (fun _ k => k = 0) (aofguardInit nvmSize reset) (.boot f nvm c) true s → Credited nvmSize append s []
  | tick {s t : Sys} {l : List Event} : Credited nvmSize append s l → Tick (fun _ k => k = 0) s t →
      Credited nvmSize append t (l ++ events s t)
  | write {s t : Sys} {l m : List Event} {d : List Byte} {ok : Bool} : Credited nvmSize append s l → d.length < 2 ^ 63 →
      Cmd.Run Ticked OnlyWriteFails ((aofguardWrite d).observe events) (s, l) ok (t, m) →
      t.guard.fsyncLen + t.guard.len < 2 ^ 63 → Credited nvmSize append t m

/-- Every call can be observed. -/
theorem Credited.call {nvmSize : Nat} {append : Bool} {s t : Sys} {l : List Event} {d : List Byte} {ok : Bool}
    (h : Credited nvmSize append s l) (hd : d.length < 2 ^ 63)
    (hr : Cmd.Run Ticks OnlyWriteFails (aofguardWrite d) s ok t) (ht : t.guard.fsyncLen + t.guard.len < 2 ^ 63) :
    ∃ m, Credited nvmSize append t m := by
  obtain ⟨m, hm⟩ := Cmd.run_observe events hr l
  exact ⟨m, h.write hd hm ht⟩

/-- The phase that the semaphores and the thread show. -/
def Sys.phase (s : Sys) : Phase :=
  if s.guard.blockCount = 0 then .idle
  else if 0 < s.guard.semDone ∨ s.guard.thread = .synced then .completed s.guard.blockCount
  else .requested s.guard.blockCount

theorem AtRest.rounds {app : Prop} {s : Sys} {l : List Event} (h : AtRest app (s, l)) : Rounds l s.phase := by
  obtain ⟨p, hcredit, hidle⟩ := h
  change s.guard.blockCount = 0 → p = .idle at hidle
  have hflow : Flow app (s.guard.fsyncLen + blockSize * s.guard.blockCount) s s.guard.blockCount p := hcredit.flow
  suffices hp : s.phase = p by
    rw [hp]
    exact hcredit.rounds
  unfold Sys.phase
  generalize s.guard.blockCount = b at hflow hidle ⊢
  cases hflow with
  | quiet => rw [if_pos rfl, hidle rfl]
  | posted hb _ h₂ h₃ => simp [hb, h₂, h₃]
  | syncing hb _ h₂ h₃ => simp [hb, h₂, h₃]
  | synced hb _ h₂ => simp [hb, h₂]
  | done hb _ _ h₃ => simp [hb, h₃]

end PmemProgram.Wal
