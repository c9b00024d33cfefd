import PmemProgram.Cxl.LockService

/-!
# The lock calls of a client (`lock.c`)

`writelock` and `readlock` send a request word and read the reply into the variable that held the word, until that
variable is `1`. What `send` and `read` return is not looked at, so a round can end with the request word itself in the
variable, or with the reply to an older request.

* `Round`, `lockLoop` : the loop, with what `send` and `read` do in each round and the replies on the connection;
* `Granted` : the server has replied `1` to the last request of the call;
* `lockLoop_granted_iff` : a loop returns on a grant only, for all replies, exactly if every read that gives a reply gives
  the one to the last request and no round ends with a request word that is `1`.
-/

namespace PmemProgram.Cxl

/-- What `send` or `read` does: all four bytes, `-1`, `0`, or `-1` after a signal. -/
inductive Io
  | done
  | failed
  | closed
  | interrupted
  deriving DecidableEq, Repr

/-- One round of the loop. -/
structure Round where
  send : Io
  read : Io
  deriving DecidableEq, Repr

/-- The request words that the call has sent and the replies that it has read. -/
structure Conn where
  sent : Nat
  taken : Nat
  deriving DecidableEq, Repr

/-- `send(sock, &lock, sizeof(int), 0)`. -/
def Conn.send (s : Conn) (o : Io) : Conn := if o = .done then { s with sent := s.sent + 1 } else s

/-- `read(sock, &lock, sizeof(int))`: what `lock` holds afterwards. -/
def Conn.read (s : Conn) (reply : Nat → Word) (lock : Word) (o : Io) : Word × Conn :=
  if o = .done then (reply s.taken, { s with taken := s.taken + 1 }) else (lock, s)

/-- The loop of `writelock` and `readlock` with the request word `word`; `reply n` is the reply that comes `n`-th on the
connection. `none` : the loop has not ended in these rounds. -/
def lockLoop (word : Word) (reply : Nat → Word) : List Round → Conn → Option Conn
  | [], _ => none
  | r :: rounds, s =>
    let s := s.send r.send
    let (lock, s) := s.read reply word r.read
    if lock = 1 then some s else lockLoop word reply rounds s

/-- `writelock`. -/
def writelock (uuid : Nat) (reply : Nat → Word) (rounds : List Round) : Option Conn :=
  lockLoop (lockWord .write uuid) reply rounds ⟨0, 0⟩

/-- `readlock`. -/
def readlock (uuid : Nat) (reply : Nat → Word) (rounds : List Round) : Option Conn :=
  lockLoop (lockWord .read uuid) reply rounds ⟨0, 0⟩

/-! ## Rounds -/

/-- The counters after a round. -/
def Conn.round (s : Conn) (r : Round) : Conn := ((s.send r.send).read (fun _ => 0) 0 r.read).2

theorem Conn.read_snd (s : Conn) (reply : Nat → Word) (lock : Word) (r : Round) :
    ((s.send r.send).read reply lock r.read).2 = s.round r := by
  unfold Conn.round Conn.read
  split_ifs
  · rfl
  · rfl

theorem Conn.read_done (s : Conn) (reply : Nat → Word) (lock : Word) {r : Round} (h : r.read = .done) :
    ((s.send r.send).read reply lock r.read).1 = reply s.taken := by
  rw [h, Conn.read, if_pos rfl]
  unfold Conn.send
  split_ifs
  · rfl
  · rfl

theorem Conn.read_lost (s : Conn) (reply : Nat → Word) (lock : Word) {r : Round} (h : r.read ≠ .done) :
    ((s.send r.send).read reply lock r.read).1 = lock := by
  rw [Conn.read, if_neg h]

theorem Conn.round_taken (s : Conn) (r : Round) :
    (s.round r).taken = if r.read = .done then s.taken + 1 else s.taken := by
  unfold Conn.round Conn.read Conn.send
  split_ifs
  · rfl
  · rfl
  · rfl
  · rfl

theorem Conn.le_round (s : Conn) (r : Round) : s.sent ≤ (s.round r).sent := by
  unfold Conn.round Conn.read Conn.send
  split_ifs
  · exact Nat.le_succ _
  · exact le_rfl
  · exact Nat.le_succ _
  · exact le_rfl

theorem lockLoop_cons (word : Word) (reply : Nat → Word) (r : Round) (rounds : List Round) (s : Conn) :
    lockLoop word reply (r :: rounds) s =
      if (if r.read = .done then reply s.taken else word) = 1 then some (s.round r)
      else lockLoop word reply rounds (s.round r) := by
  have hlock : ((s.send r.send).read reply word r.read).1 = if r.read = .done then reply s.taken else word := by
    split_ifs with h
    · exact s.read_done reply word h
    · exact s.read_lost reply word h
  rw [lockLoop]
  simp only [hlock, s.read_snd]

/-- The loop only depends on the replies that it has not read yet. -/
theorem lockLoop_congr (word : Word) {reply reply' : Nat → Word} (rounds : List Round) {s : Conn}
    (h : ∀ n, s.taken ≤ n → reply n = reply' n) : lockLoop word reply rounds s = lockLoop word reply' rounds s := by
  induction rounds generalizing s with
  | nil => rfl
  | cons r rounds ih =>
    rw [lockLoop_cons, lockLoop_cons, h s.taken le_rfl]
    rw [ih fun n hn => h n (le_trans ?_ hn)]
    rw [s.round_taken]
    split_ifs
    · exact Nat.le_succ _
    · exact le_rfl

/-! ## Grants -/

/-- No read gives a reply before its request is sent; `stale` requests of earlier calls have their replies unread when the
call starts. -/
def Possible (stale : Nat) : List Round → Conn → Prop
  | [], _ => True
  | r :: rounds, s =>
    (r.read = .done → (s.round r).taken ≤ stale + (s.round r).sent) ∧ Possible stale rounds (s.round r)

/-- The server, which has made `answered` replies, has replied `1` to the last request of the call. -/
def Granted (stale : Nat) (reply : Nat → Word) (answered : Nat) (s : Conn) : Prop :=
  0 < s.sent ∧ answered = stale + s.sent ∧ reply (stale + s.sent - 1) = 1

/-- Whatever the server replies, a loop that returns has its grant. -/
def Sure (stale : Nat) (loop : (Nat → Word) → Option Conn) : Prop :=
  ∀ reply s, loop reply = some s → ∀ answered, s.taken ≤ answered → answered ≤ stale + s.sent →
    Granted stale reply answered s

/-- Every read that gives a reply gives the one to the last request of the call. -/
def InStep (stale : Nat) : List Round → Conn → Prop
  | [], _ => True
  | r :: rounds, s =>
    (r.read = .done → 0 < (s.round r).sent ∧ (s.round r).taken = stale + (s.round r).sent) ∧
      InStep stale rounds (s.round r)

/-- Every read gives a reply. -/
def AllRead (rounds : List Round) : Prop := ∀ r ∈ rounds, r.read = .done

instance (rounds : List Round) : Decidable (AllRead rounds) := inferInstanceAs (Decidable (∀ r ∈ rounds, r.read = .done))

section
variable {word : Word} {stale : Nat} {r : Round} {rounds : List Round} {s : Conn}

/-- Before a reply that is in step the loop is safe, whatever comes after. -/
theorem Sure.of_inStep (hword : AllRead rounds ∨ word ≠ 1) (h : InStep stale rounds s) :
    Sure stale fun reply => lockLoop word reply rounds s := by
  intro reply t ht answered hle hge
  change lockLoop word reply rounds s = some t at ht
  induction rounds generalizing s with
  | nil => cases ht
  | cons r rounds ih =>
    rw [lockLoop_cons] at ht
    have htail : AllRead rounds ∨ word ≠ 1 := hword.imp_left fun hall q hq => hall q (List.mem_cons_of_mem r hq)
    by_cases hread : r.read = .done
    · rw [if_pos hread] at ht
      split_ifs at ht with hone
      · cases ht
        obtain ⟨hpos, heq⟩ := h.1 hread
        have htaken := s.round_taken r
        rw [if_pos hread] at htaken
        refine ⟨hpos, by omega, ?_⟩
        rw [show stale + (s.round r).sent - 1 = s.taken by omega]
        exact hone
      · exact ih htail h.2 ht
    · rw [if_neg hread] at ht
      have hne : word ≠ 1 := hword.resolve_left fun hall => hread (hall r List.mem_cons_self)
      rw [if_neg hne] at ht
      exact ih htail h.2 ht

/-- A safe loop does not return from a round whose read fails. -/
theorem Sure.word_ne (h : Sure stale fun reply => lockLoop word reply (r :: rounds) s)
    (hle : s.taken ≤ stale + s.sent) (hread : r.read ≠ .done) : word ≠ 1 := by
  intro hone
  have hround : ∀ reply, lockLoop word reply (r :: rounds) s = some (s.round r) := by
    intro reply
    rw [lockLoop_cons, if_neg hread, if_pos hone]
  have htaken := s.round_taken r
  rw [if_neg hread] at htaken
  have hsent := s.le_round r
  -- a server that never grants
  obtain ⟨-, -, hgrant⟩ := h (fun _ => 0) _ (hround _) (stale + (s.round r).sent) (by omega) le_rfl
  have hno : (0 : Word) ≠ 1 := by decide
  exact hno hgrant

/-- A safe loop reads in step. -/
theorem Sure.head (h : Sure stale fun reply => lockLoop word reply (r :: rounds) s) (hread : r.read = .done)
    (hposs : (s.round r).taken ≤ stale + (s.round r).sent) :
    0 < (s.round r).sent ∧ (s.round r).taken = stale + (s.round r).sent := by
  have hround : lockLoop word (fun _ => 1) (r :: rounds) s = some (s.round r) := by
    rw [lockLoop_cons, if_pos hread, if_pos rfl]
  obtain ⟨hpos, heq, -⟩ := h _ _ hround _ le_rfl hposs
  exact ⟨hpos, heq⟩

/-- What is left of a safe loop after a round without a grant is safe. -/
theorem Sure.tail (h : Sure stale fun reply => lockLoop word reply (r :: rounds) s) (hword : r.read ≠ .done → word ≠ 1) :
    Sure stale fun reply => lockLoop word reply rounds (s.round r) := by
  intro reply t ht answered hle hge
  have htaken := s.round_taken r
  -- the same server, but for a refusal in this round
  have hloop : lockLoop word (Function.update reply s.taken 0) (r :: rounds) s = some t ∨ r.read ≠ .done := by
    by_cases hread : r.read = .done
    · left
      rw [if_pos hread] at htaken
      rw [lockLoop_cons, if_pos hread, Function.update_self, if_neg (by decide), ← ht]
      apply lockLoop_congr
      intro n hn
      exact Function.update_of_ne (by omega) _ _
    · exact Or.inr hread
  rcases hloop with hloop | hread
  · obtain ⟨hpos, hall, hgrant⟩ := h _ _ hloop answered hle hge
    refine ⟨hpos, hall, ?_⟩
    by_cases hlast : stale + t.sent - 1 = s.taken
    · rw [hlast, Function.update_self] at hgrant
      exact absurd hgrant (by decide)
    · rwa [Function.update_of_ne hlast] at hgrant
  · have hloop : lockLoop word reply (r :: rounds) s = some t := by
      rw [lockLoop_cons, if_neg hread, if_neg (hword hread)]
      exact ht
    exact h reply t hloop answered hle hge

theorem Sure.inStep (h : Sure stale fun reply => lockLoop word reply rounds s) (hle : s.taken ≤ stale + s.sent)
    (hposs : Possible stale rounds s) : InStep stale rounds s ∧ (AllRead rounds ∨ word ≠ 1) := by
  induction rounds generalizing s with
  | nil => exact ⟨trivial, Or.inl fun _ h => by cases h⟩
  | cons r rounds ih =>
    have hword : r.read ≠ .done → word ≠ 1 := h.word_ne hle
    have hle' : (s.round r).taken ≤ stale + (s.round r).sent := by
      by_cases hread : r.read = .done
      · exact hposs.1 hread
      · have htaken := s.round_taken r
        rw [if_neg hread] at htaken
        have hsent := s.le_round r
        omega
    obtain ⟨hstep, hall⟩ := ih (h.tail hword) hle' hposs.2
    refine ⟨⟨fun hread => h.head hread hle', hstep⟩, ?_⟩
    by_cases hread : r.read = .done
    · refine hall.imp_left fun hall q hq => ?_
      rcases List.mem_cons.mp hq with rfl | hq
      · exact hread
      · exact hall q hq
    · exact Or.inr (hword hread)

/-- **One loop.** Whatever the server replies, it only returns on a grant, exactly if its reads are in step and no failed
read leaves a `1`. -/
theorem lockLoop_granted_iff (hposs : Possible stale rounds ⟨0, 0⟩) :
    (Sure stale fun reply => lockLoop word reply rounds ⟨0, 0⟩) ↔
      InStep stale rounds ⟨0, 0⟩ ∧ (AllRead rounds ∨ word ≠ 1) :=
  ⟨fun h => h.inStep (Nat.zero_le _) hposs, fun h => Sure.of_inStep h.2 h.1⟩

end

/-- The request words that look like a grant. -/
theorem lockWord_eq_one {type : LockType} {uuid : Nat} (h : uuid < blockNum) :
    lockWord type uuid = 1 ↔ type = .read ∧ uuid = 0 := by
  have hlt : uuid < 2 ^ 30 := by
    unfold blockNum at h
    omega
  have hword := toNat_lockWord type hlt
  rw [Nat.shiftLeft_eq] at hword
  constructor
  · intro hone
    rw [hone] at hword
    have hcode : (1 : Word).toNat = 1 := rfl
    have hzero : uuid = 0 := by omega
    cases type with
    | read => exact ⟨rfl, hzero⟩
    | _ => exact absurd hword (by simp [hzero, LockType.code])
  · rintro ⟨rfl, rfl⟩
    decide

/-- **A client enters its critical section only on a grant**, whatever the server replies, exactly if every read that
gives a reply gives the one to the last request, and for a read lock of block 0 also no read fails. -/
theorem granted_iff {uuid : Nat} (hb : uuid < blockNum) (stale : Nat) {rounds : List Round}
    (hposs : Possible stale rounds ⟨0, 0⟩) :
    (Sure stale (fun reply => writelock uuid reply rounds) ↔ InStep stale rounds ⟨0, 0⟩) ∧
      (Sure stale (fun reply => readlock uuid reply rounds) ↔
        InStep stale rounds ⟨0, 0⟩ ∧ (uuid = 0 → AllRead rounds)) := by
  constructor
  · unfold writelock
    rw [lockLoop_granted_iff hposs]
    have hword : lockWord .write uuid ≠ 1 := by
      rw [Ne, lockWord_eq_one hb]
      simp
    exact ⟨And.left, fun h => ⟨h, Or.inr hword⟩⟩
  · unfold readlock
    rw [lockLoop_granted_iff hposs]
    have hword : lockWord .read uuid = 1 ↔ uuid = 0 := by
      rw [lockWord_eq_one hb]
      simp
    rw [Ne, hword]
    apply and_congr_right
    intro _
    tauto

/-- A reader of block 0 that is refused, and granted in the next round. -/
theorem granted_iff_zero :
    Sure 0 (fun reply => readlock 0 reply [⟨.done, .done⟩, ⟨.done, .done⟩]) := by
  have hposs : Possible 0 [⟨.done, .done⟩, ⟨.done, .done⟩] ⟨0, 0⟩ := by simp [Possible, Conn.round, Conn.send, Conn.read]
  refine ((granted_iff (by decide) 0 hposs).2).mpr ⟨?_, fun _ => by decide⟩
  simp [InStep, Conn.round, Conn.send, Conn.read]

/-- `readlock` of block 0 returns from a failed read: the request word `0 << 2 | READ_LOCK` is `1` itself. The server has
not replied. -/
theorem readlock_ungranted : readlock 0 (fun _ => 0) [⟨.done, .failed⟩] = some ⟨1, 0⟩ ∧
    ∀ answered, ¬ Granted 0 (fun _ => 0) answered ⟨1, 0⟩ := by
  refine ⟨by decide, ?_⟩
  rintro answered ⟨-, -, hgrant⟩
  exact absurd hgrant (by decide)

end PmemProgram.Cxl
