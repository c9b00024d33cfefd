import PmemProgram.Lib.Cmd

/-!
# The descriptors of the lock server (`lock_service.c`, `main`)

The loop over `select`: it accepts connections, receives from them and closes them, and keeps `rfds_storage` and `max_fd`.
Descriptors are used again after they are closed, also within one pass over the set.

* `accept`, `recv`, `close`, `fdSet` : the calls, each with what it asserts about its descriptor;
* `visit`, `forLoop`, `mainLoop` : the body of the loop, the pass over the set, and so many rounds;
* `Right` : the events of the log happen to descriptors that are what they are taken for;
* `Inv` : what holds between the calls; `descriptors_right` : so no call fails, and the ready connections are served once.
-/

namespace PmemProgram.Cxl.Descriptors
open PmemProgram.Lib

/-- `FD_SETSIZE`. -/
def fdSetSize : Nat := 1024

/-- An open descriptor: the listening socket, a connection by its number, or something else. -/
inductive File
  | listening
  | connection (c : Nat)
  | other
  deriving DecidableEq

inductive Event
  | accepted (fd c : Nat)
  | received (fd c : Nat)
  | closed (fd c : Nat)

/-- The descriptors of the process with the number of connections accepted and the log, and the variables of `main`. -/
structure St where
  files : Nat → Option File
  accepted : Nat
  log : List Event
  rfdsStorage : Nat → Bool
  maxFd : Nat

inductive Ask
  | select
  | accept
  | recv

abbrev Code (α : Type) : Type := Cmd Ask St α

/-- The connection behind a descriptor. -/
def St.connection (s : St) (fd : Nat) : Option Nat :=
  match s.files fd with
  | some (.connection c) => some c
  | _ => none

/-- The lowest free descriptor below the limit of the process. -/
def St.free (s : St) (limit : Nat) : Option Nat := (List.range limit).find? fun fd => (s.files fd).isNone

def St.addConnection (s : St) (fd : Nat) : St :=
  { s with
    files := Function.update s.files fd (some (.connection s.accepted))
    accepted := s.accepted + 1
    log := s.log ++ [.accepted fd s.accepted] }

def St.addReceived (s : St) (fd c : Nat) : St := { s with log := s.log ++ [.received fd c] }

def St.dropConnection (s : St) (fd c : Nat) : St :=
  { s with files := Function.update s.files fd none, log := s.log ++ [.closed fd c] }

/-- `accept`: the new descriptor, if there is one. -/
def accept (limit sock : Nat) : Code (Option Nat) := do
  let file ← Cmd.get fun s => s.files sock
  Cmd.check (file = some .listening)
  let ok ← Cmd.succeeds .accept
  if ok then do
    let free ← Cmd.get fun s => s.free limit
    match free with
    | none => return none
    | some fd => do
      Cmd.modify fun s => s.addConnection fd
      return some fd
  else return none

/-- `recv`: whether it returns data. -/
def recv (fd : Nat) : Code Bool := do
  let connection ← Cmd.get fun s => s.connection fd
  match connection with
  | none => do
    Cmd.check False
    return false
  | some c => do
    let ok ← Cmd.succeeds .recv
    if ok then do
      Cmd.modify fun s => s.addReceived fd c
      return true
    else return false

/-- `close` of a connection. -/
def close (fd : Nat) : Code Unit := do
  let connection ← Cmd.get fun s => s.connection fd
  match connection with
  | none => Cmd.check False
  | some c => Cmd.modify fun s => s.dropConnection fd c

/-- `FD_SET` and `FD_CLR` of `rfds_storage`. -/
def fdSet (fd : Nat) (watched : Bool) : Code Unit := do
  Cmd.check (fd < fdSetSize)
  Cmd.modify fun s => { s with rfdsStorage := Function.update s.rfdsStorage fd watched }

/-- The body of the `for` loop; `handle_lock` follows a `recv` that returns data. -/
def visit (limit sock : Nat) (rfds : Nat → Bool) (fd : Nat) : Code Unit :=
  if rfds fd then
    if fd = sock then do
      let newFd ← accept limit sock
      match newFd with
      | none => return ()
      | some newFd => do
        fdSet newFd true
        Cmd.modify fun s => { s with maxFd := if newFd ≤ s.maxFd then s.maxFd else newFd }
    else do
      let ok ← recv fd
      if ok then return ()
      else do
        close fd
        fdSet fd false
  else return ()

/-- The `for` loop from `fd`, with so many descriptors of an `fd_set` left; `max_fd` is read again each time. -/
def forLoop (limit sock : Nat) (rfds : Nat → Bool) : Nat → Nat → Code Unit
  | 0, fd => do
    let maxFd ← Cmd.get St.maxFd
    Cmd.check (¬ fd < maxFd + 1)
  | n + 1, fd => do
    let maxFd ← Cmd.get St.maxFd
    if fd < maxFd + 1 then do
      visit limit sock rfds fd
      forLoop limit sock rfds n (fd + 1)
    else return ()

/-- What `select` leaves in `rfds`: some of the descriptors, by the bits of the answer. -/
def St.select (s : St) (answer : Nat) (fd : Nat) : Bool := s.rfdsStorage fd && decide (fd < s.maxFd + 1) && answer.testBit fd

/-- The connections of a range of descriptors that are ready. -/
def readyIn (rfds : Nat → Bool) (connection : Nat → Option Nat) (fds : List Nat) : List (Nat × Nat) :=
  fds.filterMap fun fd => if rfds fd then (connection fd).map (Prod.mk fd) else none

/-- Rounds of the `while` loop, up to the first error of `select`, with the connections that are ready in each; when nothing
is ready the pass over the set does nothing. -/
def mainLoop : Nat → Nat → Nat → Code (List (List (Nat × Nat)))
  | _, _, 0 => return []
  | limit, sock, rounds + 1 => .ask .select fun answer => do
    let rfds ← Cmd.get fun s => s.select answer
    let ready ← Cmd.get fun s => readyIn rfds s.connection (List.range' 0 fdSetSize)
    forLoop limit sock rfds fdSetSize 0
    let rest ← mainLoop limit sock rounds
    return ready :: rest

/-! ## The log -/

def Event.number : Event → Nat
  | accepted _ c => c
  | received _ c => c
  | closed _ c => c

/-- The connection behind a descriptor after an event. -/
def Event.after (fd : Nat) (last : Option Nat) : Event → Option Nat
  | accepted fd' c => if fd' = fd then some c else last
  | received _ _ => last
  | closed fd' _ => if fd' = fd then none else last

/-- The connection behind a descriptor, by the log. -/
def current (log : List Event) (fd : Nat) : Option Nat := log.foldl (Event.after fd) none

/-- A new connection has a new number and a descriptor that is free; data is received from an open connection, and only such
a one is closed. -/
def Event.Right (before : List Event) : Event → Prop
  | accepted fd c => current before fd = none ∧ ∀ e ∈ before, e.number ≠ c
  | received fd c => current before fd = some c
  | closed fd c => current before fd = some c

def LogRight (log : List Event) : Prop := ∀ before e, before ++ [e] <+: log → e.Right before

/-- The connection that is served by an event, with its descriptor. -/
def Event.served : Event → Option (Nat × Nat)
  | accepted _ _ => none
  | received fd c => some (fd, c)
  | closed fd c => some (fd, c)

theorem current_concat (log : List Event) (e : Event) (fd : Nat) :
    current (log ++ [e]) fd = e.after fd (current log fd) := List.foldl_concat ..

theorem LogRight.concat {log : List Event} {e : Event} (h : LogRight log) (he : e.Right log) : LogRight (log ++ [e]) := by
  intro before e' hp
  rcases List.prefix_concat_iff.mp hp with heq | hp
  · obtain ⟨hb, heq⟩ := List.append_inj' heq rfl
    cases heq
    rwa [hb]
  · exact h before e' hp

/-- The connections of a log are those that it has accepted. -/
theorem mem_of_current {log : List Event} {fd c : Nat} (h : current log fd = some c) : ∃ e ∈ log, e.number = c := by
  induction log using List.reverseRecOn with
  | nil => cases h
  | append_singleton log e ih =>
    rw [current_concat] at h
    have hold : current log fd = some c → ∃ e' ∈ log ++ [e], e'.number = c := fun hlog => by
      obtain ⟨e', he', hc⟩ := ih hlog
      exact ⟨e', List.mem_append_left _ he', hc⟩
    cases e with
    | accepted fd' c' =>
      rw [Event.after] at h
      split_ifs at h
      · cases h
        exact ⟨_, List.mem_append_right _ (List.mem_singleton_self _), rfl⟩
      · exact hold h
    | received fd' c' => exact hold h
    | closed fd' c' =>
      rw [Event.after] at h
      split_ifs at h
      exact hold h

/-! ## The invariant -/

/-- The connections and the listening socket are watched, below `max_fd`; the log knows the connections and is right. -/
structure Inv (sock : Nat) (s : St) : Prop where
  watched : ∀ fd, s.rfdsStorage fd = true ↔ fd = sock ∨ ∃ c, s.connection fd = some c
  listening : s.files sock = some .listening
  bound : ∀ fd, s.rfdsStorage fd = true → fd ≤ s.maxFd
  small : s.maxFd < fdSetSize
  current : ∀ fd, s.connection fd = current s.log fd
  numbers : ∀ e ∈ s.log, e.number < s.accepted
  right : LogRight s.log

/-- The descriptors from `fd` on that were ready are still what they were. -/
def Pending (sock : Nat) (rfds : Nat → Bool) (connection : Nat → Option Nat) (fd : Nat) (s : St) : Prop :=
  ∀ fd', fd ≤ fd' → rfds fd' = true →
    s.connection fd' = connection fd' ∧ (fd' = sock ∨ ∃ c, connection fd' = some c) ∧ fd' ≤ s.maxFd

section
variable {s : St} {fd c limit sock : Nat} {rfds : Nat → Bool} {connection : Nat → Option Nat} {G : Ask → Nat → Prop}

theorem connection_eq : s.connection fd = some c ↔ s.files fd = some (.connection c) := by
  unfold St.connection
  split
  · rename_i c' hfile
    rw [hfile]
    simp
  · rename_i hother
    exact iff_of_false (Option.some_ne_none c).symm (hother c)

theorem Inv.connection_sock (h : Inv sock s) : s.connection sock = none := by
  rw [St.connection, h.listening]

theorem Inv.number_lt (h : Inv sock s) (hc : s.connection fd = some c) : c < s.accepted := by
  obtain ⟨e, he, rfl⟩ := mem_of_current ((h.current fd).symm.trans hc)
  exact h.numbers e he

theorem free_spec (hfree : s.free limit = some fd) : fd < limit ∧ s.files fd = none := by
  refine ⟨List.mem_range.mp (List.mem_of_find?_eq_some hfree), ?_⟩
  simpa using List.find?_some hfree

theorem connection_add (s : St) (fd fd' : Nat) :
    (s.addConnection fd).connection fd' = if fd' = fd then some s.accepted else s.connection fd' := by
  unfold St.connection St.addConnection
  by_cases hfd : fd' = fd
  · subst hfd
    simp
  · simp [hfd]

theorem connection_drop (s : St) (fd c fd' : Nat) :
    (s.dropConnection fd c).connection fd' = if fd' = fd then none else s.connection fd' := by
  unfold St.connection St.dropConnection
  by_cases hfd : fd' = fd
  · subst hfd
    simp
  · simp [hfd]

/-! ## One descriptor -/

/-- The state after a connection has been accepted and watched. -/
def St.watchNew (s : St) (fd : Nat) : St :=
  { s.addConnection fd with
    rfdsStorage := Function.update s.rfdsStorage fd true
    maxFd := if fd ≤ s.maxFd then s.maxFd else fd }

/-- The state after a connection has been closed and is not watched any more. -/
def St.unwatch (s : St) (fd c : Nat) : St :=
  { s.dropConnection fd c with rfdsStorage := Function.update s.rfdsStorage fd false }

theorem Inv.watchNew (h : Inv sock s) (hfree : s.files fd = none) (hfd : fd < fdSetSize) : Inv sock (s.watchNew fd) := by
  have hne : fd ≠ sock := by
    rintro rfl
    rw [h.listening] at hfree
    cases hfree
  have hnone : s.connection fd = none := by rw [St.connection, hfree]
  have hconn : ∀ fd', (s.watchNew fd).connection fd' = if fd' = fd then some s.accepted else s.connection fd' :=
    connection_add s fd
  refine ⟨fun fd' => ?_, ?_, fun fd' hw => ?_, ?_, fun fd' => ?_, fun e he => ?_, ?_⟩
  · rw [hconn]
    show Function.update s.rfdsStorage fd true fd' = true ↔ _
    rw [Function.update_apply]
    split_ifs with hfd'
    · exact iff_of_true rfl (Or.inr ⟨_, rfl⟩)
    · exact h.watched fd'
  · show Function.update s.files fd _ sock = _
    rw [Function.update_of_ne hne.symm]
    exact h.listening
  · show fd' ≤ if fd ≤ s.maxFd then s.maxFd else fd
    have hw' : Function.update s.rfdsStorage fd true fd' = true := hw
    rw [Function.update_apply] at hw'
    by_cases hfd' : fd' = fd
    · subst hfd'
      split_ifs with hle
      · exact hle
      · exact le_rfl
    · rw [if_neg hfd'] at hw'
      have hold := h.bound fd' hw'
      split_ifs <;> omega
  · show (if fd ≤ s.maxFd then s.maxFd else fd) < fdSetSize
    split_ifs
    · exact h.small
    · exact hfd
  · rw [hconn, h.current fd']
    show _ = Descriptors.current (s.log ++ [.accepted fd s.accepted]) fd'
    rw [current_concat, Event.after]
    simp only [eq_comm]
  · rcases List.mem_append.mp he with he | he
    · exact (h.numbers e he).trans (Nat.lt_succ_self _)
    · rw [List.mem_singleton.mp he]
      exact Nat.lt_succ_self _
  · refine h.right.concat ⟨?_, fun e he => (h.numbers e he).ne⟩
    rw [← h.current fd, hnone]

theorem Inv.addReceived (h : Inv sock s) (hc : s.connection fd = some c) : Inv sock (s.addReceived fd c) := by
  refine ⟨h.watched, h.listening, h.bound, h.small, fun fd' => ?_, fun e he => ?_, h.right.concat ?_⟩
  · show s.connection fd' = Descriptors.current (s.log ++ [.received fd c]) fd'
    rw [current_concat, h.current fd']
    rfl
  · rcases List.mem_append.mp he with he | he
    · exact h.numbers e he
    · rw [List.mem_singleton.mp he]
      exact h.number_lt hc
  · exact (h.current fd).symm.trans hc

theorem Inv.unwatch (h : Inv sock s) (hc : s.connection fd = some c) : Inv sock (s.unwatch fd c) := by
  have hne : fd ≠ sock := by
    rintro rfl
    rw [h.connection_sock] at hc
    cases hc
  have hconn : ∀ fd', (s.unwatch fd c).connection fd' = if fd' = fd then none else s.connection fd' :=
    connection_drop s fd c
  have hstorage : ∀ fd', (s.unwatch fd c).rfdsStorage fd' = if fd' = fd then false else s.rfdsStorage fd' := fun fd' =>
    Function.update_apply ..
  refine ⟨fun fd' => ?_, ?_, fun fd' hw => ?_, h.small, fun fd' => ?_, fun e he => ?_, h.right.concat ?_⟩
  · rw [hconn, hstorage]
    split_ifs with hfd'
    · subst hfd'
      simp [hne]
    · exact h.watched fd'
  · show Function.update s.files fd none sock = _
    rw [Function.update_of_ne hne.symm]
    exact h.listening
  · rw [hstorage] at hw
    split_ifs at hw
    exact h.bound fd' hw
  · rw [hconn, h.current fd']
    show _ = Descriptors.current (s.log ++ [.closed fd c]) fd'
    rw [current_concat, Event.after]
    simp only [eq_comm]
  · rcases List.mem_append.mp he with he | he
    · exact h.numbers e he
    · rw [List.mem_singleton.mp he]
      exact h.number_lt hc
  · exact (h.current fd).symm.trans hc

/-- Weakest precondition without interference. -/
abbrev dwp (G : Ask → Nat → Prop) {α : Type} (c : Code α) (Q : α → St → Prop) (s : St) : Prop :=
  Cmd.wp (fun s t => s = t) G (fun _ => True) c Q s

/-- The connections that the log has served. -/
def served (log : List Event) : List (Nat × Nat) := log.filterMap Event.served

theorem served_concat (log : List Event) (e : Event) : served (log ++ [e]) = served log ++ e.served.toList := by
  rw [served, List.filterMap_append]
  cases h : e.served <;> simp [served, h]

/-- A visit serves the descriptor if it is ready, and leaves those after it as they were. -/
structure Visited (sock : Nat) (rfds : Nat → Bool) (connection : Nat → Option Nat) (fd : Nat) (s t : St) : Prop where
  inv : Inv sock t
  pending : Pending sock rfds connection (fd + 1) t
  served : served t.log = served s.log ++ readyIn rfds connection [fd]

theorem Pending.next (h : Pending sock rfds connection fd s) : Pending sock rfds connection (fd + 1) s :=
  fun fd' hle hr => h fd' (Nat.le_of_succ_le hle) hr

theorem readyIn_sock (h : Inv sock s) (hp : Pending sock rfds connection sock s) (hr : rfds sock = true) :
    readyIn rfds connection [sock] = [] := by
  have hnone : connection sock = none := (hp sock le_rfl hr).1.symm.trans h.connection_sock
  simp [readyIn, hr, hnone]

theorem wp_accept {Q : Option Nat → St → Prop} (h : Inv sock s) (hnone : Q none s)
    (hnew : ∀ fd, fd < limit → s.files fd = none → Q (some fd) (s.addConnection fd)) :
    dwp G (accept limit sock) Q s := by
  simp only [dwp, accept, Cmd.wp_bind, Cmd.wp_get, Cmd.wp_check, Cmd.wp_succeeds, Cmd.wp_ite, Cmd.wp_pure]
  refine ⟨h.listening, fun n _ => ⟨fun _ => ?_, fun _ => hnone⟩⟩
  cases hfree : s.free limit with
  | none => exact hnone
  | some fd =>
    obtain ⟨hlt, hfile⟩ := free_spec hfree
    exact hnew fd hlt hfile

theorem wp_fdSet {Q : Unit → St → Prop} {watched : Bool} (hfd : fd < fdSetSize)
    (hQ : Q () { s with rfdsStorage := Function.update s.rfdsStorage fd watched }) : dwp G (fdSet fd watched) Q s := by
  simp only [dwp, fdSet, Cmd.wp_bind, Cmd.wp_check, Cmd.wp_modify]
  exact ⟨hfd, hQ⟩

theorem wp_close {Q : Unit → St → Prop} (hc : s.connection fd = some c) (hQ : Q () (s.dropConnection fd c)) :
    dwp G (close fd) Q s := by
  simp only [dwp, close, Cmd.wp_bind, Cmd.wp_get, hc]
  exact hQ

/-- The listening socket is ready: a connection is accepted, or there is none to be had. -/
theorem wp_visit_sock (hlimit : limit ≤ fdSetSize) (h : Inv sock s) (hp : Pending sock rfds connection sock s)
    (hr : rfds sock = true) : dwp G (visit limit sock rfds sock) (fun _ t => Visited sock rfds connection sock s t) s := by
  have hserved := readyIn_sock h hp hr
  rw [visit, if_pos hr, if_pos rfl, dwp, Cmd.wp_bind]
  refine wp_accept h ⟨h, hp.next, by rw [hserved, List.append_nil]⟩ fun fd hlt hfile => ?_
  rw [Cmd.wp_bind]
  refine wp_fdSet (hlt.trans_le hlimit) ⟨h.watchNew hfile (hlt.trans_le hlimit), fun fd' hle hr' => ?_, ?_⟩
  · obtain ⟨hconn, hkind, hmax⟩ := hp.next fd' hle hr'
    -- the new descriptor was free, so it is none of those that are ready
    have hne : fd' ≠ fd := by
      rintro rfl
      rcases hkind with rfl | ⟨c, hc⟩
      · exact absurd hle (Nat.not_succ_le_self _)
      · rw [hc] at hconn
        rw [connection_eq.mp hconn] at hfile
        cases hfile
    refine ⟨?_, hkind, ?_⟩
    · refine Eq.trans ?_ hconn
      exact (connection_add s fd fd').trans (if_neg hne)
    · show fd' ≤ if fd ≤ s.maxFd then s.maxFd else fd
      split_ifs <;> omega
  · show served (s.log ++ [.accepted fd s.accepted]) = _
    rw [served_concat, hserved]
    rfl

/-- A connection is ready: it gets its words handled, or it is closed. -/
theorem wp_visit_connection (h : Inv sock s) (hp : Pending sock rfds connection fd s) (hr : rfds fd = true)
    (hne : fd ≠ sock) : dwp G (visit limit sock rfds fd) (fun _ t => Visited sock rfds connection fd s t) s := by
  obtain ⟨hconn, hkind, hmax⟩ := hp fd le_rfl hr
  obtain ⟨c, hc⟩ := hkind.resolve_left hne
  have hc' : s.connection fd = some c := hconn.trans hc
  have hserved : readyIn rfds connection [fd] = [(fd, c)] := by simp [readyIn, hr, hc]
  rw [visit, if_pos hr, if_neg hne, dwp, Cmd.wp_bind]
  simp only [recv, Cmd.wp_bind, Cmd.wp_get, hc']
  rw [Cmd.wp_succeeds]
  refine fun n _ => (Cmd.wp_ite _ _ _).mpr ⟨fun _ => ?_, fun _ => ?_⟩
  · refine ⟨h.addReceived hc', fun fd' hle hr' => hp.next fd' hle hr', ?_⟩
    show served (s.log ++ [.received fd c]) = _
    rw [served_concat, hserved]
    rfl
  · show dwp G (close fd >>= fun _ => fdSet fd false) _ s
    rw [dwp, Cmd.wp_bind]
    refine wp_close hc' (wp_fdSet (hmax.trans_lt h.small) ⟨h.unwatch hc', fun fd' hle hr' => ?_, ?_⟩)
    · obtain ⟨hconn', hkind', hmax'⟩ := hp.next fd' hle hr'
      refine ⟨Eq.trans ?_ hconn', hkind', hmax'⟩
      exact (connection_drop s fd c fd').trans (if_neg (by omega))
    · show served (s.log ++ [.closed fd c]) = _
      rw [served_concat, hserved]
      rfl

theorem wp_visit (hlimit : limit ≤ fdSetSize) (h : Inv sock s) (hp : Pending sock rfds connection fd s) :
    dwp G (visit limit sock rfds fd) (fun _ t => Visited sock rfds connection fd s t) s := by
  by_cases hr : rfds fd = true
  · by_cases hsock : fd = sock
    · subst hsock
      exact wp_visit_sock hlimit h hp hr
    · exact wp_visit_connection h hp hr hsock
  · rw [visit, if_neg hr]
    exact ⟨h, hp.next, by simp [readyIn, hr]⟩

/-! ## A pass, and any number of rounds -/

/-- The pass serves the ready connections in the order of their descriptors; it stops behind all of them. -/
theorem wp_forLoop (hlimit : limit ≤ fdSetSize) {n : Nat} (hn : n + fd = fdSetSize) (h : Inv sock s)
    (hp : Pending sock rfds connection fd s) :
    dwp G (forLoop limit sock rfds n fd)
      (fun _ t => Inv sock t ∧ served t.log = served s.log ++ readyIn rfds connection (List.range' fd n)) s := by
  induction n generalizing fd s with
  | zero =>
    have hsmall := h.small
    simp only [dwp, forLoop, Cmd.wp_bind, Cmd.wp_get, Cmd.wp_check]
    exact ⟨by omega, h, by simp [readyIn]⟩
  | succ n ih =>
    simp only [dwp, forLoop, Cmd.wp_bind, Cmd.wp_get]
    refine (Cmd.wp_ite _ _ _).mpr ⟨fun _ => ?_, fun hend => ⟨h, ?_⟩⟩
    · rw [Cmd.wp_bind]
      refine Cmd.wp_conseq (wp_visit hlimit h hp) fun _ t ht => ?_
      refine Cmd.wp_conseq (ih (by omega) ht.inv ht.pending) ?_
      rintro - u ⟨hu, hserved⟩
      refine ⟨hu, ?_⟩
      have hrange : readyIn rfds connection (List.range' fd (n + 1)) =
          readyIn rfds connection [fd] ++ readyIn rfds connection (List.range' (fd + 1) n) :=
        List.filterMap_append (l := [fd])
      rw [hserved, ht.served, hrange, List.append_assoc]
    · have hnone : readyIn rfds connection (List.range' fd (n + 1)) = [] := by
        refine List.filterMap_eq_nil_iff.mpr fun fd' hmem => if_neg fun hr => ?_
        have hle := (List.mem_range'_1.mp hmem).1
        have hmax := (hp fd' hle hr).2.2
        omega
      rw [hnone, List.append_nil]

/-- What `select` reports are descriptors that are watched. -/
theorem Inv.pending (h : Inv sock s) (answer : Nat) : Pending sock (s.select answer) s.connection 0 s := by
  intro fd _ hr
  have hw : s.rfdsStorage fd = true := by
    unfold St.select at hr
    simp only [Bool.and_eq_true] at hr
    exact hr.1.1
  exact ⟨rfl, (h.watched fd).mp hw, h.bound fd hw⟩

theorem wp_mainLoop (hlimit : limit ≤ fdSetSize) (h : Inv sock s) (rounds : Nat) :
    dwp G (mainLoop limit sock rounds) (fun ready t => Inv sock t ∧ served t.log = served s.log ++ ready.flatten) s := by
  induction rounds generalizing s with
  | zero => exact ⟨h, (List.append_nil _).symm⟩
  | succ rounds ih =>
    intro answer _
    simp only [Cmd.wp_bind, Cmd.wp_get]
    refine Cmd.wp_conseq (wp_forLoop hlimit rfl h (h.pending answer)) ?_
    rintro - t ⟨ht, hserved⟩
    refine Cmd.wp_conseq (ih ht) ?_
    rintro ready u ⟨hu, hrest⟩
    exact ⟨hu, by rw [hrest, hserved, List.flatten_cons, List.append_assoc]⟩

/-- `main` before its first round: the socket listens and is watched, and there are no connections. -/
structure Started (sock : Nat) (s : St) : Prop where
  listening : s.files sock = some .listening
  alone : ∀ fd, s.connection fd = none
  storage : ∀ fd, s.rfdsStorage fd = true ↔ fd = sock
  maxFd : s.maxFd = sock
  log : s.log = []

theorem Started.inv (h : Started sock s) (hsock : sock < fdSetSize) : Inv sock s := by
  refine ⟨fun fd => ?_, h.listening, fun fd hw => ?_, h.maxFd ▸ hsock, fun fd => ?_, fun e he => ?_, fun before e hp => ?_⟩
  · rw [h.storage, h.alone]
    simp
  · rw [h.maxFd]
    exact ((h.storage fd).mp hw).le
  · rw [h.alone, h.log]
    rfl
  · rw [h.log] at he
    exact absurd he List.not_mem_nil
  · rw [h.log] at hp
    simpa using hp.length_le

/-- **The server keeps its descriptors straight.** With a limit on descriptors that an `fd_set` has room for, in every run
of the loop no call is made on a descriptor that is closed, of the wrong kind or beyond the set; what is received and
closed belongs to the connection that was accepted on the descriptor last; all open connections are watched, and only they;
and in each round exactly the ready connections are served, each once. -/
theorem descriptors_right (hlimit : limit ≤ fdSetSize) (hsock : sock < fdSetSize) (h : Started sock s) (rounds : Nat) :
    ¬ Cmd.Aborts (fun s t => s = t) G (mainLoop limit sock rounds) s ∧
      ∀ ready t, Cmd.Run (fun s t => s = t) G (mainLoop limit sock rounds) s ready t →
        LogRight t.log ∧ served t.log = ready.flatten ∧
          (∀ fd, t.rfdsStorage fd = true ↔ fd = sock ∨ ∃ c, t.connection fd = some c) ∧
          (∀ fd, t.connection fd = current t.log fd) ∧ ∀ fd, t.rfdsStorage fd = true → fd ≤ t.maxFd := by
  have hwp := wp_mainLoop (G := G) hlimit (h.inv hsock) rounds
  refine ⟨Cmd.wp_not_aborts hwp, fun ready t hrun => ?_⟩
  obtain ⟨ht, hserved⟩ := Cmd.wp_run hwp hrun
  rw [h.log] at hserved
  exact ⟨ht.right, hserved, ht.watched, ht.current, ht.bound⟩

end

theorem total_fdSet (fd : Nat) (watched : Bool) : (fdSet fd watched).Total :=
  Cmd.total_bind (Cmd.total_check _) fun _ => Cmd.total_modify _

theorem total_accept (limit sock : Nat) : (accept limit sock).Total := by
  refine Cmd.total_bind (Cmd.total_get _) fun _ => Cmd.total_bind (Cmd.total_check _) fun _ =>
    Cmd.total_bind (Cmd.total_succeeds _) fun _ => Cmd.total_ite ?_ (Cmd.total_pure _)
  refine Cmd.total_bind (Cmd.total_get _) fun free => ?_
  cases free with
  | none => exact Cmd.total_pure _
  | some fd => exact Cmd.total_bind (Cmd.total_modify _) fun _ => Cmd.total_pure _

theorem total_recv (fd : Nat) : (recv fd).Total := by
  refine Cmd.total_bind (Cmd.total_get _) fun connection => ?_
  cases connection with
  | none => exact Cmd.total_bind (Cmd.total_check _) fun _ => Cmd.total_pure _
  | some c =>
    exact Cmd.total_bind (Cmd.total_succeeds _) fun _ =>
      Cmd.total_ite (Cmd.total_bind (Cmd.total_modify _) fun _ => Cmd.total_pure _) (Cmd.total_pure _)

theorem total_close (fd : Nat) : (close fd).Total := by
  refine Cmd.total_bind (Cmd.total_get _) fun connection => ?_
  cases connection with
  | none => exact Cmd.total_check _
  | some c => exact Cmd.total_modify _

theorem total_visit (limit sock : Nat) (rfds : Nat → Bool) (fd : Nat) : (visit limit sock rfds fd).Total := by
  refine Cmd.total_ite (Cmd.total_ite ?_ ?_) (Cmd.total_pure _)
  · refine Cmd.total_bind (total_accept _ _) fun newFd => ?_
    cases newFd with
    | none => exact Cmd.total_pure _
    | some newFd => exact Cmd.total_bind (total_fdSet _ _) fun _ => Cmd.total_modify _
  · exact Cmd.total_bind (total_recv _) fun _ =>
      Cmd.total_ite (Cmd.total_pure _) (Cmd.total_bind (total_close _) fun _ => total_fdSet _ _)

theorem total_forLoop (limit sock : Nat) (rfds : Nat → Bool) (n fd : Nat) : (forLoop limit sock rfds n fd).Total := by
  induction n generalizing fd with
  | zero => exact Cmd.total_bind (Cmd.total_get _) fun _ => Cmd.total_check _
  | succ n ih =>
    exact Cmd.total_bind (Cmd.total_get _) fun _ =>
      Cmd.total_ite (Cmd.total_bind (total_visit _ _ _ _) fun _ => ih _) (Cmd.total_pure _)

theorem total_mainLoop (limit sock rounds : Nat) : (mainLoop limit sock rounds).Total := by
  induction rounds with
  | zero => exact Cmd.total_pure _
  | succ rounds ih =>
    exact fun _ => Cmd.total_bind (Cmd.total_get _) fun _ => Cmd.total_bind (Cmd.total_get _) fun _ =>
      Cmd.total_bind (total_forLoop _ _ _ _ _) fun _ => Cmd.total_bind ih fun _ => Cmd.total_pure _

/-- The server has the descriptor 3. -/
def started : St where
  files := fun fd => if fd < 3 then some .other else if fd = 3 then some .listening else none
  accepted := 0
  log := []
  rfdsStorage := fun fd => fd == 3
  maxFd := 3

theorem started_started : Started 3 started := by
  refine ⟨rfl, fun fd => ?_, fun fd => beq_iff_eq, rfl, rfl⟩
  cases hconn : started.connection fd with
  | none => rfl
  | some c =>
    have hfile : (if fd < 3 then some File.other else if fd = 3 then some .listening else none) = some (.connection c) :=
      connection_eq.mp hconn
    split_ifs at hfile <;> cases hfile

/-- Three rounds, in which the descriptors 3 and 4 are ready as soon as they are watched: descriptor 4 is a client that is
closed and then, perhaps, another one. -/
theorem descriptors_right_closed : ∃ ready t,
    Cmd.Run (fun s t => s = t) (fun q n => q = .select ∧ n = 24 ∨ q = .accept ∧ n = 0 ∨ q = .recv ∧ n = 1)
      (mainLoop fdSetSize 3 3) started ready t ∧ LogRight t.log ∧ served t.log = ready.flatten := by
  obtain ⟨hsafe, hall⟩ := descriptors_right (G := fun q n => q = .select ∧ n = 24 ∨ q = .accept ∧ n = 0 ∨ q = .recv ∧ n = 1)
    le_rfl (by decide) started_started 3
  have hA : ∀ q : Ask, ∃ n, q = .select ∧ n = 24 ∨ q = .accept ∧ n = 0 ∨ q = .recv ∧ n = 1 := fun q => by
    cases q <;> simp
  obtain ⟨ready, t, hrun⟩ := Cmd.returns (fun _ => rfl) hA (total_mainLoop fdSetSize 3 3) hsafe
  obtain ⟨hright, hserved, -⟩ := hall ready t hrun
  exact ⟨ready, t, hrun, hright, hserved⟩

end PmemProgram.Cxl.Descriptors
