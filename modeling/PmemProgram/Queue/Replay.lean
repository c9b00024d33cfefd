import PmemProgram.Queue.Drained
import PmemProgram.Queue.AofLog

/-!
# The log of the queue, and its replay (`main` of `queue_aof.cpp`)

* `mainLoop` : the command loop, which does each command and writes it to the log; `startUp` : the loop that reads the log;
* `Entry` : what a line of the log is for; `wp_mainLoop`, `wp_startUp` : the queue and the log after the two loops;
* `replay_iff` : a new process has the queue of the process that wrote the log exactly if no value has ever been taken out.
-/

namespace PmemProgram.Queue.Aof
open PmemProgram.Lib PmemProgram.Lib.Objects

/-! ## The two loops -/

/-- `fwrite` to the end of the log, `fflush` and `fsync`. -/
def logLine (line : List Char) : Prog Unit := .modify fun s => { s with file := s.file ++ line }

/-- A value is put in and written to the log. -/
def enqueLogged (value : Int32) : Prog Unit := do
  queueEnqueV value
  logLine (enqueLine value)

/-- `for(value=0;value<10000;value++)`. -/
@[irreducible] def prequeValues : List Int32 := (List.range 10000).map Int32.ofNat

def enqueAll : List Int32 → Prog Unit
  | [] => return ()
  | value :: values => do
    enqueLogged value
    enqueAll values

/-- A command that the loop accepts. -/
inductive Command
  | enque (value : Int32)
  | deque
  | showQueue
  | preque
  deriving DecidableEq

/-- The command for a word and the value after it; other words end the process. -/
def readCommand (word : List Char) (value : Int32) : Option Command :=
  match parseQueOps word with
  | .enque => some (.enque value)
  | .deque => some .deque
  | .showQueue => some .showQueue
  | .preque => some .preque
  | .maxOps => none

/-- The commands of an input until the process ends. -/
def accepted : List (List Char × Int32) → List Command
  | [] => []
  | (word, value) :: input => ((readCommand word value).map (· :: accepted input)).getD []

/-- One round of the command loop, with what it prints; `queue_show` may go through its loop so many times. -/
def Command.perform (rounds : Nat) : Command → Prog Out
  | enque value => do
    enqueLogged value
    return .enqued
  | deque => do
    let value ← queueDequeV
    logLine dequeLine
    return .dequed value
  | showQueue => do return .shown ((← queueShow rounds).map Prod.snd)
  | preque => do
    enqueAll prequeValues
    return .enqued

/-- The command loop of `main`. -/
def mainLoop (rounds : Nat) (input : List (List Char × Int32)) : Prog (List Out) :=
  Machine.serveAll (Command.perform rounds) (accepted input)

/-- One round of the start-up loop; `strcmp` and `atoi` of null fail. -/
def replayLine (line : List Char) : Prog Unit := do
  .check ((strtok line).1 ≠ [])
  if parseQueOps (strtok line).1 = .enque then
    .check ((strtok (strtok line).2).1 ≠ [])
    queueEnqueV (atoi (strtok (strtok line).2).1)
  else if parseQueOps (strtok line).1 = .deque then
    let _ ← queueDequeV
    return ()
  else return ()

/-- The start-up loop, for so many rounds at most. `buf` has room for 31 characters. -/
def replay : Nat → List Char → Prog Unit
  | 0, _ => return ()
  | rounds + 1, file =>
    if (fgets 31 file).1 = [] then return ()
    else do
      replayLine (fgets 31 file).1
      replay rounds (fgets 31 file).2

/-- The start-up loop of `main`; every round reads a character at least. -/
def startUp : Prog Unit := do
  let file ← .get St.file
  replay file.length file

/-! ## What the lines are for -/

inductive Entry
  | enque (value : Int32)
  | deque

def Entry.line : Entry → List Char
  | enque value => enqueLine value
  | deque => dequeLine

/-- What the start-up loop does for a line. -/
def Entry.replayed : Entry → List Op
  | enque value => [.queueEnqueV value]
  | deque => []

/-- The lines of a command. -/
def Command.entries : Command → List Entry
  | enque value => [.enque value]
  | deque => [.deque]
  | showQueue => []
  | preque => prequeValues.map .enque

/-- The calls of a command that change the queue. -/
def Command.ops : Command → List Op
  | enque value => [.queueEnqueV value]
  | deque => [.queueDequeV]
  | showQueue => []
  | preque => prequeValues.map .queueEnqueV

def log (entries : List Entry) : List Char := (entries.map Entry.line).flatten

variable {G : Ask → Nat → Prop} {s : St} {t : Bool × List Int32}

theorem log_append (es es' : List Entry) : log (es ++ es') = log es ++ log es' := by
  rw [log, List.map_append, List.flatten_append]
  rfl

/-! ## The command loop -/

theorem wp_enqueLogged (hG : Sure G) (h : Follows s t) {value : Int32} (hop : Undrained t (.queueEnqueV value)) :
    awp G (enqueLogged value) (fun _ s' => Follows s' (usedStep t (.queueEnqueV value)).1 ∧
      s'.file = s.file ++ enqueLine value) s := by
  have henque := wp_queueEnqueV hG h.1 (fun hd => hop (h.drained_iff.mp hd)) value
  refine (Cmd.wp_bind _ _ _ _).mpr (Cmd.wp_conseq henque fun _ s' hs' => (Cmd.wp_modify _ _).mpr ?_)
  obtain ⟨hholds, hqueue, hfile⟩ := hs'
  refine ⟨⟨hholds.setFile _, hqueue.trans (Bool.or_true _).symm⟩, ?_⟩
  show s'.file ++ enqueLine value = _
  rw [hfile]

theorem wp_enqueAll (hG : Sure G) (h : Follows s t) (values : List Int32)
    (hops : Machine.Allowed usedStep Undrained t (values.map .queueEnqueV)) :
    awp G (enqueAll values) (fun _ s' => Follows s' (Machine.answers usedStep t (values.map .queueEnqueV)).1 ∧
      s'.file = s.file ++ log (values.map .enque)) s := by
  induction values generalizing s t with
  | nil => exact ⟨h, (List.append_nil _).symm⟩
  | cons value values ih =>
    refine (Cmd.wp_bind _ _ _ _).mpr (Cmd.wp_conseq (wp_enqueLogged hG h hops.1) fun _ s' hs' => ?_)
    refine Cmd.wp_conseq (ih hs'.1 hops.2) fun _ s'' hs'' => ⟨hs''.1, ?_⟩
    rw [hs''.2, hs'.2, List.append_assoc]
    rfl

theorem Command.wp_perform (hG : Sure G) (h : Follows s t) {c : Command} (rounds : Nat)
    (hops : Machine.Allowed usedStep Undrained t c.ops) :
    awp G (c.perform rounds) (fun _ s' => Follows s' (Machine.answers usedStep t c.ops).1 ∧
      s'.file = s.file ++ log c.entries) s := by
  cases c with
  | enque value =>
    refine (Cmd.wp_bind _ _ _ _).mpr (Cmd.wp_conseq (wp_enqueLogged hG h hops.1) fun _ s' hs' => ⟨hs'.1, ?_⟩)
    rw [hs'.2]
    simp [log, entries, Entry.line]
  | deque =>
    have hdeque := wp_queueDequeV (G := G) h.1 (fun hd => hops.1 (h.drained_iff.mp hd))
    refine (Cmd.wp_bind _ _ _ _).mpr (Cmd.wp_conseq hdeque fun x s' hs' => ?_)
    obtain ⟨-, hholds, hqueue, hfile⟩ := hs'
    refine (Cmd.wp_bind _ _ _ _).mpr ((Cmd.wp_modify _ _).mpr ?_)
    refine ⟨⟨hholds.setFile _, hqueue.trans (h.2.trans (Bool.or_false _).symm)⟩, ?_⟩
    show s'.file ++ dequeLine = _
    rw [hfile]
    simp [log, entries, Entry.line]
  | showQueue =>
    refine (Cmd.wp_bind _ _ _ _).mpr (Cmd.wp_conseq (wp_queueShow h.1 rounds) fun x s' hs' => ?_)
    obtain ⟨rfl, -⟩ := hs'
    exact ⟨h, (List.append_nil _).symm⟩
  | preque =>
    have henque := wp_enqueAll hG h prequeValues hops
    exact (Cmd.wp_bind _ _ _ _).mpr (Cmd.wp_conseq henque fun _ s' hs' => hs')

/-- The queue and the log after the commands. -/
theorem wp_commands (hG : Sure G) (h : Follows s t) {cs : List Command} (rounds : Nat)
    (hops : Machine.Allowed usedStep Undrained t (cs.flatMap Command.ops)) :
    awp G (Machine.serveAll (Command.perform rounds) cs) (fun _ s' =>
      Follows s' (Machine.answers usedStep t (cs.flatMap Command.ops)).1 ∧
      s'.file = s.file ++ log (cs.flatMap Command.entries)) s := by
  induction cs generalizing s t with
  | nil => exact ⟨h, (List.append_nil _).symm⟩
  | cons c cs ih =>
    rw [List.flatMap_cons] at hops
    obtain ⟨hc, hcs⟩ := (Machine.allowed_append _ _ _).mp hops
    refine (Cmd.wp_bind _ _ _ _).mpr (Cmd.wp_conseq (Command.wp_perform hG h rounds hc) fun x s' hs' => ?_)
    refine (Cmd.wp_bind _ _ _ _).mpr (Cmd.wp_conseq (ih hs'.1 hcs) fun xs s'' hs'' => ⟨?_, ?_⟩)
    · rw [List.flatMap_cons, Machine.answers_append]
      exact hs''.1
    · rw [hs''.2, hs'.2, List.flatMap_cons, log_append, List.append_assoc]

/-! ## The start-up loop -/

theorem wp_replayLine_enque {value : Int32} {Q : Unit → St → Prop} (h : awp G (queueEnqueV value) Q s) :
    awp G (replayLine (enqueLine value)) Q s := by
  have hvalue : decimal value ++ ['\n'] ≠ [] := List.append_ne_nil_of_right_ne_nil _ (List.cons_ne_nil _ _)
  unfold replayLine
  rw [strtok_enqueLine, strtok_decimal, atoi_decimal, parseQueOps_enque]
  have hcommand : "enque".toList ≠ [] := by decide
  refine (Cmd.wp_bind _ _ _ _).mpr ((Cmd.wp_check _ _).mpr ⟨hcommand, ?_⟩)
  refine (Cmd.wp_ite _ _ _).mpr ⟨fun _ => ?_, fun hne => absurd rfl hne⟩
  exact (Cmd.wp_bind _ _ _ _).mpr ((Cmd.wp_check _ _).mpr ⟨hvalue, h⟩)

/-- **The lines for `deque` are passed over.** -/
theorem wp_replayLine_deque {Q : Unit → St → Prop} (h : Q () s) : awp G (replayLine dequeLine) Q s := by
  unfold replayLine
  rw [parseQueOps_dequeLine]
  refine (Cmd.wp_bind _ _ _ _).mpr ((Cmd.wp_check _ _).mpr ⟨by decide, ?_⟩)
  refine (Cmd.wp_ite _ _ _).mpr ⟨fun heq => absurd heq (by decide), fun _ => ?_⟩
  exact (Cmd.wp_ite _ _ _).mpr ⟨fun heq => absurd heq (by decide), fun _ => h⟩

theorem fgets_entry (e : Entry) (rest : List Char) : fgets 31 (e.line ++ rest) = (e.line, rest) := by
  cases e with
  | enque value => exact fgets_enqueLine value rest
  | deque => exact fgets_dequeLine rest

theorem Entry.line_ne_nil (e : Entry) : e.line ≠ [] := by
  cases e with
  | enque value => exact List.append_ne_nil_of_left_ne_nil (by decide) _
  | deque => decide

theorem length_le_log (es : List Entry) : es.length ≤ (log es).length := by
  induction es with
  | nil => exact le_rfl
  | cons e es ih =>
    have hline := List.length_pos_of_ne_nil e.line_ne_nil
    show es.length + 1 ≤ (e.line ++ log es).length
    rw [List.length_append]
    omega

theorem wp_replay (hG : Sure G) (h : Follows s t) {es : List Entry} {rounds : Nat} (hrounds : es.length ≤ rounds)
    (hops : Machine.Allowed usedStep Undrained t (es.flatMap Entry.replayed)) :
    awp G (replay rounds (log es))
      (fun _ s' => Follows s' (Machine.answers usedStep t (es.flatMap Entry.replayed)).1) s := by
  induction es generalizing s t rounds with
  | nil =>
    cases rounds with
    | zero => exact h
    | succ rounds => exact (Cmd.wp_ite _ _ _).mpr ⟨fun _ => h, fun hne => absurd rfl hne⟩
  | cons e es ih =>
    cases rounds with
    | zero => exact absurd hrounds (Nat.not_succ_le_zero _)
    | succ rounds =>
      have hfgets : fgets 31 (log (e :: es)) = (e.line, log es) := fgets_entry e (log es)
      have hrest := Nat.le_of_succ_le_succ hrounds
      unfold replay
      rw [hfgets]
      refine (Cmd.wp_ite _ _ _).mpr ⟨fun hnil => absurd hnil e.line_ne_nil, fun _ => (Cmd.wp_bind _ _ _ _).mpr ?_⟩
      cases e with
      | enque value =>
        apply wp_replayLine_enque
        refine Cmd.wp_conseq (wp_queueEnqueV hG h.1 (fun hd => hops.1 (h.drained_iff.mp hd)) value) fun _ s' hs' => ?_
        exact ih ⟨hs'.1, hs'.2.1.trans (Bool.or_true _).symm⟩ hrest hops.2
      | deque => exact wp_replayLine_deque (ih h hrest hops)

theorem wp_startUp (hG : Sure G) {es : List Entry}
    (hops : Machine.Allowed usedStep Undrained (false, []) (es.flatMap Entry.replayed)) :
    awp G startUp (fun _ s' => Follows s' (Machine.answers usedStep (false, []) (es.flatMap Entry.replayed)).1)
      (initial (log es)) :=
  (Cmd.wp_bind _ _ _ _).mpr ((Cmd.wp_get _).mpr
    (wp_replay hG ⟨holds_initial (log es), rfl⟩ (length_le_log es) hops))

theorem total_replay (rounds : Nat) (file : List Char) : (replay rounds file).Total := by
  induction rounds generalizing file with
  | zero => exact Cmd.total_pure _
  | succ rounds ih =>
    refine Cmd.total_ite (Cmd.total_pure _) (Cmd.total_bind ?_ fun _ => ih _)
    refine Cmd.total_bind (Cmd.total_check _) fun _ => Cmd.total_ite ?_ (Cmd.total_ite ?_ (Cmd.total_pure _))
    · exact Cmd.total_bind (Cmd.total_check _) fun _ => total_queueEnqueV _
    · exact Cmd.total_bind total_queueDequeV fun _ => Cmd.total_pure _

theorem total_enqueAll (values : List Int32) : (enqueAll values).Total := by
  induction values with
  | nil => exact Cmd.total_pure _
  | cons value values ih =>
    exact Cmd.total_bind (Cmd.total_bind (total_queueEnqueV value) fun _ => Cmd.total_modify _) fun _ => ih

theorem Command.total_perform (rounds : Nat) (c : Command) : (c.perform rounds).Total := by
  cases c with
  | enque value =>
    exact Cmd.total_bind (Cmd.total_bind (total_queueEnqueV value) fun _ => Cmd.total_modify _) fun _ => Cmd.total_pure _
  | deque => exact Cmd.total_bind total_queueDequeV fun _ => Cmd.total_bind (Cmd.total_modify _) fun _ => Cmd.total_pure _
  | showQueue => exact Op.total_perform (.queueShow rounds)
  | preque => exact Cmd.total_bind (total_enqueAll prequeValues) fun _ => Cmd.total_pure _

/-! ## The values of both processes -/

/-- The values that a command puts in. -/
def Command.values : Command → List Int32
  | enque value => [value]
  | preque => prequeValues
  | deque => []
  | showQueue => []

/-- All values that are put in. -/
def pushed (cs : List Command) : List Int32 := cs.flatMap Command.values

/-- Nothing is taken out after a value has been put in. -/
def DequeFirst (cs : List Command) : Prop := cs.Pairwise fun a b => a.values ≠ [] → b ≠ .deque

theorem answers_enques (t : Bool × List Int32) (vs : List Int32) :
    (Machine.answers usedStep t (vs.map .queueEnqueV)).1 = (t.1 || !vs.isEmpty, t.2 ++ vs) := by
  induction vs generalizing t with
  | nil => simp [Machine.answers]
  | cons v vs ih =>
    rw [List.map_cons, Machine.answers]
    show (Machine.answers usedStep (t.1 || true, t.2 ++ [v]) _).1 = _
    rw [ih]
    simp

theorem allowed_enques {t : Bool × List Int32} (ht : t.1 = true → t.2 ≠ []) (vs : List Int32) :
    Machine.Allowed usedStep Undrained t (vs.map .queueEnqueV) := by
  induction vs generalizing t with
  | nil => exact trivial
  | cons v vs ih =>
    refine ⟨fun hd => ht hd.1 hd.2, ih fun _ => ?_⟩
    exact List.append_ne_nil_of_right_ne_nil _ (List.cons_ne_nil v [])

theorem replayed_entries (cs : List Command) :
    (cs.flatMap Command.entries).flatMap Entry.replayed = (pushed cs).map .queueEnqueV := by
  induction cs with
  | nil => rfl
  | cons c cs ih =>
    have hc : c.entries.flatMap Entry.replayed = c.values.map .queueEnqueV := by
      cases c with
      | enque value => rfl
      | deque => rfl
      | showQueue => rfl
      | preque =>
        show (prequeValues.map Entry.enque).flatMap Entry.replayed = prequeValues.map .queueEnqueV
        rw [List.flatMap_map]
        exact (List.map_eq_flatMap ..).symm
    rw [List.flatMap_cons, List.flatMap_append, hc, ih, ← List.map_append]
    rfl

theorem Command.ops_of_ne {c : Command} (hc : c ≠ .deque) : c.ops = c.values.map .queueEnqueV := by
  cases c with
  | enque value => rfl
  | deque => exact absurd rfl hc
  | showQueue => rfl
  | preque => rfl

/-- The values that are left after the commands. -/
def left (t : Bool × List Int32) (cs : List Command) : List Int32 :=
  (Machine.answers usedStep t (cs.flatMap Command.ops)).1.2

theorem left_cons (t : Bool × List Int32) (c : Command) (cs : List Command) :
    left t (c :: cs) = left (Machine.answers usedStep t c.ops).1 cs := by
  rw [left, List.flatMap_cons, Machine.answers_append]
  rfl

theorem left_push (t : Bool × List Int32) {c : Command} (hc : c ≠ .deque) (cs : List Command) :
    left t (c :: cs) = left (t.1 || !c.values.isEmpty, t.2 ++ c.values) cs := by
  rw [left_cons, Command.ops_of_ne hc, answers_enques]

theorem left_deque (t : Bool × List Int32) (cs : List Command) : left t (.deque :: cs) = left (t.1, t.2.tail) cs := by
  rw [left_cons]
  exact congrArg (fun b => left (b, t.2.tail) cs) (Bool.or_false t.1)

/-- What is put in is left if nothing is taken out. -/
theorem left_eq {t : Bool × List Int32} {cs : List Command} (h : .deque ∉ cs) : left t cs = t.2 ++ pushed cs := by
  induction cs generalizing t with
  | nil => exact (List.append_nil _).symm
  | cons c cs ih =>
    have hc : c ≠ .deque := fun heq => h (heq ▸ List.mem_cons_self)
    rw [left_push t hc, ih fun hmem => h (List.mem_cons_of_mem _ hmem), List.append_assoc]
    rfl

theorem length_left_le (t : Bool × List Int32) (cs : List Command) :
    (left t cs).length ≤ t.2.length + (pushed cs).length := by
  induction cs generalizing t with
  | nil => exact Nat.le_add_right _ _
  | cons c cs ih =>
    have hpushed : (pushed (c :: cs)).length = c.values.length + (pushed cs).length := List.length_append
    by_cases hc : c = .deque
    · subst hc
      have hle := ih (t.1, t.2.tail)
      rw [left_deque, hpushed]
      simp only [List.length_tail] at hle
      omega
    · have hle := ih (t.1 || !c.values.isEmpty, t.2 ++ c.values)
      rw [left_push t hc, hpushed]
      simp only [List.length_append] at hle
      omega

/-- Something is missing once a value has been taken out of a queue in use. -/
theorem length_left_lt {t : Bool × List Int32} {cs : List Command} (hused : t.1 = true)
    (hops : Machine.Allowed usedStep Undrained t (cs.flatMap Command.ops)) (h : .deque ∈ cs) :
    (left t cs).length < t.2.length + (pushed cs).length := by
  induction cs generalizing t with
  | nil => cases h
  | cons c cs ih =>
    have hpushed : (pushed (c :: cs)).length = c.values.length + (pushed cs).length := List.length_append
    rw [List.flatMap_cons, Machine.allowed_append] at hops
    by_cases hc : c = .deque
    · subst hc
      have hne : t.2 ≠ [] := fun hempty => hops.1.1 ⟨hused, hempty⟩
      have hpos := List.length_pos_of_ne_nil hne
      have hle := length_left_le (t.1, t.2.tail) cs
      rw [left_deque, hpushed]
      simp only [List.length_tail] at hle
      omega
    · have hmem : .deque ∈ cs := (List.mem_cons.mp h).resolve_left fun heq => hc heq.symm
      have hrest := hops.2
      rw [Command.ops_of_ne hc, answers_enques] at hrest
      have hlt := ih (by simp [hused]) hrest hmem
      rw [left_push t hc, hpushed]
      simp only [List.length_append] at hlt
      omega

/-- Nothing is missing exactly if nothing has been taken out after a value has been put in. -/
theorem left_eq_pushed_iff {cs : List Command}
    (hops : Machine.Allowed usedStep Undrained (false, []) (cs.flatMap Command.ops)) :
    left (false, []) cs = pushed cs ↔ DequeFirst cs := by
  induction cs with
  | nil => exact ⟨fun _ => List.Pairwise.nil, fun _ => rfl⟩
  | cons c cs ih =>
    rw [List.flatMap_cons, Machine.allowed_append] at hops
    rw [DequeFirst, List.pairwise_cons]
    have hpushed : pushed (c :: cs) = c.values ++ pushed cs := rfl
    by_cases hvalues : c.values = []
    · -- no value yet
      have hleft : left (false, []) (c :: cs) = left (false, []) cs := by
        by_cases hc : c = .deque
        · rw [hc, left_deque]
          rfl
        · rw [left_push _ hc, hvalues]
          rfl
      have hstart : (Machine.answers usedStep (false, []) c.ops).1 = (false, []) := by
        by_cases hc : c = .deque
        · rw [hc]
          rfl
        · rw [Command.ops_of_ne hc, hvalues]
          rfl
      have hrest := hops.2
      rw [hstart] at hrest
      rw [hleft, hpushed, hvalues, List.nil_append, ih hrest]
      exact ⟨fun h => ⟨fun _ _ hne => absurd rfl hne, h⟩, fun h => h.2⟩
    · have hc : c ≠ .deque := fun heq => hvalues (by rw [heq]; rfl)
      have hrest := hops.2
      rw [Command.ops_of_ne hc, answers_enques] at hrest
      rw [left_push _ hc, hpushed]
      constructor
      · intro heq
        have hnone : .deque ∉ cs := by
          intro hmem
          have hlt := length_left_lt (by simp [hvalues]) hrest hmem
          rw [heq] at hlt
          simp at hlt
        refine ⟨fun b hb _ heq => hnone (heq ▸ hb), ?_⟩
        exact List.Pairwise.imp_of_mem (fun _ hb _ _ heq => hnone (heq ▸ hb)) (List.pairwise_of_forall (fun _ _ => trivial))
      · intro h
        have hnone : .deque ∉ cs := fun hmem => h.1 _ hmem hvalues rfl
        rw [left_eq hnone]
        rfl

/-! ## The replay -/

/-- The process that has written the log, and one that starts with it. -/
theorem wp_mainLoop (rounds : Nat) {input : List (List Char × Int32)}
    (hops : Machine.Allowed usedStep Undrained (false, []) ((accepted input).flatMap Command.ops)) :
    awp Ask.Granted (mainLoop rounds input) (fun _ s => Holds s (left (false, []) (accepted input)) ∧
      s.file = log ((accepted input).flatMap Command.entries)) (initial []) := by
  have hinit : Follows (initial []) (false, []) := ⟨holds_initial [], rfl⟩
  exact Cmd.wp_conseq (wp_commands sure_granted hinit rounds hops) fun _ s hs => ⟨hs.1.1, hs.2⟩

theorem wp_replayed (cs : List Command) :
    awp Ask.Granted startUp (fun _ s => Holds s (pushed cs)) (initial (log (cs.flatMap Command.entries))) := by
  have hops := allowed_enques (t := (false, [])) (fun hused => by cases hused) (pushed cs)
  rw [← replayed_entries] at hops
  refine Cmd.wp_conseq (wp_startUp sure_granted hops) fun _ s hs => ?_
  have hvalues := hs.1
  rw [replayed_entries, answers_enques] at hvalues
  exact hvalues

/-- **Replay.** In every history in which no drained queue is used, a new process that reads the log has the values of the
process that has written it exactly if no value has been taken out: the lines for `deque` are not understood. -/
theorem replay_iff (rounds : Nat) {input : List (List Char × Int32)}
    (hops : Machine.Allowed usedStep Undrained (false, []) ((accepted input).flatMap Command.ops)) :
    (∃ xs s, Cmd.Run (fun s t => s = t) Ask.Granted (mainLoop rounds input) (initial []) xs s) ∧
    ∀ xs s, Cmd.Run (fun s t => s = t) Ask.Granted (mainLoop rounds input) (initial []) xs s →
      (∃ t, Cmd.Run (fun s t => s = t) Ask.Granted startUp (initial s.file) () t) ∧
      ∀ t, Cmd.Run (fun s t => s = t) Ask.Granted startUp (initial s.file) () t →
        ((∃ vs, Holds s vs ∧ Holds t vs) ↔ DequeFirst (accepted input)) := by
  have hmain := wp_mainLoop rounds hops
  have htotal := Machine.total_serveAll (Command.total_perform rounds) (accepted input)
  constructor
  · obtain ⟨xs, s, hs, -⟩ := Cmd.wp_exec (fun _ => rfl) granted_zero hmain htotal
    exact ⟨xs, s, Cmd.exec_run (fun _ => rfl) granted_zero hs⟩
  · intro xs s hs
    obtain ⟨hleft, hfile⟩ := Cmd.wp_run hmain hs
    have hreplay := wp_replayed (accepted input)
    rw [← hfile] at hreplay
    constructor
    · obtain ⟨u, t, ht, -⟩ := Cmd.wp_exec (fun _ => rfl) granted_zero hreplay
        (Cmd.total_bind (Cmd.total_get _) fun file => total_replay file.length file)
      exact ⟨t, Cmd.exec_run (fun _ => rfl) granted_zero ht⟩
    · intro t ht
      have hpushed := Cmd.wp_run hreplay ht
      rw [← left_eq_pushed_iff hops]
      constructor
      · intro h
        obtain ⟨vs, hvs, hvs'⟩ := h
        rw [hleft.unique hvs, hpushed.unique hvs']
      · intro heq
        exact ⟨pushed (accepted input), heq ▸ hleft, hpushed⟩

/-- A value is put in after a `deque` that has found nothing. -/
theorem replay_iff_five : DequeFirst (accepted [("deque".toList, 0), ("enque".toList, 5)]) ∧
    ∃ xs s, Cmd.Run (fun s t => s = t) Ask.Granted (mainLoop 0 [("deque".toList, 0), ("enque".toList, 5)]) (initial []) xs s ∧
      ∃ t, Cmd.Run (fun s t => s = t) Ask.Granted startUp (initial s.file) () t ∧ ∃ vs, Holds s vs ∧ Holds t vs := by
  have hcommands : accepted [("deque".toList, 0), ("enque".toList, 5)] = [.deque, .enque 5] := by decide
  have hfirst : DequeFirst (accepted [("deque".toList, 0), ("enque".toList, 5)]) := by
    rw [hcommands]
    refine List.pairwise_pair.mpr fun hne => absurd rfl hne
  have hops : Machine.Allowed usedStep Undrained (false, [])
      ((accepted [("deque".toList, 0), ("enque".toList, 5)]).flatMap Command.ops) := by
    rw [hcommands]
    exact ⟨fun h => Bool.noConfusion h.1, fun h => Bool.noConfusion h.1, trivial⟩
  obtain ⟨⟨xs, s, hs⟩, hall⟩ := replay_iff 0 hops
  obtain ⟨⟨t, ht⟩, hiff⟩ := hall xs s hs
  exact ⟨hfirst, xs, s, hs, t, ht, (hiff t ht).mpr hfirst⟩

/-- A value is put in and taken out again: the process that reads the log has it still. -/
theorem deque_not_replayed : ∃ xs s t,
    Cmd.Run (fun s t => s = t) Ask.Granted (mainLoop 0 [("enque".toList, 5), ("deque".toList, 0)]) (initial []) xs s ∧
    Cmd.Run (fun s t => s = t) Ask.Granted startUp (initial s.file) () t ∧ Holds s [] ∧ ¬ Holds t [] := by
  have hcommands : accepted [("enque".toList, 5), ("deque".toList, 0)] = [.enque 5, .deque] := by decide
  have hops : Machine.Allowed usedStep Undrained (false, [])
      ((accepted [("enque".toList, 5), ("deque".toList, 0)]).flatMap Command.ops) := by
    rw [hcommands]
    exact ⟨fun h => Bool.noConfusion h.1, fun h => List.cons_ne_nil _ _ h.2, trivial⟩
  have hexec : ((mainLoop 0 [("enque".toList, 5), ("deque".toList, 0)]).exec (initial [])).any (fun r =>
      (startUp.exec (initial r.2.file)).any fun r => r.2.head != 0) = true := by decide +kernel
  obtain ⟨⟨xs, s⟩, hs, h⟩ := (Option.any_eq_true _ _).mp hexec
  obtain ⟨⟨u, t⟩, ht, hhead⟩ := (Option.any_eq_true _ _).mp h
  have hrun := Cmd.exec_run (R := fun s t => s = t) (fun _ => rfl) granted_zero hs
  have hholds := (Cmd.wp_run (wp_mainLoop 0 hops) hrun).1
  rw [hcommands] at hholds
  refine ⟨xs, s, t, hrun, Cmd.exec_run (fun _ => rfl) granted_zero ht, hholds, fun hempty => ?_⟩
  exact absurd (hempty.nil_iff.mp rfl) (by simpa using hhead)

end PmemProgram.Queue.Aof
