import PmemProgram.Queue.Pmemobj

/-!
# The persistent queue over many processes, and over many calls of one

* `Process`, `Processes` : each process does one operation on the pool, or a failure hits it; the next one finds what the
  failure or the end of the process leaves;
* `queue_fifo` : whatever they do, the queue is a FIFO, and an operation that a failure hits is done or not done;
* `Calls` : the operations one after the other in one process;
* `calls_committed` : no transaction is open after a call, and its effect survives a failure, as long as `queue_deque` is
  not called on an empty queue; such a call leaves its transaction open, and later calls are lost (`enque_lost`).
-/

namespace PmemProgram.Queue.Pmemobj
open PmemProgram.Lib PmemProgram.Lib.Tx PmemProgram.Lib.Objects

/-- An operation; `queueShow` may go through its loop so many times. -/
inductive Op
  | queueEnque (value : Int32)
  | queueDeque
  | queueShow (rounds : Nat)
  deriving DecidableEq

/-- What an operation returns and prints. -/
inductive Out
  | enqued (done : Bool)
  | dequed (value : Option Int32)
  | shown (printed : Option (Int × List Int32))
  deriving DecidableEq

def Op.perform : Op → Code Cell.Val Out
  | queueEnque value => do return .enqued (← Pmemobj.queueEnque value)
  | queueDeque => do return .dequed (← Pmemobj.queueDeque)
  | queueShow rounds => do return .shown (← Pmemobj.queueShow rounds)

/-- The operation returns `x` in `t`. -/
def Returns (op : Op) (s : Store Cell.Val) (x : Out) (t : Store Cell.Val) : Prop :=
  Cmd.Run (fun s t => s = t) AnyAnswer op.perform s x t

/-- The operation passes through `t`. -/
def Passes (op : Op) (s t : Store Cell.Val) : Prop := Cmd.Crash (fun s t => s = t) AnyAnswer op.perform s t

/-- A process does the operation on the pool `s`, with what it returns or `none` for a failure; the next process finds the
pool `u`. -/
inductive Process (s : Store Cell.Val) (op : Op) : Option Out → Store Cell.Val → Prop
  | returns {x t u} : Returns op s x t → Recovers t u → Process s op (some x) u
  | failure {t u} : Passes op s t → Recovers t u → Process s op none u
  | failureAtEnd {x t u} : Returns op s x t → Recovers t u → Process s op none u

/-- Processes one after the other, and the pool that they leave. -/
inductive Processes (s₀ : Store Cell.Val) : List (Op × Option Out) → Store Cell.Val → Prop
  | none : Processes s₀ [] s₀
  | next {runs s op x t} : Processes s₀ runs s → Process s op x t → Processes s₀ (runs ++ [(op, x)]) t

/-- What a FIFO with the values `vs` may do with an operation. -/
inductive Fifo : List Int32 → Op → Option Out → List Int32 → Prop
  | enque {vs value} : Fifo vs (.queueEnque value) (some (.enqued true)) (vs ++ [value])
  | noMemory {vs value} : Fifo vs (.queueEnque value) (some (.enqued false)) vs
  | deque {v vs} : Fifo (v :: vs) .queueDeque (some (.dequed (some v))) vs
  | dequeEmpty : Fifo [] .queueDeque (some (.dequed none)) []
  | shown {v vs rounds} : vs.length + 1 < rounds →
      Fifo (v :: vs) (.queueShow rounds) (some (.shown (some (0, v :: vs)))) (v :: vs)
  | showing {vs rounds} : rounds ≤ vs.length → Fifo vs (.queueShow rounds) (some (.shown none)) vs
  | showEmpty {rounds} : Fifo [] (.queueShow rounds) (some (.shown (some (-1, [])))) []
  | failureBefore {vs op} : Fifo vs op none vs
  | failureAfter {vs op x ws} : Fifo vs op (some x) ws → Fifo vs op none ws

/-- The values that a FIFO may have after the processes. -/
inductive FifoRuns : List (Op × Option Out) → List Int32 → Prop
  | none : FifoRuns [] []
  | next {runs vs op x ws} : FifoRuns runs vs → Fifo vs op x ws → FifoRuns (runs ++ [(op, x)]) ws

variable {s₀ s t u : Store Cell.Val} {vs ws : List Int32} {op : Op} {x : Out}

/-- The states in which an operation returns: the queue is that of the FIFO, or nothing has been done but to open a
transaction. -/
theorem wp_perform {G : Ask → Nat → Prop} (h : Holds s vs) (op : Op) :
    twp G (Undone s) op.perform (fun x t => ∃ ws, Fifo vs op (some x) ws ∧
      if op = .queueDeque ∧ vs = [] then t = s.begin else Holds t ws) s := by
  cases op with
  | queueEnque value =>
    refine (Cmd.wp_bind _ _ _ _).mpr (Cmd.wp_conseq (wp_queueEnque h) fun done t ht => ?_)
    cases done with
    | true => exact ⟨vs ++ [value], .enque, by simpa using ht⟩
    | false => exact ⟨vs, .noMemory, by simpa using ht.1⟩
  | queueDeque =>
    refine (Cmd.wp_bind _ _ _ _).mpr (Cmd.wp_conseq (wp_queueDeque h) fun v t ht => ?_)
    obtain ⟨rfl, ht⟩ := ht
    cases vs with
    | nil => exact ⟨[], .dequeEmpty, by simpa using ht⟩
    | cons v vs => exact ⟨vs, .deque, by simpa using ht⟩
  | queueShow rounds =>
    refine (Cmd.wp_bind _ _ _ _).mpr (Cmd.wp_conseq (wp_queueShow h rounds) fun printed t ht => ?_)
    obtain ⟨rfl, rfl⟩ := ht
    cases vs with
    | nil => exact ⟨[], .showEmpty, by simpa using h⟩
    | cons v vs =>
      refine ⟨v :: vs, ?_, by simpa using h⟩
      rw [if_neg (List.cons_ne_nil v vs)]
      split_ifs with hlt
      · exact .shown hlt
      · exact .showing (Nat.le_of_not_lt hlt)

/-! ## One operation in each process -/

/-- What the next process finds of an operation that has returned. -/
theorem Holds.returns (h : Holds s vs) (hr : Returns op s x t) (hu : Recovers t u) :
    ∃ ws, Fifo vs op (some x) ws ∧ Holds u ws := by
  obtain ⟨ws, hfifo, ht⟩ := Cmd.wp_run (wp_perform h op) hr
  refine ⟨ws, hfifo, ?_⟩
  split_ifs at ht with hempty
  · -- the open transaction is forgotten
    obtain ⟨rfl, rfl⟩ := hempty
    subst ht
    cases hfifo
    exact h.same ((Covered.refl h.1).begin.recovers hu) hu.idle
  · exact ht.same (ht.1.recovers hu) hu.idle

theorem Holds.process {y : Option Out} (h : Holds s vs) (hp : Process s op y u) : ∃ ws, Fifo vs op y ws ∧ Holds u ws := by
  cases hp with
  | returns hr hu => exact h.returns hr hu
  | failure hc hu => exact ⟨vs, .failureBefore, h.same (Cmd.wp_crash (wp_perform h op) hc _ hu) hu.idle⟩
  | failureAtEnd hr hu =>
    obtain ⟨ws, hfifo, hws⟩ := h.returns hr hu
    exact ⟨ws, .failureAfter hfifo, hws⟩

theorem Processes.holds {runs : List (Op × Option Out)} (h₀ : Created s₀) (h : Processes s₀ runs s) :
    ∃ vs, FifoRuns runs vs ∧ Holds s vs := by
  induction h with
  | none => exact ⟨[], .none, h₀.holds⟩
  | next _ hp ih =>
    obtain ⟨vs, hruns, hvs⟩ := ih
    obtain ⟨ws, hfifo, hws⟩ := hvs.process hp
    exact ⟨ws, .next hruns hfifo, hws⟩

theorem total_showNodes (rounds head : Nat) : (showNodes rounds head).Total := by
  induction rounds generalizing head with
  | zero => exact Cmd.total_pure _
  | succ rounds ih =>
    refine Cmd.total_ite (Cmd.total_pure _) ?_
    exact Cmd.total_bind (total_direct head) fun _ => Cmd.total_bind (total_load _) fun _ =>
      Cmd.total_bind (total_load _) fun next => Cmd.total_bind (ih next) fun _ => Cmd.total_pure _

/-- A pool whose root is zeroed and that has no nodes. -/
def emptyQueue : Store Cell.Val :=
  Store.closed (fun
    | .head => (0 : Nat)
    | .tail => (0 : Nat)
    | .value _ => (0 : Int32)
    | .next _ => (0 : Nat)) []

theorem created_emptyQueue : Created emptyQueue := ⟨Store.idle_closed _ _, rfl, rfl⟩

/-- The operations one after the other; `next t` is what the next one finds where one returns in `t`. -/
def performs (next : Store Cell.Val → Store Cell.Val) : List Op → List (Op × Out) → Store Cell.Val →
    Option (List (Op × Out) × Store Cell.Val)
  | [], calls, s => some (calls, s)
  | op :: ops, calls, s => (op.perform.exec s).bind fun r => performs next ops (calls ++ [(op, r.1)]) (next r.2)

theorem returns_exec (h : op.perform.exec s = some (x, t)) : Returns op s x t :=
  Cmd.exec_run (fun _ => rfl) (fun _ => trivial) h

/-- Two values go in, and the first one comes out. -/
def threeCalls : List (Op × Out) :=
  [(.queueEnque 5, .enqued true), (.queueEnque 7, .enqued true), (.queueDeque, .dequed (some 5))]

/-- Calls one after the other, with what they return. -/
inductive Calls (s₀ : Store Cell.Val) : List (Op × Out) → Store Cell.Val → Prop
  | none : Calls s₀ [] s₀
  | next {calls s op x t} : Calls s₀ calls s → Returns op s x t → Calls s₀ (calls ++ [(op, x)]) t

/-- The values after one more call. -/
def contentsStep (vs : List Int32) : Op × Out → List Int32
  | (.queueEnque value, .enqued true) => vs ++ [value]
  | (.queueDeque, _) => vs.tail
  | _ => vs

/-- The values that are in the queue after the calls. -/
def contents (calls : List (Op × Out)) : List Int32 := calls.foldl contentsStep []

theorem contents_concat (calls : List (Op × Out)) (c : Op × Out) : contents (calls ++ [c]) = contentsStep (contents calls) c := by
  rw [contents, List.foldl_concat]
  rfl

/-- `queue_deque` is not called on an empty queue. -/
def NeverEmpty (calls : List (Op × Out)) : Prop := ∀ pre x, pre ++ [(.queueDeque, x)] <+: calls → contents pre ≠ []

theorem Fifo.contents (h : Fifo vs op (some x) ws) : contentsStep vs (op, x) = ws := by
  cases h <;> rfl

/-- What a call does: it commits, or leaves its transaction open. -/
theorem Holds.call (h : Holds s vs) (hr : Returns op s x t) :
    if op = .queueDeque ∧ vs = [] then t = s.begin else Holds t (contentsStep vs (op, x)) := by
  obtain ⟨ws, hfifo, ht⟩ := Cmd.wp_run (wp_perform h op) hr
  rwa [hfifo.contents]

theorem Calls.holds (h₀ : Created s₀) {calls : List (Op × Out)} (h : Calls s₀ calls s) (hne : NeverEmpty calls) :
    Holds s (contents calls) := by
  induction h with
  | none => exact h₀.holds
  | @next calls s op x t _ hr ih =>
    have hs := ih fun pre y hpre => hne pre y (hpre.trans (List.prefix_append _ _))
    have ht := hs.call hr
    rw [if_neg] at ht
    · rwa [contents_concat]
    · intro hempty
      obtain ⟨rfl, hempty⟩ := hempty
      exact hne calls x List.prefix_rfl hempty

theorem performs_calls {ops : List Op} {calls outs : List (Op × Out)} (h : Calls s₀ calls s)
    (hp : performs id ops calls s = some (outs, t)) : Calls s₀ outs t := by
  induction ops generalizing calls s with
  | nil =>
    cases hp
    exact h
  | cons op ops ih =>
    obtain ⟨⟨x, u⟩, hx, hp⟩ := Option.bind_eq_some_iff.mp hp
    exact ih (.next h (returns_exec hx)) hp

/-- The head of a queue that is not empty is a node. -/
theorem Holds.head_ne (h : Holds s vs) (hvs : vs ≠ []) : headOf s ≠ 0 := by
  obtain ⟨-, os, hnodes, rfl⟩ := h
  intro hhead
  rw [hnodes.chained.chain.eq_nil_iff.mpr hhead] at hvs
  exact hvs rfl

theorem neverEmpty_nil : NeverEmpty [] := fun pre x hpre => absurd (List.prefix_nil.mp hpre) (by simp)

theorem NeverEmpty.concat {calls : List (Op × Out)} (h : NeverEmpty calls) (hop : op = .queueDeque → contents calls ≠ []) :
    NeverEmpty (calls ++ [(op, x)]) := by
  intro pre y hpre
  rcases List.prefix_concat_iff.mp hpre with heq | hpre
  · obtain ⟨rfl, hc⟩ := List.append_inj' heq rfl
    cases hc
    exact hop rfl
  · exact h pre y hpre

theorem neverEmpty_threeCalls : NeverEmpty threeCalls := by
  have hfirst : NeverEmpty [(.queueEnque 5, .enqued true)] := neverEmpty_nil.concat fun h => by cases h
  have hsecond : NeverEmpty [(.queueEnque 5, .enqued true), (.queueEnque 7, .enqued true)] :=
    hfirst.concat fun h => by cases h
  exact hsecond.concat fun _ => by decide

/-- **Calls are committed when they return**, in every run in which `queue_deque` is never called on an empty queue: no
transaction is open and every failure leaves the contents. One more call is committed exactly if it is not such a call. -/
theorem calls_committed {s₀ s : Store Cell.Val} (h₀ : Created s₀) {calls : List (Op × Out)} (h : Calls s₀ calls s)
    (hne : NeverEmpty calls) :
    (s.depth = 0 ∧ ∀ u, Recovers s u → Holds u (contents calls)) ∧
    ∀ op x t, Returns op s x t →
      ((t.depth = 0 ∧ ∀ u, Recovers t u → Holds u (contents (calls ++ [(op, x)]))) ↔
        ¬ (op = .queueDeque ∧ contents calls = [])) := by
  have hs := h.holds h₀ hne
  refine ⟨⟨hs.1.depth, fun u hu => hs.same (hs.1.recovers hu) hu.idle⟩, fun op x t hr => ?_⟩
  have ht := hs.call hr
  constructor
  · intro hclosed hempty
    rw [if_pos hempty] at ht
    have hdepth := hclosed.1
    rw [ht] at hdepth
    exact Nat.succ_ne_zero _ hdepth
  · intro hempty
    rw [if_neg hempty, ← contents_concat] at ht
    exact ⟨ht.1.depth, fun u hu => ht.same (ht.1.recovers hu) hu.idle⟩

/-- After the three calls the second value is in the queue, and the next `queue_deque` is committed. -/
theorem calls_committed_first : ∃ s, Calls emptyQueue threeCalls s ∧ (s.depth = 0 ∧ ∀ u, Recovers s u → Holds u [7]) ∧
    ∃ t, Returns .queueDeque s (.dequed (some 7)) t ∧ t.depth = 0 ∧ ∀ u, Recovers t u → Holds u [] := by
  have hexec : (performs id (threeCalls.map Prod.fst) [] emptyQueue).any (fun r => r.1 == threeCalls &&
      (Op.queueDeque.perform.exec r.2).any fun r => r.1 == .dequed (some 7)) = true := by decide +kernel
  obtain ⟨⟨outs, s⟩, hp, h⟩ := (Option.any_eq_true _ _).mp hexec
  obtain ⟨h, hdeque⟩ := Bool.and_eq_true_iff.mp h
  have houts : outs = threeCalls := eq_of_beq h
  rw [houts] at hp
  have hcalls := performs_calls .none hp
  obtain ⟨⟨x, t⟩, hx, hseven⟩ := (Option.any_eq_true _ _).mp hdeque
  have hvalue : x = .dequed (some 7) := eq_of_beq hseven
  rw [hvalue] at hx
  obtain ⟨hfirst, hnext⟩ := calls_committed created_emptyQueue hcalls neverEmpty_threeCalls
  obtain ⟨hdepth, hlast⟩ := (hnext _ _ _ (returns_exec hx)).mpr (by decide)
  exact ⟨s, hcalls, hfirst, t, returns_exec hx, hdepth, hlast⟩

/-- After `queue_deque` on an empty queue the value of a `queue_enque` that has returned is lost in a failure. -/
theorem enque_lost : ∃ t u, Calls emptyQueue [(.queueDeque, .dequed none), (.queueEnque 5, .enqued true)] t ∧
    t.depth = 1 ∧ Recovers t u ∧ ¬ Holds u [5] := by
  have hexec : (performs id [.queueDeque, .queueEnque 5] [] emptyQueue).any (fun r =>
      r.1 == [(.queueDeque, .dequed none), (.queueEnque 5, .enqued true)] && r.2.depth == 1 &&
        headOf r.2.undo == 0) = true := by decide +kernel
  obtain ⟨⟨outs, t⟩, hp, h⟩ := (Option.any_eq_true _ _).mp hexec
  obtain ⟨h, hhead⟩ := Bool.and_eq_true_iff.mp h
  obtain ⟨h, hdepth⟩ := Bool.and_eq_true_iff.mp h
  have houts : outs = [(.queueDeque, .dequed none), (.queueEnque 5, .enqued true)] := eq_of_beq h
  rw [houts] at hp
  refine ⟨t, t.undo, performs_calls .none hp, eq_of_beq hdepth, recovers_undo t, fun hholds => ?_⟩
  exact hholds.head_ne (by simp) (eq_of_beq hhead)

end PmemProgram.Queue.Pmemobj
