import PmemProgram.Queue.Aof
import PmemProgram.Lib.Machine

/-!
# The in-memory queue as a FIFO, and what a drained queue does

* `fifoStep` : the operations of a FIFO; `IsFifo` : calls access no null node and do what the FIFO does;
* `Undrained` : the calls that may be made; a queue that has been emptied must not be used again;
* `isFifo_iff` : the queue is a FIFO exactly as long as only such calls are made and there is memory.
-/

namespace PmemProgram.Queue.Aof
open PmemProgram.Lib PmemProgram.Lib.Objects

/-- A call; `queueShow` may go through its loop so many times. -/
inductive Op
  | queueEnqueV (value : Int32)
  | queueDequeV
  | queueShow (rounds : Nat)
  deriving DecidableEq

/-- What a call returns and prints. -/
inductive Out
  | enqued
  | dequed (value : Option Int32)
  | shown (printed : Option (List Int32))
  deriving DecidableEq

def Op.perform : Op → Prog Out
  | queueEnqueV value => do
    Aof.queueEnqueV value
    return .enqued
  | queueDequeV => do return .dequed (← Aof.queueDequeV)
  | queueShow rounds => do return .shown ((← Aof.queueShow rounds).map Prod.snd)

/-- A call of a FIFO. -/
def fifoStep (vs : List Int32) : Op → List Int32 × Out
  | .queueEnqueV value => (vs ++ [value], .enqued)
  | .queueDequeV => (vs.tail, .dequed vs.head?)
  | .queueShow rounds => (vs, .shown (if vs.length ≤ rounds then some vs else none))

/-- The same, with whether a value has ever been put in. -/
def usedStep (t : Bool × List Int32) (op : Op) : (Bool × List Int32) × Out :=
  ((t.1 || op matches .queueEnqueV _, (fifoStep t.2 op).1), (fifoStep t.2 op).2)

/-- A value may be put in or taken out if the queue has never been used, or is not empty. -/
def Undrained (t : Bool × List Int32) : Op → Prop
  | .queueEnqueV _ => ¬ (t.1 = true ∧ t.2 = [])
  | .queueDequeV => ¬ (t.1 = true ∧ t.2 = [])
  | .queueShow _ => True

/-- The calls in a new process access no null or freed node, and do what the FIFO does. -/
def IsFifo (G : Ask → Nat → Prop) (ops : List Op) : Prop :=
  ¬ Cmd.Aborts (fun s t => s = t) G (Machine.serveAll Op.perform ops) (initial []) ∧
  ∀ xs t, Cmd.Run (fun s t => s = t) G (Machine.serveAll Op.perform ops) (initial []) xs t →
    xs = (Machine.answers fifoStep [] ops).2

variable {G : Ask → Nat → Prop} {s : St} {t : Bool × List Int32} {ops : List Op}

theorem answers_usedStep (t : Bool × List Int32) (ops : List Op) :
    (Machine.answers usedStep t ops).2 = (Machine.answers fifoStep t.2 ops).2 := by
  induction ops generalizing t with
  | nil => rfl
  | cons op ops ih => exact congrArg _ (ih _)

/-- The queue has the values of the FIFO, and exists if it has been used. -/
def Follows (s : St) (t : Bool × List Int32) : Prop := Holds s t.2 ∧ s.pmemQueue = t.1

theorem Follows.drained_iff (h : Follows s t) : Drained s t.2 ↔ t.1 = true ∧ t.2 = [] := by
  rw [Drained, h.2]

theorem Op.wp_perform (h : Follows s t) {op : Op} (hop : Undrained t op) (hG : Sure G ∨ ∀ v, op ≠ .queueEnqueV v) :
    awp G op.perform (fun x s' => x = (usedStep t op).2 ∧ Follows s' (usedStep t op).1) s := by
  cases op with
  | queueEnqueV value =>
    have hsure : Sure G := hG.resolve_right fun hne => hne value rfl
    have henque := wp_queueEnqueV hsure h.1 (fun hd => hop (h.drained_iff.mp hd)) value
    refine (Cmd.wp_bind _ _ _ _).mpr (Cmd.wp_conseq henque fun _ s' hs' => ⟨rfl, hs'.1, ?_⟩)
    exact hs'.2.1.trans (Bool.or_true _).symm
  | queueDequeV =>
    have hdeque := wp_queueDequeV (G := G) h.1 (fun hd => hop (h.drained_iff.mp hd))
    refine (Cmd.wp_bind _ _ _ _).mpr (Cmd.wp_conseq hdeque fun x s' hs' => ?_)
    obtain ⟨rfl, hs, hqueue, -⟩ := hs'
    exact ⟨rfl, hs, hqueue.trans (h.2.trans (Bool.or_false _).symm)⟩
  | queueShow rounds =>
    refine (Cmd.wp_bind _ _ _ _).mpr (Cmd.wp_conseq (wp_queueShow h.1 rounds) fun x s' hs' => ?_)
    obtain ⟨rfl, hx⟩ := hs'
    exact ⟨congrArg _ hx, h.1, h.2.trans (Bool.or_false _).symm⟩

/-! ## Calls that fail -/

theorem total_malloc : malloc.Total :=
  Cmd.total_bind (Cmd.total_succeeds _) fun _ => Cmd.total_ite (fun _ => Cmd.total_bind (Cmd.total_get _) fun _ =>
    Cmd.total_bind (Cmd.total_modify _) fun _ => Cmd.total_pure _) (Cmd.total_pure _)

theorem total_deref (node : Nat) : (deref node).Total := Cmd.total_bind (Cmd.total_get _) fun _ => Cmd.total_check _

theorem total_setValue (node : Nat) (x : Int32) : (setValue node x).Total :=
  Cmd.total_bind (total_deref node) fun _ => Cmd.total_modify _

theorem total_setNext (node x : Nat) : (setNext node x).Total :=
  Cmd.total_bind (total_deref node) fun _ => Cmd.total_modify _

theorem total_mallocQueue : mallocQueue.Total :=
  Cmd.total_bind (Cmd.total_succeeds _) fun _ => Cmd.total_bind (Cmd.total_check _) fun _ => Cmd.total_modify _

theorem total_queueEnqueV (value : Int32) : (queueEnqueV value).Total :=
  Cmd.total_bind total_malloc fun node => Cmd.total_bind (total_setValue node value) fun _ =>
    Cmd.total_bind (total_setNext node 0) fun _ => Cmd.total_bind (Cmd.total_get _) fun _ => Cmd.total_ite
      (Cmd.total_bind total_mallocQueue fun _ => Cmd.total_bind (Cmd.total_modify _) fun _ => Cmd.total_modify _)
      (Cmd.total_bind (Cmd.total_get _) fun tail => Cmd.total_bind (total_setNext tail node) fun _ => Cmd.total_modify _)

theorem total_queueDequeV : queueDequeV.Total :=
  Cmd.total_bind (Cmd.total_get _) fun _ => Cmd.total_ite (Cmd.total_pure _)
    (Cmd.total_bind (Cmd.total_get _) fun head => Cmd.total_bind (Cmd.total_get _) fun _ =>
      Cmd.total_bind (Cmd.total_ite (Cmd.total_modify _) (Cmd.total_pure _)) fun _ =>
      Cmd.total_bind (total_deref head) fun _ => Cmd.total_bind (Cmd.total_get _) fun _ =>
      Cmd.total_bind (Cmd.total_modify _) fun _ => Cmd.total_bind (Cmd.total_get _) fun _ =>
      Cmd.total_bind (Cmd.total_modify _) fun _ => Cmd.total_pure _)

theorem total_showNodes (rounds node : Nat) : (showNodes rounds node).Total := by
  induction rounds generalizing node with
  | zero => exact Cmd.total_pure _
  | succ rounds ih =>
    refine Cmd.total_ite (Cmd.total_pure _) (Cmd.total_bind (total_deref node) fun _ => ?_)
    exact Cmd.total_bind (Cmd.total_get _) fun _ => Cmd.total_bind (Cmd.total_get _) fun next =>
      Cmd.total_bind (ih next) fun _ => Cmd.total_pure _

theorem Op.total_perform (op : Op) : op.perform.Total := by
  cases op with
  | queueEnqueV value => exact Cmd.total_bind (total_queueEnqueV value) fun _ => Cmd.total_pure _
  | queueDequeV => exact Cmd.total_bind total_queueDequeV fun _ => Cmd.total_pure _
  | queueShow rounds =>
    refine Cmd.total_bind (Cmd.total_bind (Cmd.total_get _) fun _ => Cmd.total_ite (Cmd.total_pure _) ?_)
      fun _ => Cmd.total_pure _
    exact Cmd.total_bind (Cmd.total_get _) fun node => Cmd.total_bind (total_showNodes rounds node) fun _ => Cmd.total_pure _

/-- `tail->next` of a drained queue. -/
theorem exec_queueEnqueV_drained (h : Holds s []) (hq : s.pmemQueue = true) (value : Int32) :
    (queueEnqueV value).exec s = none := by
  have hnull := h.null
  have htail := h.tail_zero
  have hne := pick_ne_zero s.live 0
  simp [queueEnqueV, malloc, setValue, setNext, deref, hq, htail, hnull, hne.symm]

/-- `head->next` of a drained queue. -/
theorem exec_queueDequeV_drained (h : Holds s []) (hq : s.pmemQueue = true) : queueDequeV.exec s = none := by
  have hnull := h.null
  have hhead := h.nil_iff.mp rfl
  have htail := h.tail_zero
  simp [queueDequeV, clearTail, deref, setTail, hq, hhead, htail, hnull]

/-- A node that is not there is accessed. -/
theorem aborts_noMemory {n : Nat} (hn : G .alloc n) (hne : n ≠ 0) (hnull : 0 ∉ s.live) (value : Int32) :
    Cmd.Aborts (fun s t => s = t) G (queueEnqueV value) s := by
  have hmalloc : Cmd.Run (fun s t => s = t) G malloc s 0 s := by
    refine Cmd.Run.ask hn ?_
    show Cmd.Run _ G (if (n == 0) = true then _ else .ret 0) s 0 s
    rw [if_neg (by simpa using hne)]
    exact .ret
  refine Cmd.Aborts.bind_right hmalloc (Cmd.Aborts.bind_left _ (Cmd.Aborts.bind_left _ ?_))
  refine Cmd.Aborts.loc ?_
  show Cmd.Aborts _ G (Cmd.check (0 ∈ s.live)) s
  rw [Cmd.check, if_neg hnull]
  exact .abort

/-! ## When the queue is a FIFO -/

/-- A call that may be made, and that has the memory that it needs. -/
def Served (G : Ask → Nat → Prop) (t : Bool × List Int32) (op : Op) : Prop :=
  Undrained t op ∧ (Sure G ∨ ∀ v, op ≠ .queueEnqueV v)

theorem allowed_served_iff (t : Bool × List Int32) (ops : List Op) : Machine.Allowed usedStep (Served G) t ops ↔
    Machine.Allowed usedStep Undrained t ops ∧ (Sure G ∨ ∀ v, .queueEnqueV v ∉ ops) := by
  induction ops generalizing t with
  | nil => exact ⟨fun _ => ⟨trivial, Or.inr fun _ => List.not_mem_nil⟩, fun _ => trivial⟩
  | cons op ops ih =>
    constructor
    · intro h
      obtain ⟨⟨hop, hmem⟩, hops⟩ := h
      obtain ⟨hops, hmems⟩ := (ih _).mp hops
      refine ⟨⟨hop, hops⟩, ?_⟩
      rcases hmem with hsure | hmem
      · exact Or.inl hsure
      rcases hmems with hsure | hmems
      · exact Or.inl hsure
      · refine Or.inr fun v hv => ?_
        rcases List.mem_cons.mp hv with heq | hv
        · exact hmem v heq.symm
        · exact hmems v hv
    · intro h
      obtain ⟨⟨hop, hops⟩, hmem⟩ := h
      have hmem' : Sure G ∨ ∀ v, .queueEnqueV v ∉ ops := hmem.imp_right fun h v hv => h v (List.mem_cons_of_mem _ hv)
      refine ⟨⟨hop, hmem.imp_right fun h v heq => h v ?_⟩, (ih _).mpr ⟨hops, hmem'⟩⟩
      rw [heq]
      exact List.mem_cons_self

theorem Op.aborts_perform (hG : ∀ q, G q 0) (h : Follows s t) {op : Op} (hop : ¬ Served G t op) :
    Cmd.Aborts (fun s t => s = t) G op.perform s := by
  by_cases hd : Undrained t op
  · -- there is no memory for the node
    have hmem : ¬ (Sure G ∨ ∀ v, op ≠ .queueEnqueV v) := fun hmem => hop ⟨hd, hmem⟩
    push Not at hmem
    obtain ⟨hsure, v, rfl⟩ := hmem
    obtain ⟨n, hn, hne⟩ : ∃ n, G .alloc n ∧ n ≠ 0 := by
      by_contra hnone
      push Not at hnone
      exact hsure hnone
    exact Cmd.Aborts.bind_left _ (aborts_noMemory hn hne h.1.null v)
  · -- the queue is drained
    apply Cmd.exec_none_aborts (fun _ => rfl) hG op.total_perform
    cases op with
    | queueEnqueV value =>
      obtain ⟨hused, hempty⟩ := not_not.mp hd
      have hs : Holds s [] := hempty ▸ h.1
      rw [Op.perform, Cmd.exec_bind, exec_queueEnqueV_drained hs (h.2.trans hused)]
      rfl
    | queueDequeV =>
      obtain ⟨hused, hempty⟩ := not_not.mp hd
      have hs : Holds s [] := hempty ▸ h.1
      rw [Op.perform, Cmd.exec_bind, exec_queueDequeV_drained hs (h.2.trans hused)]
      rfl
    | queueShow rounds => exact absurd trivial hd

/-- **The in-memory queue is a FIFO** as long as no value is put into or taken out of a queue that has been emptied, and
there is memory for what is put in. -/
theorem isFifo_iff {G : Ask → Nat → Prop} (hG : ∀ q, G q 0) (ops : List Op) :
    IsFifo G ops ↔ Machine.Allowed usedStep Undrained (false, []) ops ∧ (Sure G ∨ ∀ v, .queueEnqueV v ∉ ops) := by
  have hinit : Follows (initial []) (false, []) := ⟨holds_initial [], rfl⟩
  rw [← allowed_served_iff]
  constructor
  · intro h
    by_contra hops
    refine h.1 (Machine.aborts_serveAll (I := fun _ => True) (fun _ => rfl) hG Op.total_perform ?_ ?_ hinit hops)
    · intro s t op hs hop
      exact Op.wp_perform hs hop.1 (Or.inl fun _ h => h)
    · intro s t op hs hop
      exact Op.aborts_perform hG hs hop
  · intro hops
    have hstep : ∀ s t op, Follows s t → Served G t op →
        awp G (Op.perform op) (fun x s' => x = (usedStep t op).2 ∧ Follows s' (usedStep t op).1) s := by
      intro s t op hs hop
      exact Op.wp_perform hs hop.1 hop.2
    have hwp := Machine.wp_serveAll hstep hinit hops
    refine ⟨Cmd.wp_not_aborts hwp, fun xs s hxs => ?_⟩
    rw [(Cmd.wp_run hwp hxs).1, answers_usedStep]

theorem isFifo_iff_five : (∀ q : Ask, q.Granted 0) ∧ (IsFifo Ask.Granted [.queueEnqueV 5, .queueDequeV] ↔
    Machine.Allowed usedStep Undrained (false, []) [.queueEnqueV 5, .queueDequeV] ∧
      (Sure Ask.Granted ∨ ∀ v, .queueEnqueV v ∉ [Op.queueEnqueV 5, .queueDequeV])) :=
  ⟨granted_zero, isFifo_iff granted_zero _⟩

/-- The queue is emptied, and its null tail is accessed when the next value is put in. -/
theorem drained_aborts : Cmd.Aborts (fun s t => s = t) Ask.Granted
      (Machine.serveAll Op.perform [.queueEnqueV 5, .queueDequeV, .queueEnqueV 6]) (initial []) ∧
    ¬ IsFifo Ask.Granted [.queueEnqueV 5, .queueDequeV, .queueEnqueV 6] := by
  have haborts : Cmd.Aborts (fun s t => s = t) Ask.Granted
      (Machine.serveAll Op.perform [.queueEnqueV 5, .queueDequeV, .queueEnqueV 6]) (initial []) :=
    Cmd.fails_aborts (fun _ => rfl) granted_zero (by decide +kernel)
  exact ⟨haborts, fun h => h.1 haborts⟩

end PmemProgram.Queue.Aof
