import PmemProgram.Lib.Cmd
import PmemProgram.Lib.Objects

/-!
# The in-memory queue with a log (`queue_aof.cpp`)

The queue is a linked list of nodes in volatile memory. It does not exist at first (`pmem_queue` is null); once it has been
allocated it is empty when its head and tail are null.

* `queueEnqueV`, `queueDequeV`, `queueShow` : the three operations; an access to a null or freed node fails;
* `Holds s vs` : the queue has the values `vs`;
* `wp_queueEnqueV`, `wp_queueDequeV`, `wp_queueShow` : what the operations do, unless the queue is `Drained`.
-/

namespace PmemProgram.Queue.Aof
open PmemProgram.Lib PmemProgram.Lib.Objects

/-- The memory of the process, and the log. -/
structure St where
  /-- `pmem_queue` is not null. -/
  pmemQueue : Bool
  head : Nat
  tail : Nat
  value : Nat → Int32
  next : Nat → Nat
  /-- The nodes that are allocated. -/
  live : List Nat
  file : List Char

abbrev Prog := Cmd Ask St

/-- `malloc` of a node; null if there is no memory. -/
def malloc : Prog Nat := do
  if ← .succeeds .alloc then
    .ask .object fun n => do
      let live ← .get St.live
      .modify fun s => { s with live := pick live n :: s.live }
      return pick live n
  else return 0

/-- A node is accessed. -/
def deref (node : Nat) : Prog Unit := do
  let live ← .get St.live
  .check (node ∈ live)

/-- `node->value=x`. -/
def setValue (node : Nat) (x : Int32) : Prog Unit := do
  deref node
  .modify fun s => { s with value := Function.update s.value node x }

/-- `node->next=x`. -/
def setNext (node x : Nat) : Prog Unit := do
  deref node
  .modify fun s => { s with next := Function.update s.next node x }

/-- `pmem_queue` is allocated, and used at once. -/
def mallocQueue : Prog Unit := do
  let ok ← .succeeds .alloc
  .check (ok = true)
  .modify fun s => { s with pmemQueue := true }

def setHead (node : Nat) : Prog Unit := .modify fun s => { s with head := node }

def setTail (node : Nat) : Prog Unit := .modify fun s => { s with tail := node }

/-- `queue_enque_v`. -/
def queueEnqueV (value : Int32) : Prog Unit := do
  let node ← malloc
  setValue node value
  setNext node 0
  if (← .get St.pmemQueue) = false then
    mallocQueue
    setHead node
    setTail node
  else
    let tail ← .get St.tail
    setNext tail node
    setTail node

/-- `if(head == tail) pmem_queue->tail=NULL`. -/
def clearTail (head tail : Nat) : Prog Unit := if head = tail then setTail 0 else pure ()

/-- `queue_deque_v`; `none` is `-1`. -/
def queueDequeV : Prog (Option Int32) := do
  if (← .get St.pmemQueue) = false then return none
  else
    let head ← .get St.head
    let tail ← .get St.tail
    clearTail head tail
    deref head
    setHead (← .get (St.next · head))
    let value ← .get (St.value · head)
    .modify fun s => { s with live := s.live.erase head }
    return some value

/-- The loop of `queue_show`, with what it prints; `none` if it is still running after so many rounds. -/
def showNodes : Nat → Nat → Prog (Option (List Int32))
  | 0, node => return if node = 0 then some [] else none
  | rounds + 1, node => do
    if node = 0 then return some []
    else
      deref node
      let value ← .get (St.value · node)
      let next ← .get (St.next · node)
      let printed ← showNodes rounds next
      return printed.map (value :: ·)

/-- `queue_show`: what it returns and what it prints. -/
def queueShow (rounds : Nat) : Prog (Option (Int × List Int32)) := do
  if (← .get St.pmemQueue) = false then return some (-1, [])
  else
    let node ← .get St.head
    let printed ← showNodes rounds node
    return printed.map fun vs => (0, vs)

/-- A process before its first call; `file` is the log that it finds. -/
def initial (file : List Char) : St := ⟨false, 0, 0, fun _ => 0, fun _ => 0, [], file⟩

/-! ## The values of the queue -/

/-- The nodes from the head to the tail are `os`. -/
structure Nodes (s : St) (os : List Nat) : Prop where
  chained : Chained s.next s.head s.tail os
  live : ∀ o ∈ os, o ∈ s.live
  notFree : s.live.Nodup
  null : 0 ∉ s.live

/-- The queue has the values `vs`, the oldest first. -/
def Holds (s : St) (vs : List Int32) : Prop :=
  (s.pmemQueue = false → vs = []) ∧ ∃ os, Nodes s os ∧ os.map s.value = vs

/-- The queue has been allocated, and is empty. -/
def Drained (s : St) (vs : List Int32) : Prop := s.pmemQueue = true ∧ vs = []

variable {G : Ask → Nat → Prop} {I : St → Prop} {s t : St} {os : List Nat} {vs : List Int32}

theorem holds_initial (file : List Char) : Holds (initial file) [] :=
  ⟨fun _ => rfl, [], ⟨chained_nil _, fun _ ho => absurd ho List.not_mem_nil, List.nodup_nil, List.not_mem_nil⟩, rfl⟩

/-- The log is no part of the queue. -/
theorem Holds.setFile (h : Holds s vs) (file : List Char) : Holds { s with file := file } vs := by
  obtain ⟨hnone, os, hnodes, hvs⟩ := h
  exact ⟨hnone, os, ⟨hnodes.chained, hnodes.live, hnodes.notFree, hnodes.null⟩, hvs⟩

/-- The queue has its values only. -/
theorem Holds.unique {ws : List Int32} (h : Holds s vs) (h' : Holds s ws) : vs = ws := by
  obtain ⟨-, os, hnodes, rfl⟩ := h
  obtain ⟨-, os', hnodes', rfl⟩ := h'
  rw [hnodes.chained.chain.unique hnodes'.chained.chain]

theorem Nodes.nil_iff (h : Nodes s os) : os = [] ↔ s.head = 0 := h.chained.chain.eq_nil_iff

theorem Holds.nil_iff (h : Holds s vs) : vs = [] ↔ s.head = 0 := by
  obtain ⟨-, os, hnodes, rfl⟩ := h
  rw [List.map_eq_nil_iff]
  exact hnodes.nil_iff

/-- An empty queue has no tail. -/
theorem Holds.tail_zero (h : Holds s []) : s.tail = 0 := by
  obtain ⟨-, os, hnodes, hvs⟩ := h
  have htail := hnodes.chained.tail
  rw [List.map_eq_nil_iff.mp hvs] at htail
  exact htail

theorem Holds.null (h : Holds s vs) : 0 ∉ s.live := by
  obtain ⟨-, os, hnodes, -⟩ := h
  exact hnodes.null

/-! ## Rules of the operations -/

/-- Nothing comes between the calls of the process. -/
abbrev awp {α : Type} (G : Ask → Nat → Prop) (c : Prog α) (Q : α → St → Prop) (s : St) : Prop :=
  Cmd.wp (fun s t => s = t) G (fun _ => True) c Q s

/-- An allocation always succeeds. -/
def Sure (G : Ask → Nat → Prop) : Prop := ∀ n, G .alloc n → n = 0

theorem sure_granted : Sure Ask.Granted := fun _ h => h

theorem wp_malloc (hG : Sure G) {Q : Nat → St → Prop}
    (hQ : ∀ node, node ∉ s.live → node ≠ 0 → Q node { s with live := node :: s.live }) : awp G malloc Q s := by
  unfold malloc
  refine (Cmd.wp_bind _ _ _ _).mpr ((Cmd.wp_succeeds _ _).mpr fun n hn => (Cmd.wp_ite _ _ _).mpr ⟨fun _ => ?_, fun hne => ?_⟩)
  · intro m _
    exact hQ _ (pick_notMem s.live m) (pick_ne_zero s.live m)
  · rw [hG n hn] at hne
    exact absurd rfl hne

theorem wp_deref {node : Nat} {Q : Unit → St → Prop} : awp G (deref node) Q s ↔ node ∈ s.live ∧ Q () s := by
  simp [deref, awp]

theorem wp_setValue {node : Nat} {x : Int32} {Q : Unit → St → Prop} : awp G (setValue node x) Q s ↔
    node ∈ s.live ∧ Q () { s with value := Function.update s.value node x } :=
  (Cmd.wp_bind _ _ _ _).trans wp_deref

theorem wp_setNext {node x : Nat} {Q : Unit → St → Prop} : awp G (setNext node x) Q s ↔
    node ∈ s.live ∧ Q () { s with next := Function.update s.next node x } :=
  (Cmd.wp_bind _ _ _ _).trans wp_deref

theorem wp_mallocQueue (hG : Sure G) {Q : Unit → St → Prop} (hQ : Q () { s with pmemQueue := true }) :
    awp G mallocQueue Q s := by
  unfold mallocQueue
  refine (Cmd.wp_bind _ _ _ _).mpr ((Cmd.wp_succeeds _ _).mpr fun n hn => ?_)
  refine (Cmd.wp_bind _ _ _ _).mpr ((Cmd.wp_check _ _).mpr ⟨?_, hQ⟩)
  rw [hG n hn]
  rfl

/-- The value is the last one. -/
theorem wp_queueEnqueV (hG : Sure G) (h : Holds s vs) (hd : ¬ Drained s vs) (value : Int32) :
    awp G (queueEnqueV value) (fun _ t => Holds t (vs ++ [value]) ∧ t.pmemQueue = true ∧ t.file = s.file) s := by
  obtain ⟨hnone, os, hnodes, hvs⟩ := h
  unfold queueEnqueV
  refine (Cmd.wp_bind _ _ _ _).mpr (wp_malloc hG fun node hnew hne => ?_)
  refine (Cmd.wp_bind _ _ _ _).mpr (wp_setValue.mpr ⟨List.mem_cons_self, ?_⟩)
  refine (Cmd.wp_bind _ _ _ _).mpr (wp_setNext.mpr ⟨List.mem_cons_self, ?_⟩)
  refine (Cmd.wp_bind _ _ _ _).mpr ((Cmd.wp_get _).mpr ?_)
  have hmem : node ∉ os := fun hos => hnew (hnodes.live node hos)
  have hlive : ∀ o ∈ os ++ [node], o ∈ node :: s.live := by
    intro o ho
    rcases List.mem_append.mp ho with ho | ho
    · exact List.mem_cons_of_mem _ (hnodes.live o ho)
    · rw [List.mem_singleton.mp ho]
      exact List.mem_cons_self
  have hnotFree : (node :: s.live).Nodup := List.nodup_cons.mpr ⟨hnew, hnodes.notFree⟩
  have hnull : 0 ∉ node :: s.live := by
    intro hz
    rcases List.mem_cons.mp hz with hz | hz
    · exact hne hz.symm
    · exact hnodes.null hz
  have hvalues : (os ++ [node]).map (Function.update s.value node value) = vs ++ [value] := by
    rw [List.map_append, ← hvs]
    congr 1
    · apply List.map_congr_left
      intro o ho
      have hon : o ≠ node := fun heq => hmem (heq ▸ ho)
      exact Function.update_of_ne hon _ _
    · rw [List.map_singleton, Function.update_self]
  have hnew0 : Function.update s.next node 0 node = 0 := Function.update_self node 0 s.next
  refine (Cmd.wp_ite _ _ _).mpr ⟨fun hq => ?_, fun hq => ?_⟩
  · -- the queue is allocated
    refine (Cmd.wp_bind _ _ _ _).mpr (wp_mallocQueue hG ?_)
    refine (Cmd.wp_bind _ _ _ _).mpr ((Cmd.wp_modify _ _).mpr ((Cmd.wp_modify _ _).mpr ?_))
    have hempty : os = [] := by
      have hnil := hnone hq
      rw [← hvs] at hnil
      exact List.map_eq_nil_iff.mp hnil
    subst hempty
    exact ⟨⟨fun h => absurd h (by simp), [node], ⟨Chained.single hne hnew0, hlive, hnotFree, hnull⟩, hvalues⟩, rfl, rfl⟩
  · -- the node is linked to the last one
    have hcreated : s.pmemQueue = true := by simpa using hq
    have hhead : s.head ≠ 0 := by
      intro hhead
      apply hd
      refine ⟨hcreated, ?_⟩
      rw [← hvs, hnodes.nil_iff.mpr hhead]
      rfl
    have htail := hnodes.chained.tail_mem hhead
    have htn : s.tail ≠ node := fun heq => hmem (heq ▸ htail)
    refine (Cmd.wp_bind _ _ _ _).mpr ((Cmd.wp_get _).mpr ((Cmd.wp_bind _ _ _ _).mpr ?_))
    refine wp_setNext.mpr ⟨List.mem_cons_of_mem _ (hnodes.live _ htail), (Cmd.wp_modify _ _).mpr ?_⟩
    refine ⟨⟨fun h => absurd h hq, os ++ [node], ⟨?_, hlive, hnotFree, hnull⟩, hvalues⟩, hcreated, rfl⟩
    apply hnodes.chained.push hhead hne hmem
    · show Function.update (Function.update s.next node 0) s.tail node s.tail = node
      rw [Function.update_self]
    · exact (Function.update_of_ne htn.symm _ _).trans hnew0
    · intro o ho hot
      have hon : o ≠ node := fun heq => hmem (heq ▸ ho)
      exact (Function.update_of_ne hot _ _).trans (Function.update_of_ne hon _ _)

/-- The oldest value leaves the queue. -/
theorem wp_queueDequeV (h : Holds s vs) (hd : ¬ Drained s vs) :
    awp G queueDequeV (fun x t => x = vs.head? ∧ Holds t vs.tail ∧ t.pmemQueue = s.pmemQueue ∧ t.file = s.file) s := by
  unfold queueDequeV
  refine (Cmd.wp_bind _ _ _ _).mpr ((Cmd.wp_get _).mpr ((Cmd.wp_ite _ _ _).mpr ⟨fun hq => ?_, fun hq => ?_⟩))
  · have hnil := h.1 hq
    subst hnil
    exact ⟨rfl, h, rfl, rfl⟩
  have hcreated : s.pmemQueue = true := by simpa using hq
  obtain ⟨-, os, hnodes, hvs⟩ := h
  subst hvs
  obtain ⟨o, os, rfl⟩ : ∃ o os', os = o :: os' := List.exists_cons_of_ne_nil fun hos => hd ⟨hcreated, by rw [hos]; rfl⟩
  have ho : s.head = o := hnodes.chained.chain.1
  have hlive : s.head ∈ s.live := ho ▸ hnodes.live o List.mem_cons_self
  have hnotin : o ∉ os := (List.nodup_cons.mp hnodes.chained.nodup).1
  -- the only node has no successor
  have hpop := hnodes.chained.pop
  have htail : (if s.head = s.tail then s.next s.tail else s.tail) = if s.head = s.tail then 0 else s.tail := by
    split_ifs with heq
    · have hos := hpop.tail
      rw [if_pos heq] at hos
      cases os with
      | nil => exact hos
      | cons x xs =>
        have hlast := hnodes.chained.tail
        rw [List.getLast?_cons_cons, List.getLast?_eq_some_getLast (List.cons_ne_nil x xs)] at hlast
        have hmem := List.getLast_mem (List.cons_ne_nil x xs)
        rw [← ho, heq, hlast] at hnotin
        exact absurd hmem hnotin
    · rfl
  rw [htail] at hpop
  refine (Cmd.wp_bind _ _ _ _).mpr ((Cmd.wp_get _).mpr ((Cmd.wp_bind _ _ _ _).mpr ((Cmd.wp_get _).mpr ?_)))
  have hend : ∀ u : St, u.head = s.head → u.tail = (if s.head = s.tail then 0 else s.tail) → u.next = s.next →
      u.value = s.value → u.live = s.live → u.pmemQueue = s.pmemQueue → u.file = s.file →
      awp G (do
        deref s.head
        setHead (← .get (St.next · s.head))
        let value ← .get (St.value · s.head)
        .modify fun s' => { s' with live := s'.live.erase s.head }
        return some value)
        (fun x t => x = ((o :: os).map s.value).head? ∧ Holds t ((o :: os).map s.value).tail ∧
          t.pmemQueue = s.pmemQueue ∧ t.file = s.file) u := by
    intro u hhead hutail hnext hvalue hulive hqueue hfile
    refine (Cmd.wp_bind _ _ _ _).mpr (wp_deref.mpr ⟨by rwa [hulive], ?_⟩)
    refine (Cmd.wp_bind _ _ _ _).mpr ((Cmd.wp_get _).mpr ((Cmd.wp_bind _ _ _ _).mpr ((Cmd.wp_modify _ _).mpr ?_)))
    refine (Cmd.wp_bind _ _ _ _).mpr ((Cmd.wp_get _).mpr ((Cmd.wp_bind _ _ _ _).mpr ((Cmd.wp_modify _ _).mpr ?_)))
    refine ⟨by rw [← hvalue, ho]; rfl, ⟨fun h => ?_, os, ⟨?_, fun x hx => ?_, ?_, ?_⟩, ?_⟩, hqueue, hfile⟩
    · exact absurd (hqueue.symm.trans h) hq
    · show Chained u.next (u.next s.head) u.tail os
      rw [hnext, hutail]
      exact hpop
    · show x ∈ u.live.erase s.head
      have hxo : x ≠ s.head := fun heq => hnotin (ho ▸ heq ▸ hx)
      rw [hulive]
      exact (List.mem_erase_of_ne hxo).mpr (hnodes.live x (List.mem_cons_of_mem _ hx))
    · show (u.live.erase s.head).Nodup
      rw [hulive]
      exact hnodes.notFree.erase _
    · show 0 ∉ u.live.erase s.head
      rw [hulive]
      exact fun hz => hnodes.null (List.mem_of_mem_erase hz)
    · show os.map u.value = _
      rw [hvalue]
      rfl
  refine (Cmd.wp_bind _ _ _ _).mpr ((Cmd.wp_ite _ _ _).mpr ⟨fun heq => ?_, fun hne => ?_⟩)
  · apply hend { s with tail := 0 } rfl _ rfl rfl rfl rfl rfl
    exact (if_pos heq).symm
  · apply hend s rfl _ rfl rfl rfl rfl rfl
    exact (if_neg hne).symm

/-- The loop of `queue_show` prints the nodes that are left. -/
theorem wp_showNodes (hlive : ∀ o ∈ os, o ∈ s.live) (rounds : Nat) {node : Nat} (h : Chain s.next node os) :
    awp G (showNodes rounds node)
      (fun x t => t = s ∧ x = if os.length ≤ rounds then some (os.map s.value) else none) s := by
  induction rounds generalizing node os with
  | zero =>
    refine ⟨rfl, ?_⟩
    by_cases hnode : node = 0
    · rw [h.eq_nil_iff.mpr hnode]
      exact if_pos hnode
    · have hlen : ¬ os.length ≤ 0 := fun hle => hnode (h.eq_nil_iff.mp (List.length_eq_zero_iff.mp (Nat.le_zero.mp hle)))
      rw [if_neg hnode, if_neg hlen]
  | succ rounds ih =>
    unfold showNodes
    refine (Cmd.wp_ite _ _ _).mpr ⟨fun hnode => ?_, fun hnode => ?_⟩
    · rw [h.eq_nil_iff.mpr hnode]
      exact ⟨rfl, rfl⟩
    cases os with
    | nil => exact absurd h hnode
    | cons o os =>
      obtain ⟨rfl, -, h⟩ := h
      refine (Cmd.wp_bind _ _ _ _).mpr (wp_deref.mpr ⟨hlive node List.mem_cons_self, ?_⟩)
      refine (Cmd.wp_bind _ _ _ _).mpr ((Cmd.wp_get _).mpr ((Cmd.wp_bind _ _ _ _).mpr ((Cmd.wp_get _).mpr ?_)))
      have hrest := ih (fun o ho => hlive o (List.mem_cons_of_mem _ ho)) h
      refine (Cmd.wp_bind _ _ _ _).mpr (Cmd.wp_conseq hrest fun x t hx => ?_)
      obtain ⟨rfl, rfl⟩ := hx
      refine ⟨rfl, ?_⟩
      simp only [List.length_cons, Nat.add_le_add_iff_right]
      split_ifs with hle
      · rfl
      · rfl

/-- `queue_show` prints the values, the oldest first. -/
theorem wp_queueShow (h : Holds s vs) (rounds : Nat) :
    awp G (queueShow rounds) (fun x t => t = s ∧
      x.map Prod.snd = if vs.length ≤ rounds then some vs else none) s := by
  unfold queueShow
  refine (Cmd.wp_bind _ _ _ _).mpr ((Cmd.wp_get _).mpr ((Cmd.wp_ite _ _ _).mpr ⟨fun hq => ?_, fun hq => ?_⟩))
  · rw [h.1 hq]
    exact ⟨rfl, rfl⟩
  obtain ⟨-, os, hnodes, rfl⟩ := h
  refine (Cmd.wp_bind _ _ _ _).mpr ((Cmd.wp_get _).mpr ((Cmd.wp_bind _ _ _ _).mpr ?_))
  refine Cmd.wp_conseq (wp_showNodes hnodes.live rounds hnodes.chained.chain) fun x t hx => ?_
  obtain ⟨rfl, rfl⟩ := hx
  refine ⟨rfl, ?_⟩
  rw [List.length_map]
  split_ifs with hle
  · rfl
  · rfl

end PmemProgram.Queue.Aof
