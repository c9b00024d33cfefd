import PmemProgram.Lib.Tx

/-!
# The persistent queue (`queue_pmemobj.cpp`)

The root has the first and the last node of a linked list of nodes.

* `queueEnque`, `queueDeque`, `queueShow` : the three operations over the cells of `Cell`;
* `Holds s vs` : the nodes from the head to the tail are a list with the values `vs`;
* `wp_queueEnque`, `wp_queueDeque`, `wp_queueShow` : what the operations do to it; a crash in them leaves what was there.
-/

namespace PmemProgram.Queue.Pmemobj
open PmemProgram.Lib PmemProgram.Lib.Tx PmemProgram.Lib.Objects

/-- The fields of `struct queue`, and those of `struct queue_node` in the object `o`. -/
inductive Cell
  | head
  | tail
  | value (o : Nat)
  | next (o : Nat)
  deriving DecidableEq

/-- What the cells hold: object ids or an `int`. -/
abbrev Cell.Val : Cell → Type
  | head => Nat
  | tail => Nat
  | value _ => Int32
  | next _ => Nat

instance : Cells Cell where
  owner
    | .head => none
    | .tail => none
    | .value o => some o
    | .next o => some o

/-- The new node becomes the last one. -/
def linkNode (head tail newnode : Nat) : Code Cell.Val Unit := do
  if head = 0 then
    txAdd [.head, .tail]
    store .head newnode
    store .tail newnode
  else
    direct tail
    txAdd [.next tail]
    store (.next tail) newnode
    txAdd [.tail]
    store .tail newnode

/-- What `queue_enque` does in its transaction; `false` if there is no memory for the node. -/
def enqueNode (value : Int32) : Code Cell.Val Bool := do
  let head ← load .head
  let tail ← load .tail
  let some newnode ← txAlloc | return false
  direct newnode
  store (.value newnode) value
  store (.next newnode) (0 : Nat)
  linkNode head tail newnode
  return true

/-- `queue_enque`, with whether the node is in the queue. -/
def queueEnque (value : Int32) : Code Cell.Val Bool := do
  txBegin
  if ← enqueNode value then
    txEnd
    return true
  else
    txAbort
    return false

/-- `if(TOID_EQUALS(head,tail))`: the only node leaves the queue. -/
def dropTail (head tail : Nat) : Code Cell.Val Unit := do
  if head = tail then
    txAdd [.tail]
    let next ← load (Cell.next tail)
    store .tail next
  else return ()

/-- `queue_deque`; `none` is `-1`, returned from the middle of the transaction. -/
def queueDeque : Code Cell.Val (Option Int32) := do
  txBegin
  let head ← load Cell.head
  let tail ← load Cell.tail
  if head = 0 then return none
  else
    direct head
    let value ← load (Cell.value head)
    txAdd [.head]
    let next ← load (Cell.next head)
    store .head next
    dropTail head tail
    txFree head
    txEnd
    return some value

/-- The loop of `queue_show`, with what it prints; `none` if it is still running after so many rounds. -/
def showNodes : Nat → Nat → Code Cell.Val (Option (List Int32))
  | 0, _ => return none
  | rounds + 1, head => do
    if head = 0 then return some []
    else
      direct head
      let value ← load (Cell.value head)
      let next ← load (Cell.next head)
      let printed ← showNodes rounds next
      return printed.map (value :: ·)

/-- `queue_show`: what it returns and what it prints. -/
def queueShow (rounds : Nat) : Code Cell.Val (Option (Int × List Int32)) := do
  let head ← load Cell.head
  if head = 0 then return some (-1, [])
  else
    let printed ← showNodes rounds head
    return printed.map fun vs => (0, vs)

/-! ## The list of the queue -/

section
variable (s : Store Cell.Val)

def nextOf (o : Nat) : Nat := s.mem (.next o)

def valueOf (o : Nat) : Int32 := s.mem (.value o)

def headOf : Nat := s.mem .head

def tailOf : Nat := s.mem .tail

/-- The nodes of the queue, from the head to the tail. -/
structure Nodes (os : List Nat) : Prop where
  chained : Chained (nextOf s) (headOf s) (tailOf s) os
  live : ∀ o ∈ os, o ∈ s.live

/-- The queue has the values `vs`, the oldest first. -/
def Holds (vs : List Int32) : Prop := s.Idle ∧ ∃ os, Nodes s os ∧ os.map (valueOf s) = vs

/-- A pool that has just been created. -/
structure Created : Prop where
  idle : s.Idle
  head : headOf s = 0
  tail : tailOf s = 0

end

variable {G : Ask → Nat → Prop} {I : Store Cell.Val → Prop} {p s t : Store Cell.Val} {os : List Nat} {vs : List Int32}

theorem Created.holds (h : Created s) : Holds s [] := by
  refine ⟨h.idle, [], ⟨?_, fun o ho => by cases ho⟩, rfl⟩
  rw [h.head, h.tail]
  exact chained_nil _

theorem Nodes.alive_value (h : Nodes s os) {o : Nat} (ho : o ∈ os) : Alive s (.value o) := by
  intro o' heq
  cases heq
  exact h.live o ho

theorem Nodes.alive_next (h : Nodes s os) {o : Nat} (ho : o ∈ os) : Alive s (.next o) := by
  intro o' heq
  cases heq
  exact h.live o ho

theorem headOf_same (h : Same s t) : headOf t = headOf s := h.mem .head fun o heq => by cases heq

theorem tailOf_same (h : Same s t) : tailOf t = tailOf s := h.mem .tail fun o heq => by cases heq

/-- A queue that is left as it was holds what it held. -/
theorem Holds.same (h : Holds s vs) (hst : Same s t) (ht : t.Idle) : Holds t vs := by
  obtain ⟨-, os, hnodes, hvs⟩ := h
  refine ⟨ht, os, ⟨?_, fun o ho => ?_⟩, ?_⟩
  · rw [headOf_same hst, tailOf_same hst]
    exact hnodes.chained.congr fun o ho => hst.mem _ (hnodes.alive_next ho)
  · rw [hst.live]
    exact hnodes.live o ho
  · rw [← hvs]
    exact List.map_congr_left fun o ho => hst.mem _ (hnodes.alive_value ho)

/-- What a commit leaves in the queue. -/
theorem Holds.of_commit {u : Store Cell.Val} (hchained : Chained (nextOf u) (headOf u) (tailOf u) os)
    (hlive : ∀ o ∈ os, o ∈ u.live ∧ o ∉ u.freed) (hvalues : os.map (valueOf u) = vs) : Holds u.commit vs := by
  refine ⟨Store.idle_closed _ _, os, ⟨hchained, fun o ho => ?_⟩, hvalues⟩
  apply List.mem_filter.mpr
  exact ⟨(hlive o ho).1, decide_eq_true (hlive o ho).2⟩

/-! ## Rules of the operations -/

/-- What the transaction of `queue_enque` leaves before its end. -/
def Enqued (G : Ask → Nat → Prop) (p : Store Cell.Val) (vs : List Int32) (done : Bool) (u : Store Cell.Val) : Prop :=
  Covered p u ∧ if done then u.depth = 1 ∧ Holds u.commit vs else ∃ n, G .alloc n ∧ n ≠ 0

section
variable (u : Store Cell.Val) (o o' : Nat)

theorem nextOf_put (x : Nat) : nextOf (u.put (.next o) x) o' = if o' = o then x else nextOf u o' := by
  split_ifs with h
  · rw [h]
    exact u.put_mem_self _ _
  · exact u.put_mem_of_ne _ fun heq => h (Cell.next.inj heq)

theorem valueOf_put (x : Int32) : valueOf (u.put (.value o) x) o' = if o' = o then x else valueOf u o' := by
  split_ifs with h
  · rw [h]
    exact u.put_mem_self _ _
  · exact u.put_mem_of_ne _ fun heq => h (Cell.value.inj heq)

end

/-- A node before it is linked. -/
def newNode (p : Store Cell.Val) (n : Nat) (value : Int32) : Store Cell.Val :=
  ((p.begin.alloc n).put (.value n) value).put (.next n) (0 : Nat)

section
variable {n : Nat} {value : Int32}

theorem nextOf_newNode (o : Nat) : nextOf (newNode p n value) o = if o = n then 0 else nextOf p o := by
  rw [newNode, nextOf_put]
  exact congrArg _ ((p.begin.alloc n).put_mem_of_ne _ fun heq => Cell.noConfusion heq)

theorem valueOf_newNode (o : Nat) : valueOf (newNode p n value) o = if o = n then value else valueOf p o := by
  have hnext : valueOf (newNode p n value) o = valueOf ((p.begin.alloc n).put (.value n) value) o :=
    Store.put_mem_of_ne _ _ fun heq => Cell.noConfusion heq
  rw [hnext, valueOf_put]
  rfl

theorem wp_linkNode (h : Holds p vs) (hnew : n ∉ p.live) (hn : n ≠ 0) (hc : Covered p (newNode p n value)) :
    twp G (Undone p) (linkNode (headOf p) (tailOf p) n) (fun _ u => Enqued G p (vs ++ [value]) true u) (newNode p n value) := by
  obtain ⟨hidle, os, hnodes, hvs⟩ := h
  have hmem : n ∉ os := fun hos => hnew (hnodes.live n hos)
  have hdepth : p.depth + 1 = 1 := congrArg (· + 1) hidle.depth
  have hlive : ∀ o ∈ os ++ [n], o ∈ n :: p.live ∧ o ∉ p.freed := by
    intro o ho
    rw [hidle.freed]
    refine ⟨?_, List.not_mem_nil⟩
    rcases List.mem_append.mp ho with ho | ho
    · exact List.mem_cons_of_mem _ (hnodes.live o ho)
    · rw [List.mem_singleton.mp ho]
      exact List.mem_cons_self
  have hvalues : (os ++ [n]).map (valueOf (newNode p n value)) = vs ++ [value] := by
    rw [List.map_append, ← hvs]
    congr 1
    · apply List.map_congr_left
      intro o ho
      have hne : o ≠ n := fun heq => hmem (heq ▸ ho)
      rw [valueOf_newNode, if_neg hne]
    · rw [List.map_singleton, valueOf_newNode, if_pos rfl]
  unfold linkNode
  refine (Cmd.wp_ite _ _ _).mpr ⟨fun hhead => ?_, fun hhead => ?_⟩
  · -- the node is the only one
    refine (Cmd.wp_bind _ _ _ _).mpr (wp_txAdd hc fun h₁ => ?_)
    refine (Cmd.wp_bind _ _ _ _).mpr (wp_store h₁ (fun _ => ?_) fun h₂ => ?_)
    · simp [Store.add]
    refine wp_store h₂ (fun _ => ?_) fun h₃ => ?_
    · simp [Store.add, Store.put]
    refine ⟨h₃, hdepth, Holds.of_commit ?_ hlive hvalues⟩
    have hempty := hnodes.chained.chain.eq_nil_iff.mpr hhead
    subst hempty
    apply Chained.single hn
    show nextOf (newNode p n value) n = 0
    rw [nextOf_newNode, if_pos rfl]
  · -- the node is linked to the last one
    have htail := hnodes.chained.tail_mem hhead
    refine (Cmd.wp_bind _ _ _ _).mpr (wp_direct.mpr ⟨List.mem_cons_of_mem _ (hnodes.live _ htail), ?_⟩)
    refine (Cmd.wp_bind _ _ _ _).mpr (wp_txAdd hc fun h₁ => ?_)
    refine (Cmd.wp_bind _ _ _ _).mpr (wp_store h₁ (fun _ => ?_) fun h₂ => ?_)
    · simp [Store.add]
    refine (Cmd.wp_bind _ _ _ _).mpr (wp_txAdd h₂ fun h₃ => ?_)
    refine wp_store h₃ (fun _ => ?_) fun h₄ => ?_
    · simp [Store.add]
    refine ⟨h₄, hdepth, Holds.of_commit ?_ hlive hvalues⟩
    have hne : n ≠ tailOf p := fun heq => hmem (heq ▸ htail)
    have hnext : ∀ o, nextOf (((newNode p n value).add [.next (tailOf p)]).put (.next (tailOf p)) n) o =
        if o = tailOf p then n else if o = n then 0 else nextOf p o := by
      intro o
      rw [nextOf_put]
      exact congrArg _ (nextOf_newNode o)
    apply hnodes.chained.push hhead hn hmem
    · exact (hnext _).trans (if_pos rfl)
    · exact (hnext _).trans ((if_neg hne).trans (if_pos rfl))
    · intro o ho hotail
      have hon : o ≠ n := fun heq => hmem (heq ▸ ho)
      exact (hnext _).trans ((if_neg hotail).trans (if_neg hon))

theorem wp_enqueNode (h : Holds p vs) :
    twp G (Undone p) (enqueNode value) (Enqued G p (vs ++ [value])) p.begin := by
  have h₀ := (Covered.refl h.1).begin
  unfold enqueNode
  refine (Cmd.wp_bind _ _ _ _).mpr (wp_load.mpr ((Cmd.wp_bind _ _ _ _).mpr (wp_load.mpr ?_)))
  refine (Cmd.wp_bind _ _ _ _).mpr (wp_txAlloc h₀ (fun hn => ⟨h₀, hn⟩) fun n hnew hn h₁ => ?_)
  have hfresh : ∀ a, Cells.owner a = some n → ¬ Alive p a := fun a ha => h₁.fresh ha List.mem_cons_self
  refine (Cmd.wp_bind _ _ _ _).mpr (wp_direct.mpr ⟨List.mem_cons_self, ?_⟩)
  refine (Cmd.wp_bind _ _ _ _).mpr (wp_store h₁ (fun ha => absurd ha (hfresh _ rfl)) fun h₂ => ?_)
  refine (Cmd.wp_bind _ _ _ _).mpr (wp_store h₂ (fun ha => absurd ha (hfresh _ rfl)) fun h₃ => ?_)
  exact (Cmd.wp_bind _ _ _ _).mpr (Cmd.wp_conseq (wp_linkNode h hnew hn h₃) fun _ u hu => hu)

/-- The value is the last one, or there was no memory. -/
theorem wp_queueEnque (h : Holds p vs) :
    twp G (Undone p) (queueEnque value)
      (fun done t => if done then Holds t (vs ++ [value]) else Holds t vs ∧ ∃ n, G .alloc n ∧ n ≠ 0) p := by
  unfold queueEnque
  refine (Cmd.wp_bind _ _ _ _).mpr (wp_txBegin (Covered.refl h.1) fun _ => ?_)
  refine (Cmd.wp_bind _ _ _ _).mpr (Cmd.wp_conseq (wp_enqueNode h) fun done u hu => ?_)
  obtain ⟨hc, hdone⟩ := hu
  cases done with
  | true =>
    obtain ⟨hdepth, hu⟩ := hdone
    refine (Cmd.wp_bind _ _ _ _).mpr (wp_txEnd hc ?_)
    show Holds u.finish (vs ++ [value])
    rwa [Store.finish_outermost hdepth.le]
  | false =>
    refine (Cmd.wp_bind _ _ _ _).mpr (wp_txAbort hc fun hsame hidle => ?_)
    exact ⟨h.same hsame hidle, hdone⟩

/-- The queue without its first node. -/
theorem wp_dropTail {u : Store Cell.Val} {head tail : Nat} {Q : Unit → Store Cell.Val → Prop} (hc : Covered p u)
    (hsame : head = tail → Covered p ((u.add [.tail]).put .tail (nextOf u tail)) →
      Q () ((u.add [.tail]).put .tail (nextOf u tail)))
    (hne : head ≠ tail → Q () u) : twp G (Undone p) (dropTail head tail) Q u := by
  unfold dropTail
  refine (Cmd.wp_ite _ _ _).mpr ⟨fun heq => ?_, hne⟩
  refine (Cmd.wp_bind _ _ _ _).mpr (wp_txAdd hc fun h₁ => ?_)
  refine (Cmd.wp_bind _ _ _ _).mpr (wp_load.mpr ?_)
  exact wp_store h₁ (fun _ => by simp [Store.add]) (hsame heq)

/-- The oldest value leaves the queue. A transaction on an empty queue is left open. -/
theorem wp_queueDeque (h : Holds p vs) :
    twp G (Undone p) queueDeque (fun x t => x = vs.head? ∧ if vs = [] then t = p.begin else Holds t vs.tail) p := by
  obtain ⟨hidle, os, hnodes, hvs⟩ := h
  unfold queueDeque
  refine (Cmd.wp_bind _ _ _ _).mpr (wp_txBegin (Covered.refl hidle) fun h₀ => ?_)
  refine (Cmd.wp_bind _ _ _ _).mpr (wp_load.mpr ((Cmd.wp_bind _ _ _ _).mpr (wp_load.mpr ?_)))
  refine (Cmd.wp_ite _ _ _).mpr ⟨fun hhead => ?_, fun hhead => ?_⟩
  · have hempty := hnodes.chained.chain.eq_nil_iff.mpr hhead
    rw [hempty, List.map_nil] at hvs
    subst hvs
    exact ⟨rfl, rfl⟩
  obtain ⟨o, os', rfl⟩ : ∃ o os', os = o :: os' := List.exists_cons_of_ne_nil fun hos =>
    hhead (hnodes.chained.chain.eq_nil_iff.mp hos)
  have ho : headOf p = o := hnodes.chained.chain.1
  have hlive : o ∈ p.live := hnodes.live o List.mem_cons_self
  have hnotin : o ∉ os' := (List.nodup_cons.mp hnodes.chained.nodup).1
  subst hvs
  have hpop := hnodes.chained.pop
  refine (Cmd.wp_bind _ _ _ _).mpr (wp_direct.mpr ⟨show headOf p ∈ p.live by rwa [ho], ?_⟩)
  refine (Cmd.wp_bind _ _ _ _).mpr (wp_load.mpr ((Cmd.wp_bind _ _ _ _).mpr ?_))
  refine wp_txAdd h₀ fun h₁ => (Cmd.wp_bind _ _ _ _).mpr (wp_load.mpr ((Cmd.wp_bind _ _ _ _).mpr ?_))
  refine wp_store h₁ (fun _ => by simp [Store.add]) fun h₂ => (Cmd.wp_bind _ _ _ _).mpr ?_
  -- whatever becomes of the tail, the node is freed and the transaction ends
  have hend : ∀ u : Store Cell.Val, Covered p u → u.depth = 1 → u.freed = [] → u.live = p.live → nextOf u = nextOf p →
      valueOf u = valueOf p → headOf u = nextOf p (headOf p) →
      tailOf u = (if headOf p = tailOf p then nextOf p (tailOf p) else tailOf p) →
      twp G (Undone p) (do txFree (headOf p); txEnd; return some (valueOf p (headOf p)))
        (fun x t => x = ((o :: os').map (valueOf p)).head? ∧ if (o :: os').map (valueOf p) = [] then t = p.begin
          else Holds t ((o :: os').map (valueOf p)).tail) u := by
    intro u hu hdepth hfreed hulive hnext hvalue hhead' htail'
    refine (Cmd.wp_bind _ _ _ _).mpr (wp_txFree hu (by rw [hulive, ho]; exact hlive) fun hu' => ?_)
    refine (Cmd.wp_bind _ _ _ _).mpr (wp_txEnd hu' ?_)
    rw [Store.finish_outermost (s := u.free (headOf p)) hdepth.le]
    refine ⟨by rw [ho]; rfl, ?_⟩
    rw [if_neg (by simp)]
    have hchained : Chained (nextOf u) (headOf u) (tailOf u) os' := by
      rw [hnext, hhead', htail']
      exact hpop
    refine Holds.of_commit (u := u.free (headOf p)) hchained ?_ ?_
    · intro x hx
      have hxo : x ≠ o := fun heq => hnotin (heq ▸ hx)
      refine ⟨?_, ?_⟩
      · show x ∈ u.live
        rw [hulive]
        exact hnodes.live x (List.mem_cons_of_mem _ hx)
      · show x ∉ headOf p :: u.freed
        rw [hfreed, ho]
        simpa using hxo
    · show os'.map (valueOf u) = _
      rw [hvalue]
      rfl
  have hdepth : p.depth + 1 = 1 := congrArg (· + 1) hidle.depth
  refine wp_dropTail h₂ (fun heq hc => ?_) (fun hne => ?_)
  · apply hend _ hc hdepth hidle.freed rfl rfl rfl rfl
    exact (if_pos (show headOf p = tailOf p from heq)).symm
  · apply hend _ h₂ hdepth hidle.freed rfl rfl rfl rfl
    exact (if_neg (show headOf p ≠ tailOf p from hne)).symm

/-- The loop of `queue_show` prints the nodes that are left, and ends after one round more than there are. -/
theorem wp_showNodes (hlive : ∀ o ∈ os, o ∈ s.live) (rounds : Nat) {head : Nat} (h : Chain (nextOf s) head os) :
    twp G I (showNodes rounds head)
      (fun x t => x = (if os.length < rounds then some (os.map (valueOf s)) else none) ∧ t = s) s := by
  induction rounds generalizing head os with
  | zero => exact ⟨rfl, rfl⟩
  | succ rounds ih =>
    unfold showNodes
    refine (Cmd.wp_ite _ _ _).mpr ⟨fun hhead => ?_, fun hhead => ?_⟩
    · rw [h.eq_nil_iff.mpr hhead]
      exact ⟨rfl, rfl⟩
    cases os with
    | nil => exact absurd h hhead
    | cons o os =>
      obtain ⟨rfl, -, h⟩ := h
      refine (Cmd.wp_bind _ _ _ _).mpr (wp_direct.mpr ⟨hlive head List.mem_cons_self, ?_⟩)
      refine (Cmd.wp_bind _ _ _ _).mpr (wp_load.mpr ((Cmd.wp_bind _ _ _ _).mpr (wp_load.mpr ?_)))
      have hrest := ih (fun o ho => hlive o (List.mem_cons_of_mem _ ho)) h
      refine (Cmd.wp_bind _ _ _ _).mpr (Cmd.wp_conseq hrest fun x t hx => ?_)
      obtain ⟨rfl, rfl⟩ := hx
      refine ⟨?_, rfl⟩
      simp only [List.length_cons, Nat.add_lt_add_iff_right]
      split_ifs with hlt
      · rfl
      · rfl

/-- `queue_show` prints the values, the oldest first, and ends. -/
theorem wp_queueShow (h : Holds s vs) (rounds : Nat) :
    twp G I (queueShow rounds) (fun x t => t = s ∧
      x = if vs = [] then some (-1, []) else if vs.length < rounds then some (0, vs) else none) s := by
  obtain ⟨-, os, hnodes, hvs⟩ := h
  have hempty : vs = [] ↔ headOf s = 0 := by
    rw [← hvs, List.map_eq_nil_iff]
    exact hnodes.chained.chain.eq_nil_iff
  unfold queueShow
  refine (Cmd.wp_bind _ _ _ _).mpr (wp_load.mpr ((Cmd.wp_ite _ _ _).mpr ⟨fun hhead => ?_, fun hhead => ?_⟩))
  · exact ⟨rfl, (if_pos (hempty.mpr hhead)).symm⟩
  · have hshow := wp_showNodes (G := G) (I := I) hnodes.live rounds hnodes.chained.chain
    refine (Cmd.wp_bind _ _ _ _).mpr (Cmd.wp_conseq hshow fun x t hx => ?_)
    obtain ⟨rfl, rfl⟩ := hx
    refine ⟨rfl, ?_⟩
    have hlen : os.length = vs.length := by rw [← hvs, List.length_map]
    rw [if_neg (fun hvs => hhead (hempty.mp hvs)), hlen, hvs]
    split_ifs with hlt
    · rfl
    · rfl

end

end PmemProgram.Queue.Pmemobj
