import Mathlib

/-!
# Objects and linked lists of them

Objects are numbers, and `0` is the null id. An allocator may hand out any object that is not live.

* `Ask`, `pick` : the answers of an allocator, and the object for one;
* `Chain next o os` : the links from `o` go through the objects `os` and end at null;
* `Chained next head tail os` : the list with this head and tail; `Chained.push`, `Chained.pop` : a list after an object is
  linked to its tail, or its head is dropped.
-/

namespace PmemProgram.Lib.Objects

/-- Does an allocation succeed, and which object does it hand out. -/
inductive Ask
  | alloc
  | object
  deriving DecidableEq, Repr

/-- Allocations succeed. -/
def Ask.Granted : Ask → Nat → Prop
  | .alloc, n => n = 0
  | .object, _ => True

/-- Allocations succeed or fail. -/
def AnyAnswer : Ask → Nat → Prop := fun _ _ => True

theorem granted_zero (q : Ask) : q.Granted 0 := by
  cases q
  · exact rfl
  · exact trivial

/-- The object that the allocator hands out, as it likes: any one that is not live. -/
def pick (live : List Nat) (n : Nat) : Nat := if n + 1 ∈ live then live.foldl max 0 + 1 else n + 1

theorem le_foldl_max (l : List Nat) (m : Nat) : m ≤ l.foldl max m ∧ ∀ o ∈ l, o ≤ l.foldl max m := by
  induction l generalizing m with
  | nil => exact ⟨le_rfl, fun o ho => by cases ho⟩
  | cons x l ih =>
    obtain ⟨hm, hl⟩ := ih (max m x)
    refine ⟨(le_max_left m x).trans hm, fun o ho => ?_⟩
    rcases List.mem_cons.mp ho with rfl | ho
    · exact (le_max_right m o).trans hm
    · exact hl o ho

theorem pick_notMem (live : List Nat) (n : Nat) : pick live n ∉ live := by
  unfold pick
  split_ifs with h
  · intro hmem
    have := (le_foldl_max live 0).2 _ hmem
    omega
  · exact h

theorem pick_ne_zero (live : List Nat) (n : Nat) : pick live n ≠ 0 := by
  unfold pick
  split_ifs <;> omega

/-! ## Linked lists -/

/-- The links from `o` go through `os` and end at null. -/
def Chain (next : Nat → Nat) : Nat → List Nat → Prop
  | o, [] => o = 0
  | o, x :: xs => o = x ∧ x ≠ 0 ∧ Chain next (next x) xs

variable {next next' : Nat → Nat} {o n head tail : Nat} {os : List Nat}

theorem Chain.congr (h : Chain next o os) (hnext : ∀ x ∈ os, next' x = next x) : Chain next' o os := by
  induction os generalizing o with
  | nil => exact h
  | cons x xs ih =>
    obtain ⟨rfl, hne, h⟩ := h
    refine ⟨rfl, hne, ?_⟩
    rw [hnext o List.mem_cons_self]
    exact ih h fun y hy => hnext y (List.mem_cons_of_mem _ hy)

theorem Chain.eq_nil_iff (h : Chain next o os) : os = [] ↔ o = 0 := by
  cases os with
  | nil => exact ⟨fun _ => h, fun _ => rfl⟩
  | cons x xs =>
    obtain ⟨rfl, hne, -⟩ := h
    exact ⟨fun hnil => absurd hnil (List.cons_ne_nil _ _), fun hz => absurd hz hne⟩

/-- The links of a list determine its objects. -/
theorem Chain.unique {xs : List Nat} (h : Chain next o os) (h' : Chain next o xs) : os = xs := by
  induction os generalizing o xs with
  | nil => exact (h'.eq_nil_iff.mpr h).symm
  | cons x os ih =>
    obtain ⟨rfl, hne, h⟩ := h
    cases xs with
    | nil => exact absurd h' hne
    | cons y xs =>
      obtain ⟨rfl, -, h'⟩ := h'
      rw [ih h h']

/-- A new object is linked to the last one. -/
theorem Chain.snoc (h : Chain next o os) (hne : os ≠ []) (hnodup : os.Nodup) (hn : n ≠ 0) (hlast : next' (os.getLast hne) = n)
    (hnew : next' n = 0) (hrest : ∀ x ∈ os, x ≠ os.getLast hne → next' x = next x) : Chain next' o (os ++ [n]) := by
  induction os generalizing o with
  | nil => exact absurd rfl hne
  | cons x xs ih =>
    obtain ⟨rfl, ho, h⟩ := h
    refine ⟨rfl, ho, ?_⟩
    by_cases hxs : xs = []
    · subst hxs
      exact ⟨hlast, hn, hnew⟩
    · have hlast' : (o :: xs).getLast hne = xs.getLast hxs := List.getLast_cons hxs
      rw [hlast'] at hlast hrest
      obtain ⟨hmem, hnodup⟩ := List.nodup_cons.mp hnodup
      have hox : o ≠ xs.getLast hxs := fun heq => hmem (heq ▸ List.getLast_mem hxs)
      rw [hrest o List.mem_cons_self hox]
      exact ih h hxs hnodup hlast fun y hy => hrest y (List.mem_cons_of_mem _ hy)

/-- The list from `head` to `tail`; both are null if it is empty. -/
structure Chained (next : Nat → Nat) (head tail : Nat) (os : List Nat) : Prop where
  chain : Chain next head os
  nodup : os.Nodup
  tail : tail = os.getLast?.getD 0

theorem chained_nil (next : Nat → Nat) : Chained next 0 0 [] := ⟨rfl, List.nodup_nil, rfl⟩

namespace Chained

theorem congr (h : Chained next head tail os) (hnext : ∀ x ∈ os, next' x = next x) : Chained next' head tail os :=
  ⟨h.chain.congr hnext, h.nodup, h.tail⟩

theorem tail_mem (h : Chained next head tail os) (hhead : head ≠ 0) : tail ∈ os := by
  have hne : os ≠ [] := fun hos => hhead (h.chain.eq_nil_iff.mp hos)
  rw [h.tail, List.getLast?_eq_some_getLast hne]
  exact List.getLast_mem hne

/-- The first object of an empty list. -/
theorem single (hn : n ≠ 0) (hnew : next n = 0) : Chained next n n [n] :=
  ⟨⟨rfl, hn, hnew⟩, List.nodup_singleton n, rfl⟩

theorem push (h : Chained next head tail os) (hhead : head ≠ 0) (hn : n ≠ 0) (hmem : n ∉ os) (hlast : next' tail = n)
    (hnew : next' n = 0) (hrest : ∀ x ∈ os, x ≠ tail → next' x = next x) : Chained next' head n (os ++ [n]) := by
  have hne : os ≠ [] := fun hos => hhead (h.chain.eq_nil_iff.mp hos)
  have htail : tail = os.getLast hne := by
    rw [h.tail, List.getLast?_eq_some_getLast hne]
    rfl
  rw [htail] at hlast hrest
  refine ⟨h.chain.snoc hne h.nodup hn hlast hnew hrest, ?_, ?_⟩
  · refine List.nodup_append.mpr ⟨h.nodup, List.nodup_singleton n, fun a ha b hb hab => ?_⟩
    rw [List.mem_singleton.mp hb] at hab
    exact hmem (hab ▸ ha)
  · rw [List.getLast?_concat]
    rfl

/-- The list without its head; the link of the tail becomes the tail if that was the only object. -/
theorem pop (h : Chained next head tail (o :: os)) :
    Chained next (next head) (if head = tail then next tail else tail) os := by
  obtain ⟨rfl, -, hchain⟩ := h.chain
  obtain ⟨hmem, hnodup⟩ := List.nodup_cons.mp h.nodup
  have htail := h.tail
  refine ⟨hchain, hnodup, ?_⟩
  cases os with
  | nil =>
    have heq : head = tail := htail.symm
    rw [if_pos heq, ← heq]
    exact hchain
  | cons x xs =>
    rw [List.getLast?_cons_cons] at htail
    rw [if_neg, htail]
    intro heq
    apply hmem
    rw [heq, htail, List.getLast?_eq_some_getLast (List.cons_ne_nil x xs)]
    exact List.getLast_mem _

end Chained

end PmemProgram.Lib.Objects
