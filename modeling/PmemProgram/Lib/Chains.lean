import PmemProgram.Lib.Objects

/-!
# Many linked lists in one memory

* `Chains next head nodes is others live` : for each `i` in `is` the links from `head i` go through `nodes i`, and the live
  objects are these nodes and `others`, each once;
* `Chains.mem`, `Chains.apart`, `Chains.notMem_nodes` : the nodes are live, and each is in one list;
* `Chains.cons` : a new object becomes the first of one list;
* `Chains.split`, `Chains.tail` : the first list, and what is left without it.
-/

namespace PmemProgram.Lib.Objects

variable {ι : Type} {next next' : Nat → Nat} {head : ι → Nat} {nodes : ι → List Nat} {is : List ι}
  {others live : List Nat} {i j : ι} {n o : Nat}

structure Chains (next : Nat → Nat) (head : ι → Nat) (nodes : ι → List Nat) (is : List ι) (others live : List Nat) :
    Prop where
  chain : ∀ i ∈ is, Chain next (head i) (nodes i)
  perm : live.Perm (others ++ is.flatMap nodes)
  nodup : live.Nodup

namespace Chains

theorem mem (h : Chains next head nodes is others live) (hi : i ∈ is) (ho : o ∈ nodes i) : o ∈ live :=
  h.perm.mem_iff.mpr (List.mem_append_right _ (List.mem_flatMap.mpr ⟨i, hi, ho⟩))

theorem mem_others (h : Chains next head nodes is others live) (ho : o ∈ others) : o ∈ live :=
  h.perm.mem_iff.mpr (List.mem_append_left _ ho)

theorem nodup_all (h : Chains next head nodes is others live) : (others ++ is.flatMap nodes).Nodup :=
  h.perm.nodup_iff.mp h.nodup

theorem nodup_nodes (h : Chains next head nodes is others live) (hi : i ∈ is) : (nodes i).Nodup :=
  (List.nodup_flatMap.mp (List.nodup_append.mp h.nodup_all).2.1).1 i hi

/-- The objects beside the lists are in none of them. -/
theorem notMem_nodes (h : Chains next head nodes is others live) (hi : i ∈ is) (ho : o ∈ others) : o ∉ nodes i := fun hmem =>
  (List.nodup_append.mp h.nodup_all).2.2 o ho o (List.mem_flatMap.mpr ⟨i, hi, hmem⟩) rfl

/-- No object is in two lists. -/
theorem apart (h : Chains next head nodes is others live) (hi : i ∈ is) (hj : j ∈ is) (hne : i ≠ j) (ho : o ∈ nodes i) :
    o ∉ nodes j := by
  intro ho'
  have hpair := (List.nodup_flatMap.mp (List.nodup_append.mp h.nodup_all).2.1).2
  have : Std.Symm (Function.onFun List.Disjoint nodes) := ⟨fun _ _ hd => hd.symm⟩
  exact hpair.forall hi hj hne ho ho'

/-- A new object is linked before the first one of a list. -/
theorem cons [DecidableEq ι] (h : Chains next head nodes is others live) (his : is.Nodup) (hi : i ∈ is) (hn : n ≠ 0)
    (hnew : n ∉ live) (hlink : next' n = head i) (hnext : ∀ x ∈ live, next' x = next x) :
    Chains next' (Function.update head i n) (Function.update nodes i (n :: nodes i)) is others (n :: live) := by
  refine ⟨fun j hj => ?_, ?_, List.nodup_cons.mpr ⟨hnew, h.nodup⟩⟩
  · by_cases hji : j = i
    · subst hji
      rw [Function.update_self, Function.update_self]
      refine ⟨rfl, hn, ?_⟩
      rw [hlink]
      exact (h.chain j hj).congr fun x hx => hnext x (h.mem hj hx)
    · rw [Function.update_of_ne hji, Function.update_of_ne hji]
      exact (h.chain j hj).congr fun x hx => hnext x (h.mem hj hx)
  · obtain ⟨before, after, rfl⟩ := List.append_of_mem hi
    have hsame : ∀ js : List ι, i ∉ js → js.flatMap (Function.update nodes i (n :: nodes i)) = js.flatMap nodes := by
      intro js hjs
      refine List.flatMap_congr fun j hj => Function.update_of_ne ?_ _ _
      rintro rfl
      exact hjs hj
    have hnot := List.nodup_append.mp his
    have hbefore : i ∉ before := fun hmem => hnot.2.2 i hmem i List.mem_cons_self rfl
    have hafter : i ∉ after := (List.nodup_cons.mp hnot.2.1).1
    have hperm := h.perm
    rw [List.flatMap_append, List.flatMap_cons] at hperm ⊢
    rw [hsame before hbefore, hsame after hafter, Function.update_self]
    refine (hperm.cons n).trans ?_
    have hmiddle : (n :: (others ++ before.flatMap nodes)).Perm ((others ++ before.flatMap nodes) ++ [n]) :=
      (List.perm_append_singleton n _).symm
    simpa using hmiddle.append_right (nodes i ++ after.flatMap nodes)

/-- The objects of the first list, and all others. -/
theorem split (h : Chains next head nodes (i :: is) others live) :
    live.Perm (nodes i ++ (others ++ is.flatMap nodes)) := by
  refine h.perm.trans ?_
  rw [List.flatMap_cons, ← List.append_assoc, ← List.append_assoc]
  exact List.perm_append_comm.append_right _

/-- The first list is gone. -/
theorem tail (h : Chains next head nodes (i :: is) others live) {live' : List Nat}
    (hperm : live'.Perm (others ++ is.flatMap nodes)) : Chains next head nodes is others live' := by
  refine ⟨fun j hj => h.chain j (List.mem_cons_of_mem _ hj), hperm, hperm.nodup_iff.mpr ?_⟩
  exact (List.nodup_append.mp (h.split.nodup_iff.mp h.nodup)).2.1

end Chains

end PmemProgram.Lib.Objects
