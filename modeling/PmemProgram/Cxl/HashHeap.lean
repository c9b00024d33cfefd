import PmemProgram.Lib.Chains
import PmemProgram.Lib.Cmd
import PmemProgram.Cxl.Allocation

/-!
# The hash table in memory (`hash_kv.c`, `lock_service.c`)

Tables and nodes are objects from `malloc`, `0` is `NULL`. Every access is checked: the object must be live, and an index
inside the array. A loop over a chain is run for so many rounds; `none` is a loop that has not ended.

* `createHashTable`, `setKeyValue`, `getKeyValue`, `freeHashTable`, `handleLock` : the functions on the memory;
* `Holds table T s` : the chains of the table at `table` are those of `T`, and there are no other objects;
* `wp_setKeyValue`, `wp_getKeyValue`, `wp_freeHashTable`, `wp_handleLock` : the functions do to the memory what the functions
  on chains do to `T`, and free every node once;
* `memory_safe` : so in every run of the server, where `malloc` is called for the first locks of the blocks (`answersOf`);
  nothing is left when the table is freed after it.
-/

namespace PmemProgram.Cxl.Heap
open PmemProgram.Lib PmemProgram.Lib.Objects

/-- The objects that `malloc` has handed out, with the words of a table and those of a node. -/
structure Mem where
  live : List Nat
  /-- Whether `malloc` has found memory, each time it was called. -/
  answers : List Bool
  list : Nat → Nat → Nat
  key : Nat → Int
  value : Nat → Int
  next : Nat → Nat

abbrev Code (α : Type) : Type := Cmd Ask Mem α

/-- `malloc`. -/
def malloc : Code Nat := do
  let ok ← Cmd.succeeds .alloc
  Cmd.modify fun s => { s with answers := s.answers ++ [ok] }
  if ok then .ask .object fun n => do
    let live ← Cmd.get Mem.live
    Cmd.modify fun s => { s with live := pick live n :: s.live }
    return pick live n
  else return 0

/-- `free`. -/
def free (o : Nat) : Code Unit := do
  let live ← Cmd.get Mem.live
  Cmd.check (o ∈ live)
  Cmd.modify fun s => { s with live := s.live.erase o }

/-- A word of the object `o` is read or written. -/
def access (o : Nat) : Code Unit := do
  let live ← Cmd.get Mem.live
  Cmd.check (o ∈ live)

/-- `createHashTable`. -/
def createHashTable : Code Nat := do
  let table ← malloc
  if table = 0 then return 0
  else
    access table
    Cmd.modify fun s => { s with
      list := Function.update s.list table fun i => if i < tableSize then 0 else s.list table i }
    return table

/-- The update loop of `setKeyValue`: whether there is a node of the key. -/
def updateLoop (key value : Int) : Nat → Nat → Code (Option Bool)
  | 0, _ => return none
  | rounds + 1, node => do
    if node = 0 then return some false
    else
      access node
      let k ← Cmd.get fun s => s.key node
      if k = key then
        Cmd.modify fun s => { s with value := Function.update s.value node value }
        return some true
      else
        let next ← Cmd.get fun s => s.next node
        updateLoop key value rounds next

/-- A new node at the head of the chain, if there is memory for it. -/
def insertNode (table index : Nat) (key value : Int) : Code Unit := do
  let node ← malloc
  if node = 0 then return ()
  else
    access node
    Cmd.modify fun s => { s with
      key := Function.update s.key node key
      value := Function.update s.value node value }
    let first ← Cmd.get fun s => s.list table index
    Cmd.modify fun s => { s with next := Function.update s.next node first }
    access table
    Cmd.modify fun s => { s with list := Function.update s.list table (Function.update (s.list table) index node) }

/-- `setKeyValue`. -/
def setKeyValue (rounds table : Nat) (key value : Int) : Code (Option Unit) := do
  if table = 0 then return some ()
  else
    let index := hashFunction key
    access table
    Cmd.check (index < tableSize)
    let node ← Cmd.get fun s => s.list table index
    let found ← updateLoop key value rounds node
    match found with
    | none => return none
    | some true => return some ()
    | some false => do
      insertNode table index key value
      return some ()

/-- The loop of `getKeyValue`. -/
def findLoop (key : Int) : Nat → Nat → Code (Option Int)
  | 0, _ => return none
  | rounds + 1, node => do
    if node = 0 then return some (-1)
    else
      access node
      let k ← Cmd.get fun s => s.key node
      if k = key then
        let value ← Cmd.get fun s => s.value node
        return some value
      else
        let next ← Cmd.get fun s => s.next node
        findLoop key rounds next

/-- `getKeyValue`. -/
def getKeyValue (rounds table : Nat) (key : Int) : Code (Option Int) := do
  if table = 0 then return some (-1)
  else
    let index := hashFunction key
    access table
    Cmd.check (index < tableSize)
    let node ← Cmd.get fun s => s.list table index
    findLoop key rounds node

/-- The inner loop of `freeHashTable`. -/
def freeLoop : Nat → Nat → Code (Option Unit)
  | 0, _ => return none
  | rounds + 1, node => do
    if node = 0 then return some ()
    else
      let temp := node
      access node
      let node ← Cmd.get fun s => s.next node
      free temp
      freeLoop rounds node

/-- Its outer loop, over these indices. -/
def freeChains (rounds table : Nat) : List Nat → Code (Option Unit)
  | [] => return some ()
  | i :: is => do
    access table
    let node ← Cmd.get fun s => s.list table i
    let freed ← freeLoop rounds node
    match freed with
    | none => return none
    | some () => freeChains rounds table is

/-- `freeHashTable`. -/
def freeHashTable (rounds table : Nat) : Code (Option Unit) := do
  if table = 0 then return some ()
  else
    let freed ← freeChains rounds table (List.range tableSize)
    match freed with
    | none => return none
    | some () => do
      free table
      return some ()

/-- `setKeyValue` in `handle_lock`, and the reply. -/
def setAndReply (rounds table : Nat) (key value : Int) (reply : Option Int) : Code (Option (Option Int)) := do
  let stored ← setKeyValue rounds table key value
  return stored.map fun _ => reply

/-- `handle_lock`: the reply, if one is written to the socket. -/
def handleLock (rounds table : Nat) (x : Word) : Code (Option (Option Int)) := do
  let value ← getKeyValue rounds table (blockid x)
  match value with
  | none => return none
  | some value =>
    if indicator x = 2 then
      if value = -1 ∨ value = 0 then setAndReply rounds table (blockid x) 1 (some 1)
      else return some (some 0)
    else if indicator x = 1 then
      if value = 1 ∨ value = -1 then return some (some 0)
      else setAndReply rounds table (blockid x) ((value >>> (1 : Nat) + 1) <<< (1 : Nat)) (some 1)
    else if indicator x = 0 then
      if value = 1 then setAndReply rounds table (blockid x) 0 none
      else if value ≠ 0 ∧ value ≠ -1 then
        setAndReply rounds table (blockid x) ((value >>> (1 : Nat) - 1) <<< (1 : Nat)) none
      else return some none
    else do
      Cmd.check False
      return some none

/-- The requests one after the other, with the replies. -/
def serveWords (rounds table : Nat) : List Word → Code (Option (List (Option Int)))
  | [] => return some []
  | x :: xs => do
    let reply ← handleLock rounds table x
    match reply with
    | none => return none
    | some reply => do
      let replies ← serveWords rounds table xs
      return replies.map (reply :: ·)

/-- A table from its creation to `freeHashTable`, which the server itself never comes to, with the requests served between
them; without memory for the table the server ends. -/
def lifetime (rounds : Nat) (xs : List Word) : Code (Option (List (Option Int))) := do
  let table ← createHashTable
  if table = 0 then return some []
  else
    let replies ← serveWords rounds table xs
    let freed ← freeHashTable rounds table
    return freed.bind fun _ => replies

/-! ## Objects -/

/-- What a node holds. -/
def Mem.node (s : Mem) (o : Nat) : Node := ⟨s.key o, s.value o⟩

section
variable {G : Ask → Nat → Prop} {α : Type} {s t : Mem} {o table rounds i : Nat} {key value : Int} {T : HashTable}
  {nodes : Nat → List Nat}

/-- Weakest precondition without interference. -/
abbrev hwp (G : Ask → Nat → Prop) (c : Code α) (Q : α → Mem → Prop) (s : Mem) : Prop :=
  Cmd.wp (fun s t => s = t) G (fun _ => True) c Q s

/-- Some allocation may fail. -/
def Scarce (G : Ask → Nat → Prop) : Prop := ∃ n, G .alloc n ∧ n ≠ 0

theorem wp_malloc {Q : Nat → Mem → Prop} (hnull : Scarce G → Q 0 { s with answers := s.answers ++ [false] })
    (hnew : ∀ o, o ∉ s.live → o ≠ 0 → Q o { s with live := o :: s.live, answers := s.answers ++ [true] }) :
    hwp G malloc Q s := by
  simp only [malloc, hwp, Cmd.wp_bind, Cmd.wp_succeeds, Cmd.wp_modify, Cmd.wp_ite, Cmd.wp_pure]
  refine fun n hn => ⟨fun hok m _ => ?_, fun hno => ?_⟩
  · rw [hok]
    exact hnew _ (pick_notMem _ _) (pick_ne_zero _ _)
  · rw [Bool.eq_false_of_not_eq_true hno]
    exact hnull ⟨n, hn, by simpa using hno⟩

theorem wp_access {Q : Unit → Mem → Prop} (ho : o ∈ s.live) : hwp G (access o) Q s ↔ Q () s := by
  simp [access, hwp, ho]

theorem wp_free {Q : Unit → Mem → Prop} (ho : o ∈ s.live) :
    hwp G (free o) Q s ↔ Q () { s with live := s.live.erase o } := by
  simp [free, hwp, ho]

/-! ## Chains -/

/-- The chains of the table at `table` are those of `T`, and there are no other objects. -/
structure Holds (table : Nat) (T : HashTable) (nodes : Nat → List Nat) (s : Mem) : Prop where
  chains : Chains s.next (s.list table) nodes (List.range tableSize) [table] s.live
  content : ∀ i < tableSize, (nodes i).map s.node = T.list i
  ne : table ≠ 0

theorem Holds.live (h : Holds table T nodes s) : table ∈ s.live := h.chains.mem_others (List.mem_singleton_self table)

/-- A chain is shorter than the list of all objects. -/
theorem Holds.length_lt (h : Holds table T nodes s) (hi : i < tableSize) : (nodes i).length < s.live.length := by
  have hmem := List.mem_range.mpr hi
  have hnodup : (table :: nodes i).Nodup :=
    List.nodup_cons.mpr ⟨h.chains.notMem_nodes hmem (List.mem_singleton_self table), h.chains.nodup_nodes hmem⟩
  have hsub : table :: nodes i ⊆ s.live := by
    intro o ho
    rcases List.mem_cons.mp ho with rfl | ho
    · exact h.live
    · exact h.chains.mem hmem ho
  have hle := (hnodup.subperm hsub).length_le
  rw [List.length_cons] at hle
  omega

theorem hashFunction_lt (hkey : 0 ≤ key) : hashFunction key < tableSize := by
  unfold hashFunction
  rw [Int.tmod_eq_emod_of_nonneg hkey]
  have htable : (tableSize : Int) = 256 := rfl
  rw [htable]
  unfold tableSize
  omega

/-- The update loop does to the nodes of a chain what `updateNode` does to their content. -/
theorem wp_updateLoop {xs : List Nat} (hc : Chain s.next o xs) (hnodup : xs.Nodup) (hlive : ∀ x ∈ xs, x ∈ s.live)
    (hr : xs.length < rounds) :
    hwp G (updateLoop key value rounds o) (fun r t => r = some (updateNode key value (xs.map s.node)).isSome ∧
      (updateNode key value (xs.map s.node) = none → t = s) ∧
      ∀ chain, updateNode key value (xs.map s.node) = some chain →
        ∃ x ∈ xs, t = { s with value := Function.update s.value x value } ∧ xs.map t.node = chain) s := by
  induction rounds generalizing o xs with
  | zero => omega
  | succ rounds ih =>
    cases xs with
    | nil =>
      obtain rfl : o = 0 := hc
      simp only [updateLoop, hwp, if_true, Cmd.wp_pure]
      exact ⟨rfl, fun _ => trivial, fun _ hchain => absurd hchain.symm (Option.some_ne_none _)⟩
    | cons x xs =>
      obtain ⟨rfl, hne, hc⟩ := hc
      obtain ⟨hout, hnodup⟩ := List.nodup_cons.mp hnodup
      rw [List.length_cons] at hr
      simp only [updateLoop, hwp, if_neg hne, Cmd.wp_bind]
      refine (wp_access (hlive o List.mem_cons_self)).mpr ?_
      simp only [Cmd.wp_get, Cmd.wp_ite, Cmd.wp_bind, Cmd.wp_modify, Cmd.wp_pure, List.map_cons, updateNode]
      constructor
      · intro hk
        have hnode : (s.node o).key = key := hk
        rw [if_pos hnode]
        refine ⟨rfl, fun hnone => absurd hnone (Option.some_ne_none _), fun chain hchain => ⟨o, List.mem_cons_self, rfl, ?_⟩⟩
        cases hchain
        -- the other nodes are not this one
        have hrest : ∀ y ∈ xs, Function.update s.value o value y = s.value y := fun y hy =>
          Function.update_of_ne (ne_of_mem_of_not_mem hy hout) _ _
        refine List.cons_eq_cons.mpr ⟨by simp [Mem.node], List.map_congr_left fun y hy => ?_⟩
        simp only [Mem.node, hrest y hy]
      · intro hk
        have hnode : ¬ (s.node o).key = key := hk
        simp only [if_neg hnode, Option.isSome_map, Option.map_eq_none_iff]
        refine Cmd.wp_conseq (ih hc hnodup (fun y hy => hlive y (List.mem_cons_of_mem _ hy)) (by omega)) ?_
        rintro r t ⟨hfound, hsame, hset⟩
        refine ⟨hfound, hsame, fun chain hchain => ?_⟩
        obtain ⟨rest, hrest, rfl⟩ := Option.map_eq_some_iff.mp hchain
        obtain ⟨x, hx, rfl, hmap⟩ := hset rest hrest
        refine ⟨x, List.mem_cons_of_mem _ hx, rfl, List.cons_eq_cons.mpr ⟨?_, hmap⟩⟩
        simp [Mem.node, Function.update_of_ne (show o ≠ x from fun heq => hout (by rwa [heq]))]

theorem wp_findLoop {xs : List Nat} (hc : Chain s.next o xs) (hlive : ∀ x ∈ xs, x ∈ s.live) (hr : xs.length < rounds) :
    hwp G (findLoop key rounds o) (fun r t => r = some (findNode key (xs.map s.node)) ∧ t = s) s := by
  induction rounds generalizing o xs with
  | zero => omega
  | succ rounds ih =>
    cases xs with
    | nil =>
      obtain rfl : o = 0 := hc
      simp only [findLoop, hwp, if_true, Cmd.wp_pure]
      exact ⟨rfl, trivial⟩
    | cons x xs =>
      obtain ⟨rfl, hne, hc⟩ := hc
      rw [List.length_cons] at hr
      simp only [findLoop, hwp, if_neg hne, Cmd.wp_bind]
      refine (wp_access (hlive o List.mem_cons_self)).mpr ?_
      simp only [Cmd.wp_get, Cmd.wp_ite, Cmd.wp_bind, Cmd.wp_pure, List.map_cons, findNode]
      constructor
      · intro hk
        have hnode : (s.node o).key = key := hk
        rw [if_pos hnode]
        exact ⟨rfl, trivial⟩
      · intro hk
        have hnode : ¬ (s.node o).key = key := hk
        rw [if_neg hnode]
        exact ih hc (fun y hy => hlive y (List.mem_cons_of_mem _ hy)) (by omega)

/-- The loop frees the nodes of a chain, and nothing else. -/
theorem wp_freeLoop {xs ys : List Nat} (hc : Chain s.next o xs) (hperm : s.live.Perm (xs ++ ys)) (hr : xs.length < rounds) :
    hwp G (freeLoop rounds o) (fun r t => r = some () ∧ ∃ live, t = { s with live } ∧ live.Perm ys) s := by
  induction rounds generalizing o xs s with
  | zero => omega
  | succ rounds ih =>
    cases xs with
    | nil =>
      obtain rfl : o = 0 := hc
      simp only [freeLoop, hwp, if_true, Cmd.wp_pure]
      exact ⟨trivial, s.live, rfl, hperm⟩
    | cons x xs =>
      obtain ⟨rfl, hne, hc⟩ := hc
      rw [List.length_cons] at hr
      have hmem : o ∈ s.live := hperm.mem_iff.mpr List.mem_cons_self
      simp only [freeLoop, hwp, if_neg hne, Cmd.wp_bind]
      refine (wp_access hmem).mpr ?_
      simp only [Cmd.wp_get]
      refine (wp_free hmem).mpr ?_
      have hrest : (s.live.erase o).Perm (xs ++ ys) := by
        have herase := hperm.erase o
        rwa [List.cons_append, List.erase_cons_head] at herase
      refine Cmd.wp_conseq (ih (s := { s with live := s.live.erase o }) hc hrest (by omega)) ?_
      rintro r t ⟨hfreed, live, rfl, hlive⟩
      exact ⟨hfreed, live, rfl, hlive⟩

/-! ## The functions -/

/-- Words of objects that are not there do not matter. -/
theorem Holds.write (h : Holds table T nodes s) (ho : o ∈ nodes i) (hi : i < tableSize) {chain : List Node}
    (hchain : (nodes i).map ({ s with value := Function.update s.value o value } : Mem).node = chain) :
    Holds table ⟨Function.update T.list i chain⟩ nodes { s with value := Function.update s.value o value } := by
  refine ⟨h.chains, fun j hj => ?_, h.ne⟩
  by_cases hji : j = i
  · subst hji
    simpa using hchain
  · change _ = Function.update T.list i chain j
    rw [Function.update_of_ne hji, ← h.content j hj]
    refine List.map_congr_left fun y hy => ?_
    have hne : y ≠ o := fun heq =>
      h.chains.apart (List.mem_range.mpr hi) (List.mem_range.mpr hj) (Ne.symm hji) ho (heq ▸ hy)
    simp only [Mem.node, Function.update_of_ne hne]

/-- The new node `n` is the first of the chain. -/
def Mem.insert (s : Mem) (table i n : Nat) (key value : Int) : Mem where
  live := n :: s.live
  answers := s.answers ++ [true]
  list := Function.update s.list table (Function.update (s.list table) i n)
  key := Function.update s.key n key
  value := Function.update s.value n value
  next := Function.update s.next n (s.list table i)

theorem Holds.insert {n : Nat} (h : Holds table T nodes s) (hi : i < tableSize) (hne : n ≠ 0) (hnew : n ∉ s.live) :
    Holds table ⟨Function.update T.list i (⟨key, value⟩ :: T.list i)⟩ (Function.update nodes i (n :: nodes i))
      (s.insert table i n key value) := by
  have hold : ∀ j < tableSize, (nodes j).map (s.insert table i n key value).node = T.list j := by
    intro j hj
    rw [← h.content j hj]
    refine List.map_congr_left fun x hx => ?_
    have hxn : x ≠ n := fun heq => hnew (heq ▸ h.chains.mem (List.mem_range.mpr hj) hx)
    simp only [Mem.node, Mem.insert, Function.update_of_ne hxn]
  refine ⟨?_, fun j hj => ?_, h.ne⟩
  · have hnext : ∀ x ∈ s.live, Function.update s.next n (s.list table i) x = s.next x := fun x hx =>
      Function.update_of_ne (ne_of_mem_of_not_mem hx hnew) _ _
    have hcons := h.chains.cons List.nodup_range (List.mem_range.mpr hi) hne hnew (Function.update_self ..) hnext
    simpa [Mem.insert] using hcons
  · change _ = Function.update T.list i (⟨key, value⟩ :: T.list i) j
    by_cases hji : j = i
    · subst hji
      rw [Function.update_self, Function.update_self, List.map_cons, hold j hj]
      simp [Mem.node, Mem.insert]
    · rw [Function.update_of_ne hji, Function.update_of_ne hji, hold j hj]

/-- A new node at the head of a chain, if there is memory for it. -/
theorem wp_insertNode (h : Holds table T nodes s) (hi : i < tableSize) :
    hwp G (insertNode table i key value) (fun _ t => t.live.length ≤ s.live.length + 1 ∧
      ∃ alloc nodes', (alloc = false → Scarce G) ∧ t.answers = s.answers ++ [alloc] ∧
        Holds table (if alloc then ⟨Function.update T.list i (⟨key, value⟩ :: T.list i)⟩ else T) nodes' t) s := by
  unfold insertNode
  simp only [hwp, Cmd.wp_bind]
  refine wp_malloc (fun hscarce => ?_) fun n hnew hne => ?_
  · simp only [if_true, Cmd.wp_pure]
    exact ⟨Nat.le_succ _, false, nodes, fun _ => hscarce, rfl, h.chains, h.content, h.ne⟩
  · rw [if_neg hne, Cmd.wp_bind]
    refine (wp_access List.mem_cons_self).mpr ?_
    simp only [Cmd.wp_bind, Cmd.wp_modify, Cmd.wp_get]
    refine (wp_access (List.mem_cons_of_mem _ h.live)).mpr ?_
    exact ⟨le_rfl, true, _, fun hf => absurd hf (by decide), rfl, h.insert hi hne hnew⟩

/-- `setKeyValue` in memory is `setKeyValue` on chains, and asks for memory if there is no node of the key. -/
theorem wp_setKeyValue (h : Holds table T nodes s) (hkey : 0 ≤ key) (hr : s.live.length ≤ rounds) :
    hwp G (setKeyValue rounds table key value) (fun r t => r = some () ∧ t.live.length ≤ s.live.length + 1 ∧
      ∃ alloc nodes', (alloc = false → Scarce G) ∧
        t.answers = s.answers ++ (if updateNode key value (T.list (hashFunction key)) = none then [alloc] else []) ∧
          Holds table (Cxl.setKeyValue alloc T key value) nodes' t) s := by
  have hi := hashFunction_lt hkey
  have hmem := List.mem_range.mpr hi
  unfold setKeyValue
  simp only [hwp, if_neg h.ne, Cmd.wp_bind]
  refine (wp_access h.live).mpr ?_
  simp only [Cmd.wp_check, Cmd.wp_get]
  refine ⟨hi, ?_⟩
  refine Cmd.wp_conseq (wp_updateLoop (h.chains.chain _ hmem) (h.chains.nodup_nodes hmem)
    (fun x hx => h.chains.mem hmem hx) (lt_of_lt_of_le (h.length_lt hi) hr)) ?_
  rintro r t ⟨rfl, hsame, hset⟩
  rw [h.content _ hi] at hsame hset ⊢
  cases hupdate : updateNode key value (T.list (hashFunction key)) with
  | none =>
    rw [hsame hupdate]
    change hwp G (insertNode table (hashFunction key) key value >>= fun _ => pure (some ())) _ s
    rw [hwp, Cmd.wp_bind]
    refine Cmd.wp_conseq (wp_insertNode h hi) ?_
    rintro - u ⟨hlen, alloc, nodes', hscarce, hanswers, hu⟩
    refine ⟨rfl, hlen, alloc, nodes', hscarce, ?_, ?_⟩
    · rwa [if_pos rfl]
    · rwa [setKeyValue_none hupdate]
  | some chain =>
    obtain ⟨x, hx, rfl, hmap⟩ := hset chain hupdate
    refine ⟨rfl, Nat.le_succ _, true, nodes, fun hf => absurd hf (by decide), ?_, ?_⟩
    · rw [if_neg (Option.some_ne_none _), List.append_nil]
    · rw [setKeyValue_some hupdate]
      exact h.write hx hi hmap

theorem wp_getKeyValue (h : Holds table T nodes s) (hkey : 0 ≤ key) (hr : s.live.length ≤ rounds) :
    hwp G (getKeyValue rounds table key) (fun r t => r = some (Cxl.getKeyValue T key) ∧ t = s) s := by
  have hi := hashFunction_lt hkey
  have hmem := List.mem_range.mpr hi
  unfold getKeyValue
  simp only [hwp, if_neg h.ne, Cmd.wp_bind]
  refine (wp_access h.live).mpr ?_
  simp only [Cmd.wp_check, Cmd.wp_get]
  refine ⟨hi, ?_⟩
  rw [Cxl.getKeyValue, ← h.content _ hi]
  exact wp_findLoop (h.chains.chain _ hmem) (fun x hx => h.chains.mem hmem hx) (lt_of_lt_of_le (h.length_lt hi) hr)

theorem wp_freeChains {is : List Nat} (h : Chains s.next (s.list table) nodes is [table] s.live)
    (hr : s.live.length ≤ rounds) :
    hwp G (freeChains rounds table is) (fun r t => r = some () ∧ t.live = [table] ∧ t.answers = s.answers) s := by
  induction is generalizing s with
  | nil =>
    have hperm := h.perm
    rw [List.flatMap_nil, List.append_nil] at hperm
    exact ⟨rfl, List.perm_singleton.mp hperm, rfl⟩
  | cons i is ih =>
    have hlive : table ∈ s.live := h.mem_others (List.mem_singleton_self table)
    have hsplit := h.split
    have hlen : (nodes i).length < rounds := by
      have hle := hsplit.length_eq
      rw [List.length_append, List.singleton_append, List.length_cons] at hle
      omega
    simp only [freeChains, hwp, Cmd.wp_bind]
    refine (wp_access hlive).mpr ?_
    simp only [Cmd.wp_get]
    refine Cmd.wp_conseq (wp_freeLoop (h.chain i List.mem_cons_self) hsplit hlen) ?_
    rintro r t ⟨rfl, live, rfl, hperm⟩
    refine ih (s := { s with live }) (h.tail hperm) (le_trans ?_ hr)
    have hle := hsplit.length_eq
    have hle' := hperm.length_eq
    rw [List.length_append] at hle
    change live.length ≤ s.live.length
    omega

/-- Every node is freed once, and the table at last. -/
theorem wp_freeHashTable (h : Holds table T nodes s) (hr : s.live.length ≤ rounds) :
    hwp G (freeHashTable rounds table) (fun r t => r = some () ∧ t.live = [] ∧ t.answers = s.answers) s := by
  unfold freeHashTable
  simp only [hwp, if_neg h.ne, Cmd.wp_bind]
  refine Cmd.wp_conseq (wp_freeChains h.chains hr) ?_
  rintro r t ⟨rfl, hlive, hanswers⟩
  rw [Cmd.wp_bind]
  refine (wp_free (by rw [hlive]; exact List.mem_singleton_self table)).mpr ⟨rfl, ?_, hanswers⟩
  change t.live.erase table = []
  rw [hlive]
  exact List.erase_cons_head ..

/-- The empty table. -/
theorem wp_createHashTable (hlive : s.live = []) :
    hwp G createHashTable (fun table t =>
      (table = 0 → Scarce G ∧ t.live = [] ∧ t.answers = s.answers ++ [false]) ∧
      (table ≠ 0 → t.live.length = 1 ∧ t.answers = s.answers ++ [true] ∧
        Holds table Cxl.createHashTable (fun _ => []) t)) s := by
  unfold createHashTable
  simp only [hwp, Cmd.wp_bind]
  refine wp_malloc (fun hscarce => ?_) fun table _ hne => ?_
  · simp only [if_true, Cmd.wp_pure]
    exact ⟨fun _ => ⟨hscarce, hlive, trivial⟩, fun hne => absurd rfl hne⟩
  · rw [if_neg hne, Cmd.wp_bind]
    refine (wp_access List.mem_cons_self).mpr ?_
    simp only [Cmd.wp_bind, Cmd.wp_modify, Cmd.wp_pure]
    refine ⟨fun hz => absurd hz hne, fun _ => ⟨by rw [hlive]; rfl, trivial, ⟨fun i hi => ?_, ?_, ?_⟩, fun _ _ => rfl, hne⟩⟩
    · change Function.update s.list table _ table i = 0
      rw [Function.update_self, if_pos (List.mem_range.mp hi)]
    · rw [hlive]
      simp
    · rw [hlive]
      exact List.nodup_singleton table

/-! ## The server -/

/-- The call is the first lock of its block, which needs a node. -/
def FirstLock (e : Call) : Prop := indicator e.word = 2 ∧ Cxl.getKeyValue e.before (blockid e.word) = -1

instance : DecidablePred FirstLock := fun _ => inferInstanceAs (Decidable (_ ∧ _))

theorem updateNode_eq_none (hs : StoredAll T) :
    updateNode key value (T.list (hashFunction key)) = none ↔ Cxl.getKeyValue T key = -1 := by
  constructor
  · intro hnone
    by_contra hv
    have hsome := updateNode_isSome value hv
    rw [hnone] at hsome
    cases hsome
  · exact updateNode_none (hs _)

/-- `handle_lock` in memory is `handle_lock` on chains; it asks for memory for the first lock of a block. -/
theorem wp_handleLock {x : Word} (h : Holds table T nodes s) (hs : StoredAll T) (hx : indicator x ≠ 3)
    (hr : s.live.length ≤ rounds) :
    hwp G (handleLock rounds table x) (fun r t => t.live.length ≤ s.live.length + 1 ∧ ∃ alloc T' reply nodes',
      (alloc = false → Scarce G) ∧ Cxl.handleLock alloc T x = some (T', reply) ∧ r = some reply ∧
        t.answers = s.answers ++ (if FirstLock ⟨alloc, x, T, T', reply⟩ then [alloc] else []) ∧
          Holds table T' nodes' t) s := by
  have hkey : 0 ≤ blockid x := Int.natCast_nonneg _
  have hset : ∀ value reply, (Cxl.getKeyValue T (blockid x) = -1 → indicator x = 2) →
      (∀ alloc, Cxl.handleLock alloc T x = some (Cxl.setKeyValue alloc T (blockid x) value, reply)) →
      hwp G (setAndReply rounds table (blockid x) value reply) (fun r t => t.live.length ≤ s.live.length + 1 ∧
        ∃ alloc T' reply nodes', (alloc = false → Scarce G) ∧ Cxl.handleLock alloc T x = some (T', reply) ∧
          r = some reply ∧ t.answers = s.answers ++ (if FirstLock ⟨alloc, x, T, T', reply⟩ then [alloc] else []) ∧
            Holds table T' nodes' t) s := by
    intro value reply hfirst hreply
    unfold setAndReply
    rw [hwp, Cmd.wp_bind]
    refine Cmd.wp_conseq (wp_setKeyValue h hkey hr) ?_
    rintro r t ⟨rfl, hlen, alloc, nodes', hscarce, hanswers, ht⟩
    refine ⟨hlen, alloc, _, reply, nodes', hscarce, hreply alloc, rfl, ?_, ht⟩
    rw [hanswers]
    simp only [FirstLock, updateNode_eq_none hs, and_iff_right_of_imp hfirst]
  have hsame : ∀ reply, ¬ (indicator x = 2 ∧ Cxl.getKeyValue T (blockid x) = -1) →
      Cxl.handleLock true T x = some (T, reply) → ∃ alloc T' reply' nodes',
      (alloc = false → Scarce G) ∧ Cxl.handleLock alloc T x = some (T', reply') ∧ some reply = some reply' ∧
        s.answers = s.answers ++ (if FirstLock ⟨alloc, x, T, T', reply'⟩ then [alloc] else []) ∧
          Holds table T' nodes' s := by
    intro reply hfirst hreply
    refine ⟨true, T, reply, nodes, fun hf => absurd hf (by decide), hreply, rfl, ?_, h⟩
    rw [if_neg (show ¬ FirstLock ⟨true, x, T, T, reply⟩ from hfirst), List.append_nil]
  unfold handleLock
  rw [hwp, Cmd.wp_bind]
  refine Cmd.wp_conseq (wp_getKeyValue h hkey hr) ?_
  rintro r t ⟨rfl, rfl⟩
  dsimp only
  by_cases hwrite : indicator x = 2
  · by_cases hfree : Cxl.getKeyValue T (blockid x) = -1 ∨ Cxl.getKeyValue T (blockid x) = 0
    · rw [if_pos hwrite, if_pos hfree]
      exact hset _ _ (fun _ => hwrite) fun alloc => by simp only [Cxl.handleLock, if_pos hwrite, if_pos hfree]
    · rw [if_pos hwrite, if_neg hfree]
      refine ⟨Nat.le_succ _, hsame _ (fun hfirst => hfree (Or.inl hfirst.2)) ?_⟩
      simp only [Cxl.handleLock, if_pos hwrite, if_neg hfree]
  · have hnot : ¬ (indicator x = 2 ∧ Cxl.getKeyValue T (blockid x) = -1) := fun hfirst => hwrite hfirst.1
    by_cases hread : indicator x = 1
    · by_cases hbusy : Cxl.getKeyValue T (blockid x) = 1 ∨ Cxl.getKeyValue T (blockid x) = -1
      · rw [if_neg hwrite, if_pos hread, if_pos hbusy]
        exact ⟨Nat.le_succ _, hsame _ hnot (by simp only [Cxl.handleLock, if_neg hwrite, if_pos hread, if_pos hbusy])⟩
      · rw [if_neg hwrite, if_pos hread, if_neg hbusy]
        exact hset _ _ (fun hv => absurd (Or.inr hv) hbusy) fun alloc => by
          simp only [Cxl.handleLock, if_neg hwrite, if_pos hread, if_neg hbusy]
    · have hrelease : indicator x = 0 := ((indicator_cases hx).resolve_right (not_or.mpr ⟨hread, hwrite⟩))
      by_cases hwriter : Cxl.getKeyValue T (blockid x) = 1
      · rw [if_neg hwrite, if_neg hread, if_pos hrelease, if_pos hwriter]
        exact hset _ _ (fun hv => absurd (hwriter.symm.trans hv) (by decide)) fun alloc => by
          simp only [Cxl.handleLock, if_neg hwrite, if_neg hread, if_pos hrelease, if_pos hwriter]
      · by_cases hreaders : Cxl.getKeyValue T (blockid x) ≠ 0 ∧ Cxl.getKeyValue T (blockid x) ≠ -1
        · rw [if_neg hwrite, if_neg hread, if_pos hrelease, if_neg hwriter, if_pos hreaders]
          exact hset _ _ (fun hv => absurd hv hreaders.2) fun alloc => by
            simp only [Cxl.handleLock, if_neg hwrite, if_neg hread, if_pos hrelease, if_neg hwriter, if_pos hreaders]
        · rw [if_neg hwrite, if_neg hread, if_pos hrelease, if_neg hwriter, if_neg hreaders]
          refine ⟨Nat.le_succ _, hsame _ hnot ?_⟩
          simp only [Cxl.handleLock, if_neg hwrite, if_neg hread, if_pos hrelease, if_neg hwriter, if_neg hreaders]

/-- What `malloc` has answered in the calls: one answer for each first lock of a block. -/
def answersOf (calls : List Call) : List Bool := (calls.filter FirstLock).map Call.alloc

theorem answersOf_cons (e : Call) (calls : List Call) :
    answersOf (e :: calls) = (if FirstLock e then [e.alloc] else []) ++ answersOf calls := by
  by_cases h : FirstLock e
  · simp [answersOf, h]
  · simp [answersOf, h]

theorem wp_serveWords {xs : List Word} {calls : List Call} (hx : ∀ x ∈ xs, indicator x ≠ 3) (hcalls : Handled calls T)
    (h : Holds table T nodes s) (hr : s.live.length + xs.length ≤ rounds) :
    hwp G (serveWords rounds table xs) (fun r t => t.live.length ≤ s.live.length + xs.length ∧ ∃ more T' nodes',
      Handled (calls ++ more) T' ∧ more.map Call.word = xs ∧ (¬ Scarce G → ∀ e ∈ more, e.alloc = true) ∧
        r = some (more.map Call.reply) ∧ t.answers = s.answers ++ answersOf more ∧ Holds table T' nodes' t) s := by
  induction xs generalizing s T nodes calls with
  | nil =>
    refine ⟨le_rfl, [], T, nodes, ?_, rfl, fun _ e he => absurd he List.not_mem_nil, rfl, (List.append_nil _).symm, h⟩
    rwa [List.append_nil]
  | cons x xs ih =>
    rw [List.length_cons] at hr
    simp only [serveWords, hwp, Cmd.wp_bind]
    refine Cmd.wp_conseq (wp_handleLock h hcalls.stored (hx x List.mem_cons_self) (by omega)) ?_
    rintro r t ⟨hlen, alloc, T₁, reply, nodes₁, hscarce, hlock, rfl, hanswer, h₁⟩
    dsimp only
    rw [Cmd.wp_bind]
    refine Cmd.wp_conseq (ih (fun y hy => hx y (List.mem_cons_of_mem _ hy)) (hcalls.call hlock) h₁ (by omega)) ?_
    rintro r u ⟨hlen', more, T₂, nodes₂, hmore, hwords, hplenty, rfl, hanswers, h₂⟩
    refine ⟨?_, ⟨alloc, x, T, T₁, reply⟩ :: more, T₂, nodes₂, ?_, ?_, ?_, rfl, ?_, h₂⟩
    · rw [List.length_cons]
      omega
    · rwa [List.append_assoc, List.singleton_append] at hmore
    · rw [List.map_cons, hwords]
    · intro hnot e he
      rcases List.mem_cons.mp he with rfl | he
      · exact Bool.eq_true_of_not_eq_false fun hf => hnot (hscarce hf)
      · exact hplenty hnot e he
    · rw [hanswers, hanswer, List.append_assoc, answersOf_cons]

end

/-- **Memory safety of the lock table.** Whatever allocations succeed, the server's requests, and the freeing of the table
after them, touch live objects only, find their way through the chains, free each object once and leave none; and the
replies are those of the table as a map of chains, where the first locks of the blocks find memory as `malloc` has
answered. -/
theorem memory_safe {G : Ask → Nat → Prop} {s : Mem} {xs : List Word} {rounds : Nat} (hlive : s.live = [])
    (hx : ∀ x ∈ xs, indicator x ≠ 3) (hr : xs.length < rounds) :
    ¬ Cmd.Aborts (fun s t => s = t) G (lifetime rounds xs) s ∧
      ∀ r t, Cmd.Run (fun s t => s = t) G (lifetime rounds xs) s r t → t.live = [] ∧
        ∃ calls T, Handled calls T ∧ r = some (calls.map Call.reply) ∧
          (calls = [] ∧ t.answers = s.answers ++ [false] ∨
            calls.map Call.word = xs ∧ t.answers = s.answers ++ true :: answersOf calls) ∧
          (¬ Scarce G → calls.map Call.word = xs ∧ ∀ e ∈ calls, e.alloc = true) := by
  have hwp : hwp G (lifetime rounds xs) (fun r t => t.live = [] ∧
      ∃ calls T, Handled calls T ∧ r = some (calls.map Call.reply) ∧
        (calls = [] ∧ t.answers = s.answers ++ [false] ∨
          calls.map Call.word = xs ∧ t.answers = s.answers ++ true :: answersOf calls) ∧
        (¬ Scarce G → calls.map Call.word = xs ∧ ∀ e ∈ calls, e.alloc = true)) s := by
    unfold lifetime
    rw [hwp, Cmd.wp_bind]
    refine Cmd.wp_conseq (wp_createHashTable hlive) ?_
    rintro table t ⟨hnull, hnew⟩
    rw [Cmd.wp_ite]
    constructor
    · intro hz
      obtain ⟨hscarce, hempty, hanswers⟩ := hnull hz
      exact ⟨hempty, [], _, .start, rfl, Or.inl ⟨rfl, hanswers⟩, fun hnot => absurd hscarce hnot⟩
    · intro hne
      obtain ⟨hlen, hanswer, h⟩ := hnew hne
      rw [Cmd.wp_bind]
      refine Cmd.wp_conseq (wp_serveWords hx .start h (by omega)) ?_
      rintro r u ⟨hlen', calls, T, nodes, hcalls, hwords, hplenty, rfl, hanswers, hu⟩
      rw [Cmd.wp_bind]
      refine Cmd.wp_conseq (wp_freeHashTable hu (by omega)) ?_
      rintro r v ⟨rfl, hv, hfreed⟩
      have hall : v.answers = s.answers ++ true :: answersOf calls := by
        rw [hfreed, hanswers, hanswer, List.append_assoc, List.singleton_append]
      exact ⟨hv, calls, T, hcalls, rfl, Or.inr ⟨hwords, hall⟩, fun hnot => ⟨hwords, hplenty hnot⟩⟩
  exact ⟨Cmd.wp_not_aborts hwp, fun r t hrun => Cmd.wp_run hwp hrun⟩

/-! ## Runs -/

theorem total_malloc : malloc.Total :=
  Cmd.total_bind (Cmd.total_succeeds _) fun _ => Cmd.total_bind (Cmd.total_modify _) fun _ => Cmd.total_ite
    (fun _ => Cmd.total_bind (Cmd.total_get _) fun _ => Cmd.total_bind (Cmd.total_modify _) fun _ => Cmd.total_pure _)
    (Cmd.total_pure _)

theorem total_access (o : Nat) : (access o).Total := Cmd.total_bind (Cmd.total_get _) fun _ => Cmd.total_check _

theorem total_free (o : Nat) : (free o).Total :=
  Cmd.total_bind (Cmd.total_get _) fun _ => Cmd.total_bind (Cmd.total_check _) fun _ => Cmd.total_modify _

theorem total_createHashTable : createHashTable.Total :=
  Cmd.total_bind total_malloc fun _ => Cmd.total_ite (Cmd.total_pure _) (Cmd.total_bind (total_access _) fun _ =>
    Cmd.total_bind (Cmd.total_modify _) fun _ => Cmd.total_pure _)

theorem total_updateLoop (key value : Int) (rounds node : Nat) : (updateLoop key value rounds node).Total := by
  induction rounds generalizing node with
  | zero => exact Cmd.total_pure _
  | succ rounds ih =>
    exact Cmd.total_ite (Cmd.total_pure _) (Cmd.total_bind (total_access _) fun _ => Cmd.total_bind (Cmd.total_get _)
      fun _ => Cmd.total_ite (Cmd.total_bind (Cmd.total_modify _) fun _ => Cmd.total_pure _)
        (Cmd.total_bind (Cmd.total_get _) ih))

theorem total_insertNode (table index : Nat) (key value : Int) : (insertNode table index key value).Total :=
  Cmd.total_bind total_malloc fun _ => Cmd.total_ite (Cmd.total_pure _) (Cmd.total_bind (total_access _) fun _ =>
    Cmd.total_bind (Cmd.total_modify _) fun _ => Cmd.total_bind (Cmd.total_get _) fun _ =>
      Cmd.total_bind (Cmd.total_modify _) fun _ => Cmd.total_bind (total_access _) fun _ => Cmd.total_modify _)

theorem total_setKeyValue (rounds table : Nat) (key value : Int) : (setKeyValue rounds table key value).Total := by
  refine Cmd.total_ite (Cmd.total_pure _) (Cmd.total_bind (total_access _) fun _ => Cmd.total_bind (Cmd.total_check _)
    fun _ => Cmd.total_bind (Cmd.total_get _) fun _ => Cmd.total_bind (total_updateLoop ..) fun found => ?_)
  rcases found with - | - | -
  · exact Cmd.total_pure _
  · exact Cmd.total_bind (total_insertNode _ _ _ _) fun _ => Cmd.total_pure _
  · exact Cmd.total_pure _

theorem total_findLoop (key : Int) (rounds node : Nat) : (findLoop key rounds node).Total := by
  induction rounds generalizing node with
  | zero => exact Cmd.total_pure _
  | succ rounds ih =>
    exact Cmd.total_ite (Cmd.total_pure _) (Cmd.total_bind (total_access _) fun _ => Cmd.total_bind (Cmd.total_get _)
      fun _ => Cmd.total_ite (Cmd.total_bind (Cmd.total_get _) fun _ => Cmd.total_pure _)
        (Cmd.total_bind (Cmd.total_get _) ih))

theorem total_getKeyValue (rounds table : Nat) (key : Int) : (getKeyValue rounds table key).Total :=
  Cmd.total_ite (Cmd.total_pure _) (Cmd.total_bind (total_access _) fun _ => Cmd.total_bind (Cmd.total_check _)
    fun _ => Cmd.total_bind (Cmd.total_get _) fun _ => total_findLoop ..)

theorem total_freeLoop (rounds node : Nat) : (freeLoop rounds node).Total := by
  induction rounds generalizing node with
  | zero => exact Cmd.total_pure _
  | succ rounds ih =>
    exact Cmd.total_ite (Cmd.total_pure _) (Cmd.total_bind (total_access _) fun _ => Cmd.total_bind (Cmd.total_get _)
      fun _ => Cmd.total_bind (total_free _) fun _ => ih _)

theorem total_freeChains (rounds table : Nat) (is : List Nat) : (freeChains rounds table is).Total := by
  induction is with
  | nil => exact Cmd.total_pure _
  | cons i is ih =>
    refine Cmd.total_bind (total_access _) fun _ => Cmd.total_bind (Cmd.total_get _) fun _ =>
      Cmd.total_bind (total_freeLoop ..) fun freed => ?_
    cases freed
    · exact Cmd.total_pure _
    · exact ih

theorem total_freeHashTable (rounds table : Nat) : (freeHashTable rounds table).Total := by
  refine Cmd.total_ite (Cmd.total_pure _) (Cmd.total_bind (total_freeChains ..) fun freed => ?_)
  cases freed
  · exact Cmd.total_pure _
  · exact Cmd.total_bind (total_free _) fun _ => Cmd.total_pure _

theorem total_handleLock (rounds table : Nat) (x : Word) : (handleLock rounds table x).Total := by
  have hset : ∀ value reply, (setAndReply rounds table (blockid x) value reply).Total := fun _ _ =>
    Cmd.total_bind (total_setKeyValue ..) fun _ => Cmd.total_pure _
  refine Cmd.total_bind (total_getKeyValue ..) fun value => ?_
  cases value with
  | none => exact Cmd.total_pure _
  | some value =>
    refine Cmd.total_ite (Cmd.total_ite (hset ..) (Cmd.total_pure _)) (Cmd.total_ite (Cmd.total_ite (Cmd.total_pure _)
      (hset ..)) (Cmd.total_ite (Cmd.total_ite (hset ..) (Cmd.total_ite (hset ..) (Cmd.total_pure _))) ?_))
    exact Cmd.total_bind (Cmd.total_check _) fun _ => Cmd.total_pure _

theorem total_serveWords (rounds table : Nat) (xs : List Word) : (serveWords rounds table xs).Total := by
  induction xs with
  | nil => exact Cmd.total_pure _
  | cons x xs ih =>
    refine Cmd.total_bind (total_handleLock ..) fun reply => ?_
    cases reply
    · exact Cmd.total_pure _
    · exact Cmd.total_bind ih fun _ => Cmd.total_pure _

theorem total_lifetime (rounds : Nat) (xs : List Word) : (lifetime rounds xs).Total :=
  Cmd.total_bind total_createHashTable fun _ => Cmd.total_ite (Cmd.total_pure _) (Cmd.total_bind (total_serveWords ..)
    fun _ => Cmd.total_bind (total_freeHashTable ..) fun _ => Cmd.total_pure _)

/-- A memory without objects. -/
def Mem.fresh : Mem := ⟨[], [], fun _ _ => 0, fun _ => 0, fun _ => 0, fun _ => 0⟩

/-- Blocks 7 and 263 share a chain; `malloc` is called for the table and for each of them. -/
theorem memory_safe_chain : ∃ calls t, Cmd.Run (fun s t => s = t) Ask.Granted
    (lifetime 4 [lockWord .write 7, lockWord .write 263, lockWord .read 7]) .fresh (some (calls.map Call.reply)) t ∧
      t.live = [] ∧ t.answers = true :: answersOf calls ∧ ∃ T, Handled calls T ∧
        calls.map Call.word = [lockWord .write 7, lockWord .write 263, lockWord .read 7] := by
  have hwords : ∀ x ∈ [lockWord .write 7, lockWord .write 263, lockWord .read 7], indicator x ≠ 3 := by
    intro x hx
    simp only [List.mem_cons, List.not_mem_nil, or_false] at hx
    rcases hx with rfl | rfl | rfl <;> rw [indicator_lockWord _ (by omega)] <;> decide
  have hrounds : [lockWord .write 7, lockWord .write 263, lockWord .read 7].length < 4 := by decide
  have hplenty : ¬ Scarce Ask.Granted := fun ⟨n, hn, hne⟩ => hne hn
  obtain ⟨hsafe, hall⟩ := memory_safe (G := Ask.Granted) (s := .fresh) rfl hwords hrounds
  obtain ⟨r, t, hrun⟩ := Cmd.returns (fun _ => rfl) (fun q => ⟨0, granted_zero q⟩) (total_lifetime _ _) hsafe
  obtain ⟨hlive, calls, T, hcalls, rfl, hanswers, hserved⟩ := hall r t hrun
  have hword := (hserved hplenty).1
  refine ⟨calls, t, hrun, hlive, ?_, T, hcalls, hword⟩
  rcases hanswers with ⟨rfl, -⟩ | ⟨-, hanswers⟩
  · cases hword
  · exact hanswers

end PmemProgram.Cxl.Heap
