import Mathlib

/-!
# The chained hash table (`hash_kv.c`)

`HashTable` is the array of chains; `setKeyValue` updates the first node of the key or inserts a new node at
the head of the chain, `getKeyValue` returns `-1` for a key that has no node. `getKeyValue_setKeyValue` : with
memory available the table is a map from keys to values, whatever keys share a chain.
-/

namespace PmemProgram.Cxl

/-- `TABLE_SIZE`. -/
def tableSize : Nat := 256

/-- A list node: `long int key, value`. -/
structure Node where
  key : Int
  value : Int
  deriving DecidableEq, Repr

/-- The chains `list[0 .. TABLE_SIZE)`. -/
structure HashTable where
  list : Nat → List Node

/-- `key % TABLE_SIZE`, converted to `unsigned long`. -/
def hashFunction (key : Int) : Nat := (key.tmod tableSize % 2 ^ 64).toNat

/-- `createHashTable`: every chain is empty. -/
def createHashTable : HashTable := ⟨fun _ => []⟩

/-- The update loop of `setKeyValue`: the chain with the first node of the key changed, if there is one. -/
def updateNode (key value : Int) : List Node → Option (List Node)
  | [] => none
  | node :: rest =>
    if node.key = key then some ({ node with value := value } :: rest)
    else (updateNode key value rest).map (node :: ·)

/-- `setKeyValue`; `alloc` says whether `malloc` finds memory for a new node. -/
def setKeyValue (alloc : Bool) (table : HashTable) (key value : Int) : HashTable :=
  let index := hashFunction key
  match updateNode key value (table.list index) with
  | some chain => ⟨Function.update table.list index chain⟩
  | none =>
    if alloc then ⟨Function.update table.list index (⟨key, value⟩ :: table.list index)⟩
    else table

/-- The search loop of `getKeyValue`. -/
def findNode (key : Int) : List Node → Int
  | [] => -1
  | node :: rest => if node.key = key then node.value else findNode key rest

/-- `getKeyValue`. -/
def getKeyValue (table : HashTable) (key : Int) : Int := findNode key (table.list (hashFunction key))

@[simp] theorem getKeyValue_create (key : Int) : getKeyValue createHashTable key = -1 := rfl

theorem findNode_updateNode {key value : Int} {chain chain' : List Node}
    (h : updateNode key value chain = some chain') (k : Int) :
    findNode k chain' = if k = key then value else findNode k chain := by
  induction chain generalizing chain' with
  | nil => cases h
  | cons node rest ih =>
    rw [updateNode] at h
    split_ifs at h with hk
    · cases h
      simp only [findNode, hk]
      by_cases hkk : key = k
      · simp [hkk]
      · simp [hkk, Ne.symm hkk]
    · obtain ⟨rest', hrest, rfl⟩ := Option.map_eq_some_iff.mp h
      simp only [findNode, ih hrest]
      by_cases hkk : node.key = k
      · subst hkk
        simp [hk]
      · simp [hkk]

/-- With memory available only the chain of the key changes, and it holds the key's new value. -/
theorem setKeyValue_list (table : HashTable) (key value : Int) :
    ∃ chain, (setKeyValue true table key value).list = Function.update table.list (hashFunction key) chain ∧
      ∀ k, findNode k chain = if k = key then value else findNode k (table.list (hashFunction key)) := by
  unfold setKeyValue
  cases h : updateNode key value (table.list (hashFunction key)) with
  | some chain => exact ⟨chain, by simp only [h], findNode_updateNode h⟩
  | none =>
    refine ⟨⟨key, value⟩ :: table.list (hashFunction key), by simp only [h, if_true], fun k => ?_⟩
    simp only [findNode, eq_comm]

/-- **The table is a map**: setting a key changes the value of that key only, also among keys of one chain. -/
theorem getKeyValue_setKeyValue (table : HashTable) (key value k : Int) :
    getKeyValue (setKeyValue true table key value) k = if k = key then value else getKeyValue table k := by
  obtain ⟨chain, hlist, hchain⟩ := setKeyValue_list table key value
  unfold getKeyValue
  rw [hlist]
  by_cases hi : hashFunction k = hashFunction key
  · rw [hi, Function.update_self, hchain]
  · have hk : k ≠ key := fun e => hi (by rw [e])
    rw [Function.update_of_ne hi, if_neg hk]

end PmemProgram.Cxl
