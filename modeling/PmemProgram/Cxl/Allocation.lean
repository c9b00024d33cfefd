import PmemProgram.Cxl.Exclusion

/-!
# Grants without memory (`lock_service.c`, `hash_kv.c`)

`setKeyValue` does nothing when it needs a node and there is no memory for it, and `handle_lock` replies from its own
variable. Here every call of `handle_lock` may find memory or not.

* `Handled` : the calls of a run, with the table before and after each;
* `Recorded`, `Separated` : a grant is in the table, and two write grants have a release between them;
* `grants_recorded_iff` : this fails exactly in the runs that grant the first lock of a block without memory.
-/

namespace PmemProgram.Cxl

/-- A call of `handle_lock`, with the reply. -/
structure Call where
  alloc : Bool
  word : Word
  before : HashTable
  after : HashTable
  reply : Option Int

/-- The calls of a run from the empty table, and the table they leave. -/
inductive Handled : List Call → HashTable → Prop
  | start : Handled [] createHashTable
  | call {calls : List Call} {table table' : HashTable} {alloc : Bool} {x : Word} {r : Option Int} :
      Handled calls table → handleLock alloc table x = some (table', r) →
      Handled (calls ++ [⟨alloc, x, table, table', r⟩]) table'

/-- A lock that was granted is in the table: the block is write locked, or has one reader more. -/
def Recorded (e : Call) : Prop :=
  e.reply = some 1 →
    indicator e.word = 2 ∧ getKeyValue e.after (blockid e.word) = 1 ∨
      indicator e.word = 1 ∧ getKeyValue e.after (blockid e.word) = getKeyValue e.before (blockid e.word) + 2

def WriteGrant (b : Int) (e : Call) : Prop := indicator e.word = 2 ∧ blockid e.word = b ∧ e.reply = some 1

def Release (b : Int) (e : Call) : Prop := indicator e.word = 0 ∧ blockid e.word = b

/-- Between two write grants of a block it is released. -/
def Separated (calls : List Call) : Prop :=
  ∀ b pre e mid e' post, calls = pre ++ e :: mid ++ e' :: post → WriteGrant b e → WriteGrant b e' → ∃ f ∈ mid, Release b f

/-- There is memory for the node of a block whose first lock this is. -/
def HasRoom (e : Call) : Prop := indicator e.word = 2 → getKeyValue e.before (blockid e.word) = -1 → e.alloc = true

/-! ## The table without memory -/

theorem updateNode_isSome {key : Int} (value : Int) {chain : List Node} (h : findNode key chain ≠ -1) :
    (updateNode key value chain).isSome := by
  induction chain with
  | nil => exact absurd rfl h
  | cons node rest ih =>
    rw [updateNode]
    split_ifs with hk
    · rfl
    · rw [findNode, if_neg hk] at h
      rw [Option.isSome_map]
      exact ih h

theorem setKeyValue_some {alloc : Bool} {table : HashTable} {key value : Int} {chain : List Node}
    (h : updateNode key value (table.list (hashFunction key)) = some chain) :
    setKeyValue alloc table key value = ⟨Function.update table.list (hashFunction key) chain⟩ := by
  simp only [setKeyValue, h]

theorem setKeyValue_none {alloc : Bool} {table : HashTable} {key value : Int}
    (h : updateNode key value (table.list (hashFunction key)) = none) :
    setKeyValue alloc table key value =
      if alloc then ⟨Function.update table.list (hashFunction key) (⟨key, value⟩ :: table.list (hashFunction key))⟩
      else table := by
  simp only [setKeyValue, h]

/-- A block that has a node needs no memory. -/
theorem setKeyValue_of_node {alloc : Bool} {table : HashTable} {key : Int} (value : Int)
    (h : alloc = true ∨ getKeyValue table key ≠ -1) : setKeyValue alloc table key value = setKeyValue true table key value := by
  cases h with
  | inl ha => rw [ha]
  | inr hv =>
    obtain ⟨chain, hchain⟩ := Option.isSome_iff_exists.mp (updateNode_isSome value hv)
    rw [setKeyValue_some hchain, setKeyValue_some hchain]

/-- A value that `handle_lock` stores: write locked, or the number of readers. -/
def Stored (v : Int) : Prop := v = 1 ∨ ∃ n : Nat, v = 2 * (n : Int)

theorem Stored.ne {v : Int} (h : Stored v) : v ≠ -1 := by
  rcases h with rfl | ⟨n, rfl⟩
  · decide
  · omega

/-- Every node holds such a value. -/
def StoredAll (table : HashTable) : Prop := ∀ i, ∀ node ∈ table.list i, Stored node.value

theorem StoredAll.create : StoredAll createHashTable := by
  intro i node hnode
  cases hnode

theorem updateNode_stored {key value : Int} (hv : Stored value) {chain chain' : List Node}
    (h : updateNode key value chain = some chain') (hs : ∀ node ∈ chain, Stored node.value) :
    ∀ node ∈ chain', Stored node.value := by
  induction chain generalizing chain' with
  | nil => cases h
  | cons node rest ih =>
    rw [updateNode] at h
    split_ifs at h with hk
    · cases h
      intro n hn
      cases List.mem_cons.mp hn with
      | inl he => rw [he]; exact hv
      | inr hrest => exact hs n (List.mem_cons_of_mem _ hrest)
    · obtain ⟨rest', hrest, rfl⟩ := Option.map_eq_some_iff.mp h
      intro n hn
      cases List.mem_cons.mp hn with
      | inl he => rw [he]; exact hs node List.mem_cons_self
      | inr hmem => exact ih hrest (fun m hm => hs m (List.mem_cons_of_mem _ hm)) n hmem

theorem StoredAll.set {table : HashTable} (h : StoredAll table) {value : Int} (hv : Stored value) (alloc : Bool)
    (key : Int) : StoredAll (setKeyValue alloc table key value) := by
  have hupdate : ∀ chain : List Node, (∀ node ∈ chain, Stored node.value) →
      StoredAll ⟨Function.update table.list (hashFunction key) chain⟩ := by
    intro chain hchain i
    by_cases hi : i = hashFunction key
    · rw [hi]
      simp only [Function.update_self]
      exact hchain
    · simp only [Function.update_of_ne hi]
      exact h i
  cases hchain : updateNode key value (table.list (hashFunction key)) with
  | some chain =>
    rw [setKeyValue_some hchain]
    exact hupdate chain (updateNode_stored hv hchain (h _))
  | none =>
    rw [setKeyValue_none hchain]
    cases alloc with
    | true =>
      apply hupdate
      intro n hn
      cases List.mem_cons.mp hn with
      | inl he => rw [he]; exact hv
      | inr hmem => exact h _ n hmem
    | false => exact h

theorem findNode_stored {key : Int} {chain : List Node} (hs : ∀ node ∈ chain, Stored node.value)
    (h : findNode key chain ≠ -1) : Stored (findNode key chain) := by
  induction chain with
  | nil => exact absurd rfl h
  | cons node rest ih =>
    rw [findNode] at h ⊢
    split_ifs at h ⊢ with hk
    · exact hs node List.mem_cons_self
    · exact ih (fun m hm => hs m (List.mem_cons_of_mem _ hm)) h

theorem StoredAll.get {table : HashTable} (h : StoredAll table) {key : Int} (hv : getKeyValue table key ≠ -1) :
    Stored (getKeyValue table key) := findNode_stored (h _) hv

theorem updateNode_none {key value : Int} {chain : List Node} (hs : ∀ node ∈ chain, Stored node.value)
    (h : findNode key chain = -1) : updateNode key value chain = none := by
  induction chain with
  | nil => rfl
  | cons node rest ih =>
    rw [findNode] at h
    split_ifs at h with hk
    · exact absurd h (hs node List.mem_cons_self).ne
    · rw [updateNode, if_neg hk, ih (fun m hm => hs m (List.mem_cons_of_mem _ hm)) h]
      rfl

/-- Without memory the first lock of a block leaves the table as it is. -/
theorem StoredAll.no_memory {table : HashTable} (h : StoredAll table) {key : Int} (value : Int)
    (hv : getKeyValue table key = -1) : setKeyValue false table key value = table := by
  rw [setKeyValue_none (updateNode_none (h _) hv)]
  rfl

/-! ## One call -/

/-- The new values are values of the same kind. -/
theorem Stored.reader {v : Int} (h : Stored v) (h₁ : v ≠ 1) :
    (v >>> (1 : Nat) + 1) <<< (1 : Nat) = v + 2 ∧ Stored ((v >>> (1 : Nat) + 1) <<< (1 : Nat)) := by
  rcases h with h | ⟨n, rfl⟩
  · exact absurd h h₁
  · rw [readers_succ]
    exact ⟨by push_cast; ring, Or.inr ⟨n + 1, rfl⟩⟩

theorem Stored.leave {v : Int} (h : Stored v) (h₁ : v ≠ 1) (h₀ : v ≠ 0) :
    Stored ((v >>> (1 : Nat) - 1) <<< (1 : Nat)) := by
  rcases h with h | ⟨n, rfl⟩
  · exact absurd h h₁
  · cases n with
    | zero => exact absurd rfl h₀
    | succ n =>
      rw [readers_pred]
      exact Or.inr ⟨n, rfl⟩

/-- The values after a call: those of the other blocks stay, and so does this one's unless there is a node for it. -/
theorem getKeyValue_set (alloc : Bool) (table : HashTable) (key value k : Int) :
    getKeyValue (setKeyValue alloc table key value) k = getKeyValue table k ∨
      k = key ∧ getKeyValue (setKeyValue alloc table key value) k = value := by
  by_cases h : alloc = true ∨ getKeyValue table key ≠ -1
  · rw [setKeyValue_of_node value h, getKeyValue_setKeyValue]
    split_ifs with hk
    · exact Or.inr ⟨hk, rfl⟩
    · exact Or.inl rfl
  · cases hchain : updateNode key value (table.list (hashFunction key)) with
    | some chain =>
      have halloc : setKeyValue alloc table key value = setKeyValue true table key value := by
        rw [setKeyValue_some hchain, setKeyValue_some hchain]
      rw [halloc, getKeyValue_setKeyValue]
      split_ifs with hk
      · exact Or.inr ⟨hk, rfl⟩
      · exact Or.inl rfl
    | none =>
      rw [setKeyValue_none hchain, if_neg (fun ha => h (Or.inl ha))]
      exact Or.inl rfl

/-- What a call of `handle_lock` does, by its request. -/
theorem handleLock_cases {alloc : Bool} {table table' : HashTable} {x : Word} {r : Option Int}
    (h : handleLock alloc table x = some (table', r)) :
    (indicator x = 2 ∧ (getKeyValue table (blockid x) = -1 ∨ getKeyValue table (blockid x) = 0) ∧
        table' = setKeyValue alloc table (blockid x) 1 ∧ r = some 1) ∨
      (indicator x = 1 ∧ getKeyValue table (blockid x) ≠ 1 ∧ getKeyValue table (blockid x) ≠ -1 ∧
        table' = setKeyValue alloc table (blockid x) ((getKeyValue table (blockid x) >>> (1 : Nat) + 1) <<< (1 : Nat)) ∧
        r = some 1) ∨
      (indicator x = 0 ∧ r = none ∧ (table' = table ∨ table' = setKeyValue alloc table (blockid x) 0 ∨
        getKeyValue table (blockid x) ≠ 1 ∧ getKeyValue table (blockid x) ≠ 0 ∧ getKeyValue table (blockid x) ≠ -1 ∧
        table' = setKeyValue alloc table (blockid x) ((getKeyValue table (blockid x) >>> (1 : Nat) - 1) <<< (1 : Nat)))) ∨
      (table' = table ∧ r = some 0) := by
  unfold handleLock at h
  simp only at h
  split_ifs at h with h₂ hfree h₁ hread h₀ hwritten hreaders
  · cases h
    exact Or.inl ⟨h₂, hfree, rfl, rfl⟩
  · cases h
    exact Or.inr (Or.inr (Or.inr ⟨rfl, rfl⟩))
  · cases h
    exact Or.inr (Or.inr (Or.inr ⟨rfl, rfl⟩))
  · cases h
    rw [not_or] at hread
    exact Or.inr (Or.inl ⟨h₁, hread.1, hread.2, rfl, rfl⟩)
  · cases h
    exact Or.inr (Or.inr (Or.inl ⟨h₀, rfl, Or.inr (Or.inl rfl)⟩))
  · cases h
    exact Or.inr (Or.inr (Or.inl ⟨h₀, rfl, Or.inr (Or.inr ⟨hwritten, hreaders.1, hreaders.2, rfl⟩)⟩))
  · cases h
    exact Or.inr (Or.inr (Or.inl ⟨h₀, rfl, Or.inl rfl⟩))

theorem StoredAll.handleLock {alloc : Bool} {table table' : HashTable} {x : Word} {r : Option Int}
    (hs : StoredAll table) (h : handleLock alloc table x = some (table', r)) : StoredAll table' := by
  rcases handleLock_cases h with ⟨-, -, rfl, -⟩ | ⟨-, h₁, hn, rfl, -⟩ | ⟨-, -, rfl | rfl | ⟨h₁, h₀, hn, rfl⟩⟩ | ⟨rfl, -⟩
  · exact hs.set (Or.inl rfl) _ _
  · exact hs.set ((hs.get hn).reader h₁).2 _ _
  · exact hs
  · exact hs.set (Or.inr ⟨0, rfl⟩) _ _
  · exact hs.set ((hs.get hn).leave h₁ h₀) _ _
  · exact hs

/-- A call records what it grants exactly if there is room. -/
theorem recorded_iff {e : Call} (hs : StoredAll e.before)
    (h : handleLock e.alloc e.before e.word = some (e.after, e.reply)) : Recorded e ↔ HasRoom e := by
  rcases handleLock_cases h with ⟨h₂, hfree, hafter, hr⟩ | ⟨h₁, hw, hn, hafter, hr⟩ | ⟨h₀, hr, -⟩ | ⟨ht, hr⟩
  · constructor
    · intro hrec _ hv
      by_contra halloc
      rw [Bool.not_eq_true] at halloc
      rw [halloc, hs.no_memory 1 hv] at hafter
      rcases hrec hr with ⟨-, hone⟩ | ⟨h₁, -⟩
      · rw [hafter, hv] at hone
        cases hone
      · rw [h₂] at h₁
        cases h₁
    · intro hroom _
      have hnode : e.alloc = true ∨ getKeyValue e.before (blockid e.word) ≠ -1 := by
        by_cases hv : getKeyValue e.before (blockid e.word) = -1
        · exact Or.inl (hroom h₂ hv)
        · exact Or.inr hv
      refine Or.inl ⟨h₂, ?_⟩
      rw [hafter, setKeyValue_of_node 1 hnode, getKeyValue_setKeyValue, if_pos rfl]
  · have hroom : HasRoom e := by
      intro h₂
      rw [h₁] at h₂
      cases h₂
    refine iff_of_true (fun _ => Or.inr ⟨h₁, ?_⟩) hroom
    rw [hafter, setKeyValue_of_node _ (Or.inr hn), getKeyValue_setKeyValue, if_pos rfl]
    exact ((hs.get hn).reader hw).1
  · refine iff_of_true (fun hone => ?_) (fun h₂ => ?_)
    · rw [hr] at hone
      cases hone
    · rw [h₀] at h₂
      cases h₂
  · refine iff_of_true (fun hone => ?_) (fun h₂ hv => ?_)
    · rw [hr] at hone
      cases hone
    · -- a write lock of a block without a node is never refused
      have hreply : e.reply = some 1 := by
        have hcase := h
        unfold PmemProgram.Cxl.handleLock at hcase
        simp only [h₂, hv, if_true, true_or] at hcase
        exact (congrArg Prod.snd (Option.some.inj hcase)).symm
      rw [hr] at hreply
      cases hreply

/-! ## Runs -/

theorem Handled.stored {calls : List Call} {table : HashTable} (h : Handled calls table) : StoredAll table := by
  induction h with
  | start => exact StoredAll.create
  | call _ hstep ih => exact ih.handleLock hstep

/-- Every call of a run is one of `handle_lock`, on a table of stored values. -/
theorem Handled.mem {calls : List Call} {table : HashTable} (h : Handled calls table) {e : Call} (he : e ∈ calls) :
    StoredAll e.before ∧ handleLock e.alloc e.before e.word = some (e.after, e.reply) := by
  induction h with
  | start => cases he
  | call hrun hstep ih =>
    cases List.mem_append.mp he with
    | inl hmem => exact ih hmem
    | inr hlast =>
      rw [List.mem_singleton.mp hlast]
      exact ⟨hrun.stored, hstep⟩

/-- A write lock stays in the table as long as it is not released, and is not granted again. -/
theorem handleLock_writing {alloc : Bool} {table table' : HashTable} {x : Word} {r : Option Int} {b : Int}
    (h : handleLock alloc table x = some (table', r)) (hb : getKeyValue table b = 1)
    (hx : ¬ (indicator x = 0 ∧ blockid x = b)) :
    getKeyValue table' b = 1 ∧ ¬ (indicator x = 2 ∧ blockid x = b ∧ r = some 1) := by
  by_cases hbx : blockid x = b
  · rw [← hbx] at hb hx ⊢
    rcases handleLock_cases h with ⟨-, hfree, -⟩ | ⟨-, hw, -⟩ | ⟨h₀, -⟩ | ⟨rfl, rfl⟩
    · rw [hb] at hfree
      omega
    · exact absurd hb hw
    · exact absurd ⟨h₀, rfl⟩ hx
    · exact ⟨hb, fun hg => by cases hg.2.2⟩
  · have hkeep : ∀ v, getKeyValue (setKeyValue alloc table (blockid x) v) b = 1 := by
      intro v
      rcases getKeyValue_set alloc table (blockid x) v b with hsame | ⟨he, -⟩
      · rw [hsame, hb]
      · exact absurd he.symm hbx
    refine ⟨?_, fun hg => hbx hg.2.1⟩
    rcases handleLock_cases h with ⟨-, -, rfl, -⟩ | ⟨-, -, -, rfl, -⟩ | ⟨-, -, rfl | rfl | ⟨-, -, -, rfl⟩⟩ | ⟨rfl, -⟩
    · exact hkeep _
    · exact hkeep _
    · exact hb
    · exact hkeep _
    · exact hkeep _
    · exact hb

/-- Behind a recorded write grant the block stays write locked until a release. -/
theorem Handled.writing {calls : List Call} {table : HashTable} (h : Handled calls table)
    (hrec : ∀ e ∈ calls, Recorded e) {b : Int} {pre mid : List Call} {e : Call} (hcalls : calls = pre ++ e :: mid)
    (he : WriteGrant b e) (hmid : ∀ f ∈ mid, ¬ Release b f) : getKeyValue table b = 1 := by
  induction h generalizing mid with
  | start => exact absurd hcalls (by simp)
  | @call calls table table' alloc x r hrun hstep ih =>
    cases mid using List.reverseRecOn with
    | nil =>
      have hlast := List.append_inj_right' hcalls rfl
      have hmem : (⟨alloc, x, table, table', r⟩ : Call) = e := List.singleton_inj.mp hlast
      rw [← hmem] at he
      have hgrant := hrec _ (List.mem_append_right calls (List.mem_singleton.mpr rfl)) he.2.2
      rcases hgrant with ⟨-, hone⟩ | ⟨h₁, -⟩
      · rw [← he.2.1]
        exact hone
      · exact absurd (he.1.symm.trans h₁) (by decide)
    | append_singleton mid f _ =>
      rw [← List.cons_append, ← List.append_assoc] at hcalls
      have hpre := List.append_inj_left' hcalls rfl
      have hlast : (⟨alloc, x, table, table', r⟩ : Call) = f := List.singleton_inj.mp (List.append_inj_right' hcalls rfl)
      have hbefore := ih (fun e he => hrec e (List.mem_append_left _ he)) hpre
        (fun g hg => hmid g (List.mem_append_left _ hg))
      have hx := hmid f (List.mem_append_right mid (List.mem_singleton.mpr rfl))
      rw [← hlast] at hx
      exact (handleLock_writing hstep hbefore hx).1

/-- Recorded grants are separated. -/
theorem Handled.separated {calls : List Call} {table : HashTable} (h : Handled calls table)
    (hrec : ∀ e ∈ calls, Recorded e) : Separated calls := by
  induction h with
  | start =>
    intro b pre e mid e' post hcalls
    simp at hcalls
  | @call calls table table' alloc x r hrun hstep ih =>
    have hrecs : ∀ e ∈ calls, Recorded e := fun e he => hrec e (List.mem_append_left _ he)
    intro b pre e mid e' post hcalls he he'
    cases post using List.reverseRecOn with
    | nil =>
      have hpre := List.append_inj_left' hcalls rfl
      have hlast : (⟨alloc, x, table, table', r⟩ : Call) = e' := List.singleton_inj.mp (List.append_inj_right' hcalls rfl)
      by_contra hnone
      have hmid : ∀ f ∈ mid, ¬ Release b f := fun f hf hrel => hnone ⟨f, hf, hrel⟩
      have hbefore := hrun.writing hrecs hpre he hmid
      rw [← hlast] at he'
      have hx : ¬ (indicator x = 0 ∧ blockid x = b) := fun h₀ => absurd (he'.1.symm.trans h₀.1) (by decide)
      exact (handleLock_writing hstep hbefore hx).2 he'
    | append_singleton post f _ =>
      rw [← List.cons_append, ← List.append_assoc] at hcalls
      exact ih hrecs b pre e mid e' post (List.append_inj_left' hcalls rfl) he he'

/-- **Grants and memory.** The grants of a run are recorded, and the write grants of a block separated by releases,
exactly if there was memory whenever the first lock of a block was granted. -/
theorem grants_recorded_iff (calls : List Call) (table : HashTable) (h : Handled calls table) :
    ((∀ e ∈ calls, Recorded e) ∧ Separated calls) ↔ ∀ e ∈ calls, HasRoom e := by
  have heach : ∀ e ∈ calls, Recorded e ↔ HasRoom e := by
    intro e he
    obtain ⟨hs, hstep⟩ := h.mem he
    exact recorded_iff hs hstep
  constructor
  · intro hrec e he
    exact (heach e he).mp (hrec.1 e he)
  · intro hroom
    have hrec : ∀ e ∈ calls, Recorded e := fun e he => (heach e he).mpr (hroom e he)
    exact ⟨hrec, h.separated hrec⟩

/-- Two clients ask for block 5, and there is no memory. -/
def askedTwice : List Call :=
  [⟨false, lockWord .write 5, createHashTable, createHashTable, some 1⟩,
    ⟨false, lockWord .write 5, createHashTable, createHashTable, some 1⟩]

theorem handled_askedTwice : Handled askedTwice createHashTable :=
  .call (.call .start rfl) rfl

/-- Both get the lock, and the table knows of neither. -/
theorem granted_twice :
    ¬ ∀ calls table, Handled calls table → (∀ e ∈ calls, Recorded e) ∧ Separated calls := by
  intro h
  obtain ⟨-, hsep⟩ := h askedTwice createHashTable handled_askedTwice
  obtain ⟨f, hf, -⟩ := hsep 5 [] _ [] _ [] rfl ⟨by decide, by decide, rfl⟩ ⟨by decide, by decide, rfl⟩
  cases hf

/-- With memory a write lock is recorded. -/
theorem grants_recorded_iff_memory :
    let table := setKeyValue true createHashTable 5 1
    let calls : List Call := [⟨true, lockWord .write 5, createHashTable, table, some 1⟩]
    (∀ e ∈ calls, Recorded e) ∧ Separated calls :=
  (grants_recorded_iff _ _ (.call .start rfl)).mpr (by simp [HasRoom])

end PmemProgram.Cxl
