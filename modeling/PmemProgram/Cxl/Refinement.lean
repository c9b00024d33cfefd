import PmemProgram.Lib.Machine
import PmemProgram.Cxl.Exclusion

/-!
# The lock server refines a table of locks

`LockState` is what a block can be, and `lockTable` the machine that keeps one for each block, whatever the blocks are.
`handleLock` over the chained hash table simulates it (`handleLock_sim`), so the replies are the same
(`server_refines`).
-/

namespace PmemProgram.Cxl
open PmemProgram.Lib.Machine

/-! ## The specification -/

/-- A block: never written, free, locked by a writer, or by `n + 1` readers. -/
inductive LockState
  | never
  | free
  | writing
  | reading (n : Nat)
  deriving DecidableEq, Repr

/-- The state after a request and the reply, if there is one. -/
def LockState.request : LockState → LockType → LockState × Option Int
  | never, .write => (writing, some 1)
  | free, .write => (writing, some 1)
  | q, .write => (q, some 0)
  | free, .read => (reading 0, some 1)
  | reading n, .read => (reading (n + 1), some 1)
  | q, .read => (q, some 0)
  | writing, .release => (free, none)
  | reading 0, .release => (free, none)
  | reading (n + 1), .release => (reading n, none)
  | q, .release => (q, none)
  | q, .error => (q, none)

section
variable {κ : Type} [DecidableEq κ]

/-- A request on a block changes that block only. -/
def lockTable (T : κ → LockState) (r : LockType × κ) : (κ → LockState) × Option Int :=
  (Function.update T r.2 ((T r.2).request r.1).1, ((T r.2).request r.1).2)

end

/-- A block of a writer was granted by the request, or was one before and is not released. -/
theorem LockState.request_writing {q : LockState} {t : LockType} (h : (q.request t).1 = writing) :
    q = writing ∧ t ≠ .release ∨ t = .write ∧ (q.request t).2 = some 1 := by
  cases q with
  | writing => exact Or.inl ⟨rfl, by rintro rfl; cases h⟩
  | never =>
    cases t with
    | write => exact Or.inr ⟨rfl, rfl⟩
    | _ => cases h
  | free =>
    cases t with
    | write => exact Or.inr ⟨rfl, rfl⟩
    | _ => cases h
  | reading n =>
    cases t with
    | release => cases n <;> cases h
    | _ => cases h

/-- Free or read is what was written, released, or was so before. -/
theorem LockState.request_past {q : LockState} {t : LockType} (hn : (q.request t).1 ≠ never)
    (hw : (q.request t).1 ≠ writing) : q ≠ never ∧ (q = writing → t = .release) := by
  cases q <;> cases t <;> simp_all [LockState.request]

/-- What the server stores for it. -/
def LockState.value : LockState → Int
  | never => -1
  | free => 0
  | writing => 1
  | reading n => 2 * ((n + 1 : Nat) : Int)

/-! ## The simulation -/

/-- What the server takes the word for. -/
def lockType (x : Word) : LockType :=
  if indicator x = 2 then .write else if indicator x = 1 then .read else if indicator x = 0 then .release else .error

/-- A request word as a request on a block. -/
def request (x : Word) : LockType × Int := (lockType x, blockid x)

/-- The table holds the values of the blocks. -/
def Simulates (table : HashTable) (T : Int → LockState) : Prop := ∀ b, getKeyValue table b = (T b).value

/-- The table after a block has got the value of its new state. -/
theorem Simulates.set {table : HashTable} {T : Int → LockState} (h : Simulates table T) (b : Int) {q : LockState}
    {v : Int} (hv : v = q.value) : Simulates (setKeyValue true table b v) (Function.update T b q) := by
  intro k
  rw [getKeyValue_setKeyValue]
  by_cases hk : k = b
  · rw [if_pos hk, hk, Function.update_self, hv]
  · rw [if_neg hk, Function.update_of_ne hk, h k]

theorem Simulates.same {table : HashTable} {T : Int → LockState} (h : Simulates table T) (b : Int) {q : LockState}
    (hq : T b = q) : Simulates table (Function.update T b q) := by
  rw [← hq, Function.update_eq_self]
  exact h

/-- A value of readers, one more of them and one less. -/
theorem value_reading (n : Nat) :
    (LockState.reading n).value ≠ 1 ∧ (LockState.reading n).value ≠ 0 ∧ (LockState.reading n).value ≠ -1 ∧
      ((LockState.reading n).value >>> (1 : Nat) + 1) <<< (1 : Nat) = (LockState.reading (n + 1)).value ∧
      ((LockState.reading n).value >>> (1 : Nat) - 1) <<< (1 : Nat) = ((LockState.reading n).request .release).1.value := by
  refine ⟨by simp only [LockState.value]; omega, by simp only [LockState.value]; omega,
    by simp only [LockState.value]; omega, readers_succ (n + 1), (readers_pred n).trans ?_⟩
  cases n <;> rfl

/-- The server on a block in state `q`: a request that changes nothing stores nothing. -/
theorem handleLock_state {table : HashTable} {x : Word} {q : LockState} (hx : indicator x ≠ 3)
    (hv : getKeyValue table (blockid x) = q.value) :
    handleLock true table x =
      some (if (q.request (lockType x)).1 = q then table
        else setKeyValue true table (blockid x) (q.request (lockType x)).1.value, (q.request (lockType x)).2) := by
  unfold handleLock lockType
  rw [hv]
  dsimp only
  cases q with
  | reading n =>
    obtain ⟨h₁, h₀, hneg, hsucc, hpred⟩ := value_reading n
    rcases indicator_cases hx with hi | hi | hi
    · rw [hpred]
      cases n <;> simp [hi, h₁, h₀, hneg, LockState.request]
    · rw [hsucc]
      simp [hi, h₁, hneg, LockState.request]
    · simp [hi, h₀, hneg, LockState.request]
  | free =>
    have hsucc : ((0 : Int) >>> (1 : Nat) + 1) <<< (1 : Nat) = 2 := rfl
    rcases indicator_cases hx with hi | hi | hi
    · simp [hi, LockState.value, LockState.request]
    · simp only [hi, LockState.value, LockState.request, hsucc]
      simp
    · simp [hi, LockState.value, LockState.request]
  | never => rcases indicator_cases hx with hi | hi | hi <;> simp [hi, LockState.value, LockState.request]
  | writing => rcases indicator_cases hx with hi | hi | hi <;> simp [hi, LockState.value, LockState.request]

/-- **One request.** The server replies like the specification, and only an error word stops it. -/
theorem handleLock_sim {table : HashTable} {T : Int → LockState} {x : Word} (h : Simulates table T)
    (hx : indicator x ≠ 3) : ∃ table', handleLock true table x = some (table', (lockTable T (request x)).2) ∧
      Simulates table' (lockTable T (request x)).1 := by
  refine ⟨_, handleLock_state hx (h (blockid x)), ?_⟩
  unfold lockTable request
  dsimp only
  split_ifs with hq
  · exact h.same _ hq.symm
  · exact h.set _ rfl

/-! ## Sequences of requests -/

/-- The blocks after the words `xs`. -/
def locksAfter (xs : List Word) : Int → LockState :=
  (answers (fun T x => lockTable T (request x)) (fun _ => .never) xs).1

/-- The replies of the specification to the words `xs`. -/
def replies (xs : List Word) : List (Option Int) :=
  (answers (fun T x => lockTable T (request x)) (fun _ => .never) xs).2

theorem locksAfter_concat (xs : List Word) (x : Word) :
    locksAfter (xs ++ [x]) = (lockTable (locksAfter xs) (request x)).1 := by
  rw [locksAfter, answers_append]
  rfl

/-- The reply to a word depends on the words before it. -/
theorem replies_get (pre : List Word) (x : Word) (post : List Word) :
    (replies (pre ++ x :: post))[pre.length]? = some (lockTable (locksAfter pre) (request x)).2 := by
  have hlen := length_answers (fun T x => lockTable T (request x)) (fun _ => LockState.never) pre
  rw [replies, answers_append, List.getElem?_append_right hlen.le, hlen, Nat.sub_self]
  rfl

/-- A granted write lock of `b` among `xs`, and its release. -/
def Released (rs : List (Option Int)) (b : Int) (xs : List Word) : Prop :=
  ∃ a w c r d, xs = a ++ w :: (c ++ r :: d) ∧ request w = (.write, b) ∧ rs[a.length]? = some (some 1) ∧
    (∀ y ∈ c, request y ≠ (.release, b)) ∧ request r = (.release, b)

/-- A granted write lock of `b` among `xs`, not released yet. -/
def Unreleased (rs : List (Option Int)) (b : Int) (xs : List Word) : Prop :=
  ∃ a w c, xs = a ++ w :: c ∧ request w = (.write, b) ∧ rs[a.length]? = some (some 1) ∧
    ∀ y ∈ c, request y ≠ (.release, b)

theorem Released.concat {rs : List (Option Int)} {b : Int} {xs : List Word} (h : Released rs b xs) (x : Word) :
    Released rs b (xs ++ [x]) := by
  obtain ⟨a, w, c, r, d, rfl, h⟩ := h
  exact ⟨a, w, c, r, d ++ [x], by simp, h⟩

theorem Unreleased.concat {rs : List (Option Int)} {b : Int} {xs : List Word} (h : Unreleased rs b xs) {x : Word}
    (hx : request x ≠ (.release, b)) : Unreleased rs b (xs ++ [x]) := by
  obtain ⟨a, w, c, rfl, hw, hr, hc⟩ := h
  refine ⟨a, w, c ++ [x], by simp, hw, hr, fun y hy => ?_⟩
  rcases List.mem_append.mp hy with hy | hy
  · exact hc y hy
  · rw [List.mem_singleton.mp hy]
    exact hx

/-- The past of a block: one that is held by a writer has been granted to it, and one that is free or read has been
released by its first writer. -/
theorem locksAfter_past (xs : List Word) (b : Int) (rest : List Word) :
    (locksAfter xs b = .writing →
      Unreleased (replies (xs ++ rest)) b xs ∨ Released (replies (xs ++ rest)) b xs) ∧
      (locksAfter xs b ≠ .never → locksAfter xs b ≠ .writing → Released (replies (xs ++ rest)) b xs) := by
  induction xs using List.reverseRecOn generalizing rest with
  | nil => exact ⟨by simp [locksAfter, answers], by simp [locksAfter, answers]⟩
  | append_singleton xs x ih =>
    obtain ⟨ihw, ihr⟩ := ih (x :: rest)
    have hreply := replies_get xs x rest
    rw [List.append_assoc, List.singleton_append, locksAfter_concat]
    by_cases hb : blockid x = b
    · have hrequest : request x = (lockType x, b) := by rw [request, hb]
      rw [hrequest] at hreply ⊢
      simp only [lockTable, Function.update_self] at hreply ⊢
      refine ⟨fun hw => ?_, fun hn hw => ?_⟩
      · rcases LockState.request_writing hw with ⟨hwriting, ht⟩ | ⟨ht, hgrant⟩
        · rcases ihw hwriting with h | h
          · exact Or.inl (h.concat (by rw [hrequest]; simp [ht]))
          · exact Or.inr (h.concat x)
        · exact Or.inl ⟨xs, x, [], by simp, by rw [hrequest, ht], by rw [hreply, hgrant], by simp⟩
      · obtain ⟨hpast, hrelease⟩ := LockState.request_past hn hw
        by_cases hwriting : locksAfter xs b = .writing
        · rcases ihw hwriting with ⟨a, w, c, rfl, hw', hr, hc⟩ | h
          · refine ⟨a, w, c, x, [], by simp, hw', hr, hc, ?_⟩
            rw [hrequest, hrelease hwriting]
          · exact h.concat x
        · exact (ihr hpast hwriting).concat x
    · have hne : b ≠ blockid x := fun he => hb he.symm
      have hx : request x ≠ (.release, b) := fun he => hb (congrArg Prod.snd he)
      simp only [lockTable, request, Function.update_of_ne hne]
      refine ⟨fun hw => ?_, fun hn hw => (ihr hn hw).concat x⟩
      rcases ihw hw with h | h
      · exact Or.inl (h.concat hx)
      · exact Or.inr (h.concat x)

/-- The value of a block grows by at most two with each request, so a `long` does not overflow in fewer than `2 ^ 62`. -/
theorem LockState.value_request (q : LockState) (t : LockType) : (q.request t).1.value ≤ q.value + 2 := by
  cases q with
  | reading n =>
    cases t with
    | release => cases n <;> simp only [LockState.request, LockState.value] <;> omega
    | _ => simp only [LockState.request, LockState.value]; omega
  | _ => cases t <;> simp [LockState.request, LockState.value]

theorem locksAfter_bound (xs : List Word) (b : Int) : (locksAfter xs b).value ≤ 2 * (xs.length : Int) := by
  induction xs using List.reverseRecOn with
  | nil => simp [locksAfter, answers, LockState.value]
  | append_singleton xs x ih =>
    have hstep := (locksAfter xs b).value_request (lockType x)
    rw [locksAfter_concat, List.length_append, List.length_singleton]
    by_cases hb : b = blockid x
    · simp only [lockTable, request, ← hb, Function.update_self]
      push_cast
      omega
    · simp only [lockTable, request, Function.update_of_ne hb]
      push_cast
      omega

/-- **Refinement.** On every sequence of lock and release words the server runs, gives the replies of the table of
locks, and stores the value of each block's state. A request leaves every other block alone, and a read lock is granted
only after a write lock of the block has been granted and released. -/
theorem server_refines (xs : List Word) (hxs : ∀ x ∈ xs, indicator x ≠ 3) :
    ∃ table, serve (handleLock true) createHashTable xs = some (table, replies xs) ∧
      (∀ b, getKeyValue table b = (locksAfter xs b).value ∧ getKeyValue table b ≤ 2 * (xs.length : Int)) ∧
      (∀ x, indicator x ≠ 3 → ∃ table' r, handleLock true table x = some (table', r) ∧
        ∀ b, b ≠ blockid x → getKeyValue table' b = getKeyValue table b) ∧
      ∀ pre x post, xs = pre ++ x :: post → indicator x = 1 → (replies xs)[pre.length]? = some (some 1) →
        Released (replies xs) (blockid x) pre := by
  have hinit : Simulates createHashTable fun _ => .never := fun _ => rfl
  have hsim : ∀ (s : HashTable) (T : Int → LockState) (x : Word), Simulates s T → indicator x ≠ 3 →
      ∃ s', handleLock true s x = some (s', (lockTable T (request x)).2) ∧ Simulates s' (lockTable T (request x)).1 :=
    fun s T x h hx => handleLock_sim h hx
  obtain ⟨table, hserve, hvalue⟩ := serve_of_sim hsim hinit hxs
  refine ⟨table, hserve, fun b => ⟨hvalue b, (hvalue b).trans_le (locksAfter_bound xs b)⟩, fun x hx => ?_, ?_⟩
  · obtain ⟨table', hstep, hvalue'⟩ := handleLock_sim hvalue hx
    refine ⟨table', _, hstep, fun b hb => ?_⟩
    rw [hvalue' b, hvalue b]
    simp only [lockTable, request, Function.update_of_ne hb]
  · rintro pre x post rfl hx hreply
    rw [replies_get] at hreply
    have htype : lockType x = .read := by simp [lockType, hx]
    have hgrant : ((locksAfter pre (blockid x)).request .read).2 = some 1 := by
      rw [← htype]
      exact Option.some.inj hreply
    refine (locksAfter_past pre (blockid x) (x :: post)).2 ?_ ?_
    · intro h
      rw [h] at hgrant
      cases hgrant
    · intro h
      rw [h] at hgrant
      cases hgrant

/-- A read before the first write of block 5 is refused, one after its release is granted; block 261 has the same
chain. -/
theorem server_refines_five : ∃ table,
    serve (handleLock true) createHashTable
      [lockWord .read 5, lockWord .write 5, lockWord .read 261, lockWord .release 5, lockWord .read 5] =
        some (table, [some 0, some 1, some 0, none, some 1]) ∧ getKeyValue table 5 = 2 := by
  obtain ⟨table, hserve, hvalue, -⟩ := server_refines
    [lockWord .read 5, lockWord .write 5, lockWord .read 261, lockWord .release 5, lockWord .read 5] (by simp; decide)
  exact ⟨table, hserve, (hvalue 5).1⟩

end PmemProgram.Cxl
