import PmemProgram.Cxl.LockService

/-!
# Mutual exclusion of the lock service

A client holds a block from the moment the server grants it until the server has received its release: the
grant may still be in flight to the client, and the release in flight to the server. `Talk` lists what can be on
a connection, `Encodes` ties the table value of a block to its holders, and `Inv` (both, for every connection
and block) is kept by every step (`inv_step`, `inv_reachable`).
-/

namespace PmemProgram.Cxl

/-! ## What the server does with each request word -/

theorem handleLock_write (table : HashTable) {b : Nat} (hb : b < 2 ^ 30) :
    handleLock true table (lockWord .write b) =
      if getKeyValue table b = -1 ∨ getKeyValue table b = 0 then some (setKeyValue true table b 1, some 1)
      else some (table, some 0) := by
  simp only [handleLock, indicator_lockWord _ hb, blockid_lockWord _ hb, LockType.code]
  rfl

theorem handleLock_read (table : HashTable) {b : Nat} (hb : b < 2 ^ 30) :
    handleLock true table (lockWord .read b) =
      if getKeyValue table b = 1 ∨ getKeyValue table b = -1 then some (table, some (0 : Int))
      else some (setKeyValue true table b ((getKeyValue table b >>> (1 : Nat) + 1) <<< (1 : Nat)), some 1) := by
  simp only [handleLock, indicator_lockWord _ hb, blockid_lockWord _ hb, LockType.code]
  rfl

theorem handleLock_release (table : HashTable) {b : Nat} (hb : b < 2 ^ 30) :
    handleLock true table (lockWord .release b) =
      if getKeyValue table b = 1 then some (setKeyValue true table b 0, none)
      else if getKeyValue table b ≠ 0 ∧ getKeyValue table b ≠ -1 then
        some (setKeyValue true table b ((getKeyValue table b >>> (1 : Nat) - 1) <<< (1 : Nat)), none)
      else some (table, none) := by
  simp only [handleLock, indicator_lockWord _ hb, blockid_lockWord _ hb, LockType.code]
  rfl

/-- Adding a reader to an even value. -/
theorem readers_succ (n : Nat) : ((2 * (n : Int)) >>> (1 : Nat) + 1) <<< (1 : Nat) = 2 * ((n + 1 : Nat) : Int) := by
  simp only [Int.shiftRight_eq_div_pow, Int.shiftLeft_eq]
  omega

/-- Removing a reader from an even value. -/
theorem readers_pred (n : Nat) : ((2 * ((n + 1 : Nat) : Int)) >>> (1 : Nat) - 1) <<< (1 : Nat) = 2 * (n : Int) := by
  simp only [Int.shiftRight_eq_div_pow, Int.shiftLeft_eq]
  omega

/-! ## Connections -/

/-- What can be on a connection: the client's phase, the words and the replies in flight, and the block the
client holds in the eyes of the server. -/
inductive Talk (role : Role) : Phase → List Word → List Int → Option Nat → Prop
  | top : Talk role .top [] [] none
  | left {b} : b < blockNum → Talk role .top [lockWord .release b] [] (some b)
  | leftAsked {b uuid} : b < blockNum → uuid < blockNum →
      Talk role (.waiting uuid) [lockWord .release b, lockWord role.request uuid] [] (some b)
  | asked {uuid} : uuid < blockNum → Talk role (.waiting uuid) [lockWord role.request uuid] [] none
  | no {uuid} : uuid < blockNum → Talk role (.waiting uuid) [] [0] none
  | yes {uuid} : uuid < blockNum → Talk role (.waiting uuid) [] [1] (some uuid)
  | inside {uuid} : uuid < blockNum → Talk role (.critical uuid) [] [] (some uuid)

section
variable {ι : Type} [DecidableEq ι] {role : ι → Role}

/-- The table value `v` of a block held by `H`: `1` for one writer, twice the number of readers, and `-1` only
when nobody holds it. -/
def Encodes (role : ι → Role) (H : Finset ι) (v : Int) : Prop :=
  (∃ c, role c = .writer ∧ H = {c} ∧ v = 1) ∨
    (∀ c ∈ H, role c = .reader) ∧ (v = 2 * (H.card : Int) ∨ H = ∅ ∧ v = -1)

theorem Encodes.unheld {H : Finset ι} {v : Int} (h : Encodes role H v) (hv : v = -1 ∨ v = 0) : H = ∅ := by
  rcases h with ⟨c, _, _, rfl⟩ | ⟨_, h | h⟩
  · omega
  · exact Finset.card_eq_zero.mp (by omega)
  · exact h.1

omit [DecidableEq ι] in
theorem Encodes.readers {H : Finset ι} {v : Int} (h : Encodes role H v) (h₁ : v ≠ 1) (h₂ : v ≠ -1) :
    (∀ c ∈ H, role c = .reader) ∧ v = 2 * (H.card : Int) := by
  rcases h with ⟨c, _, _, rfl⟩ | ⟨hr, h | h⟩
  · exact absurd rfl h₁
  · exact ⟨hr, h⟩
  · exact absurd h.2 h₂

theorem Encodes.writeGrant {H : Finset ι} {v : Int} (h : Encodes role H v) (hv : v = -1 ∨ v = 0) {c : ι}
    (hc : role c = .writer) : Encodes role (insert c H) 1 := by
  rw [h.unheld hv]
  exact Or.inl ⟨c, hc, by simp, rfl⟩

theorem Encodes.readGrant {H : Finset ι} {v : Int} (h : Encodes role H v) (h₁ : v ≠ 1) (h₂ : v ≠ -1) {c : ι}
    (hc : role c = .reader) (hn : c ∉ H) : Encodes role (insert c H) ((v >>> (1 : Nat) + 1) <<< (1 : Nat)) := by
  obtain ⟨hr, rfl⟩ := h.readers h₁ h₂
  refine Or.inr ⟨fun d hd => ?_, Or.inl ?_⟩
  · rcases Finset.mem_insert.mp hd with rfl | hd
    · exact hc
    · exact hr d hd
  · rw [readers_succ, Finset.card_insert_of_notMem hn]

theorem Encodes.writeRelease {H : Finset ι} (h : Encodes role H 1) {c : ι} (hc : c ∈ H) :
    Encodes role (H.erase c) 0 := by
  rcases h with ⟨d, _, rfl, _⟩ | ⟨_, h | h⟩
  · rw [Finset.mem_singleton] at hc
    subst hc
    exact Or.inr ⟨by simp, Or.inl (by simp)⟩
  · omega
  · omega

theorem Encodes.readRelease {H : Finset ι} {v : Int} (h : Encodes role H v) (h₁ : v ≠ 1) (h₂ : v ≠ -1) {c : ι}
    (hc : c ∈ H) : Encodes role (H.erase c) ((v >>> (1 : Nat) - 1) <<< (1 : Nat)) := by
  obtain ⟨hr, rfl⟩ := h.readers h₁ h₂
  refine Or.inr ⟨fun d hd => hr d (Finset.mem_of_mem_erase hd), Or.inl ?_⟩
  rw [← Finset.card_erase_add_one hc, readers_pred]

variable [Fintype ι]

/-- The clients that hold block `b`. -/
def holders (hold : ι → Option Nat) (b : Nat) : Finset ι := Finset.univ.filter fun c => hold c = some b

omit [DecidableEq ι] in
@[simp] theorem mem_holders {hold : ι → Option Nat} {b : Nat} {c : ι} : c ∈ holders hold b ↔ hold c = some b := by
  simp [holders]

theorem holders_update_none {hold : ι → Option Nat} (c : ι) (b : Nat) :
    holders (Function.update hold c none) b = (holders hold b).erase c := by
  ext d
  by_cases hd : d = c
  · subst hd; simp
  · simp [hd]

theorem holders_update_some {hold : ι → Option Nat} (c : ι) (b : Nat) :
    holders (Function.update hold c (some b)) b = insert c (holders hold b) := by
  ext d
  by_cases hd : d = c
  · subst hd; simp
  · simp [hd]

theorem holders_update_other {hold : ι → Option Nat} {c : ι} {o : Option Nat} {b : Nat} (h₁ : hold c ≠ some b)
    (h₂ : o ≠ some b) : holders (Function.update hold c o) b = holders hold b := by
  ext d
  by_cases hd : d = c
  · subst hd; simp [h₁, h₂]
  · simp [hd]

/-! ## The invariant -/

/-- Every connection is one of `Talk`, and every table value encodes the holders of its block. -/
structure Inv (role : ι → Role) (s : Net ι) (hold : ι → Option Nat) : Prop where
  talk : ∀ c, Talk (role c) (s.phase c) (s.up c) (s.down c) (hold c)
  enc : ∀ b : Nat, Encodes role (holders hold b) (getKeyValue s.table b)

omit [DecidableEq ι] in
theorem inv_init : Inv role Net.init fun _ : ι => none where
  talk _ := .top
  enc b := Or.inr ⟨by simp, Or.inr ⟨by ext; simp, rfl⟩⟩

/-- A step of one connection that leaves the table alone. -/
theorem Inv.talkStep {s s' : Net ι} {hold : ι → Option Nat} (h : Inv role s hold) (c : ι) {p : Phase}
    {up : List Word} {down : List Int} (ht : s'.table = s.table) (hp : s'.phase = Function.update s.phase c p)
    (hu : s'.up = Function.update s.up c up) (hd : s'.down = Function.update s.down c down)
    (hc : Talk (role c) p up down (hold c)) : Inv role s' hold where
  talk d := by
    rw [hp, hu, hd]
    by_cases hdc : d = c
    · subst hdc; simpa using hc
    · simpa [hdc] using h.talk d
  enc b := by rw [ht]; exact h.enc b

/-- A request word of `c` for block `b` served: the talk of `c`, the holders and the value of `b` change. -/
theorem Inv.serveStep {s : Net ι} {hold : ι → Option Nat} (h : Inv role s hold) (c : ι) {b : Nat} {o : Option Nat}
    {rest : List Word} {table : HashTable} {r : Option Int} (hold₁ : hold c = none ∨ hold c = some b)
    (hold₂ : o = none ∨ o = some b) (htable : ∀ k : Nat, k ≠ b → getKeyValue table k = getKeyValue s.table k)
    (henc : Encodes role (holders (Function.update hold c o) b) (getKeyValue table b))
    (hc : Talk (role c) (s.phase c) rest (s.down c ++ r.toList) o) :
    Inv role (s.reply c rest table r) (Function.update hold c o) where
  talk d := by
    by_cases hdc : d = c
    · subst hdc; simpa [Net.reply] using hc
    · simpa [Net.reply, hdc] using h.talk d
  enc k := by
    by_cases hk : k = b
    · subst hk; exact henc
    · have h₁ : hold c ≠ some k := by rcases hold₁ with e | e <;> rw [e] <;> simp [Ne.symm hk]
      have h₂ : o ≠ some k := by rcases hold₂ with e | e <;> rw [e] <;> simp [Ne.symm hk]
      rw [holders_update_other h₁ h₂]
      simpa [Net.reply, htable k hk] using h.enc k

theorem getKeyValue_set_ne (table : HashTable) (b : Nat) (v : Int) (k : Nat) (hk : k ≠ b) :
    getKeyValue (setKeyValue true table b v) k = getKeyValue table k := by
  rw [getKeyValue_setKeyValue, if_neg (by exact_mod_cast hk)]

theorem getKeyValue_set_self (table : HashTable) (b : Nat) (v : Int) :
    getKeyValue (setKeyValue true table b v) b = v := by
  rw [getKeyValue_setKeyValue, if_pos rfl]

/-- The server receives a release of `b` from its holder. -/
theorem Inv.serveRelease {s : Net ι} {hold : ι → Option Nat} (h : Inv role s hold) {c : ι} {b : Nat}
    (hb : b < blockNum) (hc : hold c = some b) {rest : List Word} {table : HashTable} {r : Option Int}
    (hs : handleLock true s.table (lockWord .release b) = some (table, r))
    (ht : Talk (role c) (s.phase c) rest (s.down c) none) :
    Inv role (s.reply c rest table r) (Function.update hold c none) := by
  have henc := h.enc b
  have hmem : c ∈ holders hold b := mem_holders.mpr hc
  rw [handleLock_release _ (by unfold blockNum at hb; omega)] at hs
  split_ifs at hs with h₁ h₂
  · cases hs
    refine h.serveStep c (Or.inr hc) (Or.inl rfl) (getKeyValue_set_ne _ _ _) ?_ (by simpa using ht)
    rw [holders_update_none, getKeyValue_set_self]
    rw [h₁] at henc
    exact henc.writeRelease hmem
  · cases hs
    refine h.serveStep c (Or.inr hc) (Or.inl rfl) (getKeyValue_set_ne _ _ _) ?_ (by simpa using ht)
    rw [holders_update_none, getKeyValue_set_self]
    exact henc.readRelease h₁ h₂.2 hmem
  · -- a held block is neither free nor absent
    exfalso
    have hv : getKeyValue s.table b = -1 ∨ getKeyValue s.table b = 0 := by
      by_contra hn
      push Not at hn
      exact h₂ ⟨hn.2, hn.1⟩
    rw [henc.unheld hv] at hmem
    simp at hmem

/-- The server receives the request of `c` for block `b`. -/
theorem Inv.serveRequest {s : Net ι} {hold : ι → Option Nat} (h : Inv role s hold) {c : ι} {b : Nat}
    (hb : b < blockNum) (hc : hold c = none) (hp : s.phase c = .waiting b) (hd : s.down c = []) {table : HashTable}
    {r : Option Int} (hs : handleLock true s.table (lockWord (role c).request b) = some (table, r)) :
    ∃ hold', Inv role (s.reply c [] table r) hold' := by
  have henc := h.enc b
  have hb' : b < 2 ^ 30 := by unfold blockNum at hb; omega
  have hno : ∀ t, t = s.table → Inv role (s.reply c [] t (some 0)) (Function.update hold c none) := by
    rintro t rfl
    refine h.serveStep c (b := b) (Or.inl hc) (Or.inl rfl) (fun _ _ => rfl) ?_ ?_
    · rw [holders_update_none, Finset.erase_eq_of_notMem (by simp [hc])]
      exact henc
    · rw [hp, hd]; exact .no hb
  have hyes : ∀ v, Encodes role (insert c (holders hold b)) v →
      Inv role (s.reply c [] (setKeyValue true s.table b v) (some 1)) (Function.update hold c (some b)) := by
    intro v hv
    refine h.serveStep c (Or.inl hc) (Or.inr rfl) (getKeyValue_set_ne _ _ _) ?_ ?_
    · rw [holders_update_some, getKeyValue_set_self]; exact hv
    · rw [hp, hd]; exact .yes hb
  cases hr : role c with
  | writer =>
    rw [hr, Role.request, handleLock_write _ hb'] at hs
    split_ifs at hs with h₁
    · cases hs; exact ⟨_, hyes _ (henc.writeGrant h₁ hr)⟩
    · cases hs; exact ⟨_, hno _ rfl⟩
  | reader =>
    rw [hr, Role.request, handleLock_read _ hb'] at hs
    split_ifs at hs with h₁
    · cases hs; exact ⟨_, hno _ rfl⟩
    · cases hs
      push Not at h₁
      exact ⟨_, hyes _ (henc.readGrant h₁.1 h₁.2 hr (by simp [hc]))⟩

/-- The server receives the oldest word of `c`. -/
theorem Inv.serve {s : Net ι} {hold : ι → Option Nat} (h : Inv role s hold) {c : ι} {x : Word} {rest : List Word}
    {table : HashTable} {r : Option Int} (hu : s.up c = x :: rest)
    (hs : handleLock true s.table x = some (table, r)) : ∃ hold', Inv role (s.reply c rest table r) hold' := by
  have ht := h.talk c
  rw [hu] at ht
  generalize hp : s.phase c = p at ht
  generalize hd : s.down c = d at ht
  generalize hh : hold c = o at ht
  cases ht with
  | left hb => exact ⟨_, h.serveRelease hb hh hs (by rw [hp, hd]; exact .top)⟩
  | leftAsked hb hu' => exact ⟨_, h.serveRelease hb hh hs (by rw [hp, hd]; exact .asked hu')⟩
  | asked hb => exact h.serveRequest hb hh hp hd hs

/-- **Every step keeps the invariant.** -/
theorem inv_step {s s' : Net ι} {hold : ι → Option Nat} (h : Inv role s hold) (hs : Step role s s') :
    ∃ hold', Inv role s' hold' := by
  cases hs with
  | @request c uuid hp hu =>
    have ht := h.talk c
    rw [hp] at ht
    refine ⟨hold, h.talkStep c rfl rfl rfl (Function.update_eq_self c s.down).symm ?_⟩
    generalize s.up c = up at ht ⊢
    generalize s.down c = d at ht ⊢
    generalize hold c = o at ht ⊢
    cases ht with
    | top => exact .asked hu
    | left hb => exact .leftAsked hb hu
  | serve hu hh => exact h.serve hu hh
  | @granted c uuid rest hp hd =>
    have ht := h.talk c
    rw [hp, hd] at ht
    refine ⟨hold, h.talkStep c rfl rfl (Function.update_eq_self c s.up).symm rfl ?_⟩
    generalize s.up c = up at ht ⊢
    generalize hold c = o at ht ⊢
    cases ht with
    | yes hb => exact .inside hb
  | @refused c uuid v rest hp hd hv =>
    have ht := h.talk c
    rw [hp, hd] at ht
    refine ⟨hold, h.talkStep c rfl rfl rfl rfl ?_⟩
    simp only
    generalize s.up c = up at ht ⊢
    generalize hold c = o at ht ⊢
    cases ht with
    | no hb => exact .asked hb
    | yes hb => exact absurd rfl hv
  | @release c uuid hp =>
    have ht := h.talk c
    rw [hp] at ht
    refine ⟨hold, h.talkStep c rfl rfl rfl (Function.update_eq_self c s.down).symm ?_⟩
    generalize s.up c = up at ht ⊢
    generalize s.down c = d at ht ⊢
    generalize hold c = o at ht ⊢
    cases ht with
    | inside hb => exact .left hb

theorem inv_reachable {s : Net ι} (h : Reachable role s) : ∃ hold, Inv role s hold := by
  induction h with
  | refl => exact ⟨_, inv_init⟩
  | tail _ hs ih =>
    obtain ⟨hold, h⟩ := ih
    exact inv_step h hs

omit [DecidableEq ι] in
/-- A client in its critical section holds the block. -/
theorem Inv.critical {s : Net ι} {hold : ι → Option Nat} (h : Inv role s hold) {c : ι} {b : Nat}
    (hp : s.phase c = .critical b) : hold c = some b := by
  have ht := h.talk c
  rw [hp] at ht
  generalize s.up c = up at ht
  generalize s.down c = d at ht
  generalize hold c = o at ht
  cases ht
  rfl

/-- **Mutual exclusion.** While a writer is in its critical section of a block, no other client is in a critical
section of that block. -/
theorem writer_excludes (role : ι → Role) (s : Net ι) (hs : Reachable role s) (b : Nat) (c d : ι)
    (hc : role c = .writer) (hcb : s.phase c = .critical b) (hdc : d ≠ c) : s.phase d ≠ .critical b := by
  intro hdb
  obtain ⟨hold, h⟩ := inv_reachable hs
  have hcH : c ∈ holders hold b := mem_holders.mpr (h.critical hcb)
  have hdH : d ∈ holders hold b := mem_holders.mpr (h.critical hdb)
  rcases h.enc b with ⟨e, _, hH, _⟩ | ⟨hr, _⟩
  · rw [hH, Finset.mem_singleton] at hcH hdH
    exact hdc (hdH.trans hcH.symm)
  · rw [hr c hcH] at hc
    cases hc

end

/-- Two writers, the first of them granted block 7. -/
def grantedSeven : Net (Fin 2) where
  table := setKeyValue true createHashTable 7 1
  phase := Function.update (Function.update (fun _ => .top) 0 (.waiting 7)) 0 (.critical 7)
  up := Function.update (Function.update (fun _ => []) 0 [lockWord .write 7]) 0 []
  down := Function.update (Function.update (fun _ => []) 0 [1]) 0 []

theorem reachable_grantedSeven : Reachable (fun _ => .writer) grantedSeven := by
  have h₁ : Step (fun _ => .writer) Net.init (Net.init.send (0 : Fin 2) (.waiting 7) (lockWord .write 7)) :=
    .request rfl (by decide)
  have h₂ : Step (fun _ => .writer) (Net.init.send (0 : Fin 2) (.waiting 7) (lockWord .write 7))
      ((Net.init.send 0 (.waiting 7) (lockWord .write 7)).reply 0 [] (setKeyValue true createHashTable 7 1) (some 1)) :=
    .serve rfl (handleLock_write createHashTable (by decide))
  exact ((Relation.ReflTransGen.single h₁).tail h₂).tail (.granted rfl rfl)

theorem writer_excludes_seven : grantedSeven.phase 0 = .critical 7 ∧ grantedSeven.phase 1 ≠ .critical 7 :=
  ⟨rfl, writer_excludes (fun _ => .writer) grantedSeven reachable_grantedSeven 7 0 1 rfl rfl (by decide)⟩

end PmemProgram.Cxl
