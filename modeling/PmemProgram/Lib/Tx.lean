import PmemProgram.Lib.Cmd
import PmemProgram.Lib.Objects

/-!
# Persistent objects and undo-log transactions

Memory is made of cells, some of them owned by an object that an allocator has handed out. In a transaction the cells are
saved before they are changed. A crash restores what was saved, takes back the objects allocated and forgets those freed; a
cell that was changed and not saved may hold anything afterwards. Transactions nest, and only the end of the outermost one
commits.

* `Store` : the memory, the live objects and what the running transaction has done; `Recovers s t` : a crash in `s` can
  leave `t`;
* `Covered p s` : everything that the transaction has changed since `p` is saved or new (`Covered.recovers` : then a crash
  leaves `p`);
* `txBegin`, `txAdd`, `store`, `txAlloc`, `txFree`, `txEnd`, `txAbort`, `load`, `direct` : the operations as commands, with
  a rule for each (`wp_txAdd`, ...).
-/

namespace PmemProgram.Lib.Tx
open Objects

/-- The object that a cell is part of; `none` for the root. -/
class Cells (A : Type) where
  owner : A → Option Nat

structure Store {A : Type} (V : A → Type) where
  mem : ∀ a, V a
  live : List Nat
  /-- The number of open transactions. -/
  depth : Nat
  saved : ∀ a, Option (V a)
  dirty : A → Bool
  /-- The objects allocated in the transaction, and those to free at its end. -/
  fresh : List Nat
  freed : List Nat

variable {A : Type} [DecidableEq A] {V : A → Type}

namespace Store

/-- No transaction is open. -/
structure Idle (s : Store V) : Prop where
  depth : s.depth = 0
  saved : s.saved = fun _ => none
  dirty : s.dirty = fun _ => false
  fresh : s.fresh = []
  freed : s.freed = []

def begin (s : Store V) : Store V := { s with depth := s.depth + 1 }

/-- Save the cells of a range, except those that are saved already. -/
def add (s : Store V) (range : List A) : Store V :=
  { s with saved := fun a => if a ∈ range then (s.saved a).or (some (s.mem a)) else s.saved a }

def put (s : Store V) (a : A) (v : V a) : Store V :=
  { s with mem := Function.update s.mem a v, dirty := Function.update s.dirty a true }

/-- Several cells at once. -/
def fill (s : Store V) (f : ∀ a, Option (V a)) : Store V :=
  { s with mem := fun a => (f a).getD (s.mem a), dirty := fun a => (f a).isSome || s.dirty a }

def alloc (s : Store V) (o : Nat) : Store V := { s with live := o :: s.live, fresh := o :: s.fresh }

/-- Objects are freed when the transaction commits. -/
def free (s : Store V) (o : Nat) : Store V := { s with freed := o :: s.freed }

/-- A store without a transaction. -/
def closed (mem : ∀ a, V a) (live : List Nat) : Store V :=
  ⟨mem, live, 0, fun _ => none, fun _ => false, [], []⟩

def commit (s : Store V) : Store V := closed s.mem (s.live.filter (· ∉ s.freed))

/-- The end of a transaction commits if it is the outermost one. -/
def finish (s : Store V) : Store V := if s.depth ≤ 1 then s.commit else { s with depth := s.depth - 1 }

/-- What an abort leaves. -/
def undo (s : Store V) : Store V :=
  closed (fun a => (s.saved a).getD (s.mem a)) (s.live.filter (· ∉ s.fresh))

section
omit [DecidableEq A]
variable (s : Store V) (o : Nat)

@[simp] theorem begin_mem : s.begin.mem = s.mem := rfl

@[simp] theorem begin_live : s.begin.live = s.live := rfl

@[simp] theorem fill_mem (f : ∀ a, Option (V a)) (a : A) : (s.fill f).mem a = (f a).getD (s.mem a) := rfl

@[simp] theorem fill_live (f : ∀ a, Option (V a)) : (s.fill f).live = s.live := rfl

@[simp] theorem alloc_mem : (s.alloc o).mem = s.mem := rfl

@[simp] theorem alloc_live : (s.alloc o).live = o :: s.live := rfl

@[simp] theorem free_mem : (s.free o).mem = s.mem := rfl

@[simp] theorem free_live : (s.free o).live = s.live := rfl

@[simp] theorem commit_mem : s.commit.mem = s.mem := rfl

end

@[simp] theorem add_mem (s : Store V) (range : List A) : (s.add range).mem = s.mem := rfl

@[simp] theorem add_live (s : Store V) (range : List A) : (s.add range).live = s.live := rfl

@[simp] theorem put_live (s : Store V) (a : A) (v : V a) : (s.put a v).live = s.live := rfl

@[simp] theorem put_mem_self (s : Store V) (a : A) (v : V a) : (s.put a v).mem a = v := Function.update_self a v s.mem

theorem put_mem_of_ne (s : Store V) {a b : A} (v : V a) (h : b ≠ a) : (s.put a v).mem b = s.mem b :=
  Function.update_of_ne h v s.mem

omit [DecidableEq A] in
theorem finish_outermost {s : Store V} (h : s.depth ≤ 1) : s.finish = s.commit := if_pos h

omit [DecidableEq A] in
theorem commit_live {s : Store V} (h : s.freed = []) : s.commit.live = s.live := by
  change s.live.filter (· ∉ s.freed) = s.live
  rw [h]
  exact List.filter_eq_self.mpr fun _ _ => by simp

omit [DecidableEq A] in
theorem idle_closed (mem : ∀ a, V a) (live : List Nat) : (closed mem live).Idle :=
  ⟨rfl, rfl, rfl, rfl, rfl⟩

end Store

/-! ## Crashes -/

section
variable [Cells A]
open Store

/-- The object of the cell is live. -/
def Alive (s : Store V) (a : A) : Prop := ∀ o, Cells.owner a = some o → o ∈ s.live

/-- A crash in `s` can leave `t`. -/
structure Recovers (s t : Store V) : Prop where
  idle : t.Idle
  live : t.live = s.live.filter (· ∉ s.fresh)
  saved : ∀ a v, Alive t a → s.saved a = some v → t.mem a = v
  kept : ∀ a, Alive t a → s.saved a = none → s.dirty a = false → t.mem a = s.mem a

/-- The two stores have the same objects with the same content. -/
structure Same (p t : Store V) : Prop where
  live : t.live = p.live
  mem : ∀ a, Alive p a → t.mem a = p.mem a

/-- What the running transaction has done since `p` can be undone. -/
structure Covered (p s : Store V) : Prop where
  live : s.live = s.fresh ++ p.live
  new : ∀ o ∈ s.fresh, o ∉ p.live
  saved : ∀ a v, Alive p a → s.saved a = some v → v = p.mem a
  kept : ∀ a, Alive p a → s.dirty a = false → s.mem a = p.mem a
  logged : ∀ a, Alive p a → s.dirty a = true → s.saved a ≠ none

variable {p s t : Store V} {a : A} {v : V a} {o : Nat}

omit [DecidableEq A] in
theorem Same.refl (s : Store V) : Same s s := ⟨rfl, fun _ _ => rfl⟩

omit [DecidableEq A] in
theorem Same.alive (h : Same p t) : Alive t a ↔ Alive p a := by
  unfold Alive
  rw [h.live]

omit [DecidableEq A] in
theorem Same.trans {u : Store V} (h : Same p t) (h' : Same t u) : Same p u :=
  ⟨h'.live.trans h.live, fun a ha => (h'.mem a (h.alive.mpr ha)).trans (h.mem a ha)⟩

omit [DecidableEq A] in
theorem Covered.refl (h : s.Idle) : Covered s s := by
  refine ⟨?_, ?_, fun a v _ hv => ?_, fun _ _ _ => rfl, fun a _ hd => ?_⟩
  · rw [h.fresh, List.nil_append]
  · rw [h.fresh]
    intro o ho
    cases ho
  · rw [h.saved] at hv
    cases hv
  · rw [h.dirty] at hd
    cases hd

omit [DecidableEq A] in
theorem Covered.filter (h : Covered p s) : s.live.filter (· ∉ s.fresh) = p.live := by
  rw [h.live, List.filter_append]
  have hfresh : s.fresh.filter (· ∉ s.fresh) = [] := by
    rw [List.filter_eq_nil_iff]
    intro o ho
    simpa using ho
  have hold : p.live.filter (· ∉ s.fresh) = p.live := by
    rw [List.filter_eq_self]
    intro o ho
    have hno : o ∉ s.fresh := fun hf => h.new o hf ho
    simpa using hno
  rw [hfresh, hold, List.nil_append]

omit [DecidableEq A] in
/-- **Undoing.** A crash of a covered transaction leaves what it has started from. -/
theorem Covered.recovers (h : Covered p s) (hr : Recovers s t) : Same p t := by
  have hlive : t.live = p.live := hr.live.trans h.filter
  refine ⟨hlive, fun a ha => ?_⟩
  have hat : Alive t a := by
    unfold Alive
    rw [hlive]
    exact ha
  cases hs : s.saved a with
  | some v => rw [hr.saved a v hat hs, h.saved a v ha hs]
  | none =>
    cases hd : s.dirty a with
    | false => rw [hr.kept a hat hs hd, h.kept a ha hd]
    | true => exact absurd hs (h.logged a ha hd)

omit [DecidableEq A] in
theorem Covered.undo (h : Covered p s) : Same p s.undo := by
  apply h.recovers
  refine ⟨idle_closed _ _, rfl, fun a v _ hv => ?_, fun a _ hv _ => ?_⟩
  · change (s.saved a).getD (s.mem a) = v
    rw [hv]
    rfl
  · change (s.saved a).getD (s.mem a) = s.mem a
    rw [hv]
    rfl

omit [DecidableEq A] in
/-- Without a transaction a crash leaves everything. -/
theorem Store.Idle.recovers (h : s.Idle) (hr : Recovers s t) : Same s t := (Covered.refl h).recovers hr

omit [DecidableEq A] in
/-- A crash always leaves something. -/
theorem recovers_undo (s : Store V) : Recovers s s.undo := by
  refine ⟨idle_closed _ _, rfl, fun a v _ hv => ?_, fun a _ hv _ => ?_⟩
  · change (s.saved a).getD (s.mem a) = v
    rw [hv]
    rfl
  · change (s.saved a).getD (s.mem a) = s.mem a
    rw [hv]
    rfl

omit [DecidableEq A] in
theorem Covered.begin (h : Covered p s) : Covered p s.begin := ⟨h.live, h.new, h.saved, h.kept, h.logged⟩

omit [DecidableEq A] in
theorem Covered.free (h : Covered p s) (o : Nat) : Covered p (s.free o) := ⟨h.live, h.new, h.saved, h.kept, h.logged⟩

omit [DecidableEq A] in
theorem Covered.alloc (h : Covered p s) (ho : o ∉ s.live) : Covered p (s.alloc o) := by
  refine ⟨?_, fun o' ho' => ?_, h.saved, h.kept, h.logged⟩
  · change o :: s.live = o :: s.fresh ++ p.live
    rw [h.live, List.cons_append]
  · rcases List.mem_cons.mp ho' with rfl | ho'
    · intro hp
      apply ho
      rw [h.live]
      exact List.mem_append_right _ hp
    · exact h.new o' ho'

theorem Covered.add (h : Covered p s) (range : List A) : Covered p (s.add range) := by
  refine ⟨h.live, h.new, fun a v ha hv => ?_, h.kept, fun a ha hd => ?_⟩
  · simp only [Store.add] at hv
    split_ifs at hv
    · cases hs : s.saved a with
      | some w =>
        rw [hs, Option.some_or] at hv
        cases hv
        exact h.saved a _ ha hs
      | none =>
        rw [hs, Option.none_or] at hv
        cases hv
        cases hd : s.dirty a with
        | false => exact h.kept a ha hd
        | true => exact absurd hs (h.logged a ha hd)
    · exact h.saved a v ha hv
  · have hs := h.logged a ha hd
    simp only [Store.add]
    split_ifs
    · cases hsa : s.saved a with
      | some w => simp
      | none => exact absurd hsa hs
    · exact hs

theorem Covered.put (h : Covered p s) (ha : Alive p a → s.saved a ≠ none) : Covered p (s.put a v) := by
  refine ⟨h.live, h.new, h.saved, fun b hb hd => ?_, fun b hb hd => ?_⟩
  · by_cases hba : b = a
    · subst hba
      simp [Store.put] at hd
    · simp only [Store.put, Function.update_of_ne hba] at hd ⊢
      exact h.kept b hb hd
  · by_cases hba : b = a
    · subst hba
      exact ha hb
    · simp only [Store.put, Function.update_of_ne hba] at hd
      exact h.logged b hb hd

omit [DecidableEq A] in
theorem Covered.fill (h : Covered p s) {f : ∀ a, Option (V a)} (hf : ∀ a, (f a).isSome → Alive p a → s.saved a ≠ none) :
    Covered p (s.fill f) := by
  refine ⟨h.live, h.new, h.saved, fun a ha hd => ?_, fun a ha hd => ?_⟩
  · obtain ⟨hnone, hd⟩ : (f a).isSome = false ∧ s.dirty a = false := by simpa [Store.fill] using hd
    rw [Option.isSome_eq_false_iff, Option.isNone_iff_eq_none] at hnone
    simp only [Store.fill, hnone, Option.getD_none]
    exact h.kept a ha hd
  · rcases Bool.or_eq_true_iff.mp hd with hsome | hd
    · exact hf a hsome ha
    · exact h.logged a ha hd

omit [DecidableEq A] in
/-- A cell of a new object need not be saved. -/
theorem Covered.fresh (h : Covered p s) (ho : Cells.owner a = some o) (hf : o ∈ s.fresh) : ¬ Alive p a :=
  fun ha => h.new o hf (ha o ho)

end

/-! ## Commands -/

abbrev Code {A : Type} (V : A → Type) (α : Type) := Cmd Ask (Store V) α

/-- `TX_BEGIN`. -/
def txBegin : Code V Unit := .step Store.begin

/-- `TX_END`. -/
def txEnd : Code V Unit := .step Store.finish

/-- The transaction is aborted: nothing of it is left. -/
def txAbort : Code V Unit := .step Store.undo

/-- `pmemobj_tx_add_range_direct`. -/
def txAdd (range : List A) : Code V Unit := .step (·.add range)

def store (a : A) (v : V a) : Code V Unit := .step (·.put a v)

/-- `memset` or `memcpy` over several cells. -/
def storeRange (f : ∀ a, Option (V a)) : Code V Unit := .step (·.fill f)

def load (a : A) : Code V (V a) := .get (·.mem a)

/-- `pmemobj_tx_alloc`; `none` if there is no memory. -/
def txAlloc : Code V (Option Nat) := do
  if ← .succeeds .alloc then .ask .object fun n => .stepGet fun s => (some (pick s.live n), s.alloc (pick s.live n))
  else pure none

/-- The object is used through its address; an object that is not live must not be. -/
def direct (o : Nat) : Code V Unit := do
  let live ← .get Store.live
  .check (o ∈ live)

/-- `pmemobj_tx_free`. -/
def txFree (o : Nat) : Code V Unit := do
  direct o
  .step (·.free o)

section Rules
variable [Cells A] {G : Ask → Nat → Prop} {I : Store V → Prop} {p s : Store V}

/-- Nothing comes between the steps of a process, and every crash finds `I`. -/
abbrev twp {α : Type} (G : Ask → Nat → Prop) (I : Store V → Prop) (c : Code V α) (Q : α → Store V → Prop) (s : Store V) :
    Prop := Cmd.wp (fun s t => s = t) G I c Q s

omit [DecidableEq A] [Cells A] in
theorem wp_step {f : Store V → Store V} {Q : Unit → Store V → Prop} (hI : I s) (hQ : Q () (f s)) :
    twp G I (.step f) Q s := by
  apply Cmd.wp_step
  rintro t rfl
  exact ⟨hI, hQ⟩

/-- A crash of the transaction that has started from `p` leaves `p`. -/
def Undone (p s : Store V) : Prop := ∀ t, Recovers s t → Same p t

omit [DecidableEq A] in
theorem Covered.undone (h : Covered p s) : Undone p s := fun _ hr => h.recovers hr

omit [DecidableEq A] in
theorem wp_txBegin {Q : Unit → Store V → Prop} (h : Covered p s) (hQ : Covered p s.begin → Q () s.begin) :
    twp G (Undone p) txBegin Q s := wp_step h.undone (hQ h.begin)

omit [DecidableEq A] in
theorem wp_txEnd {Q : Unit → Store V → Prop} (h : Covered p s) (hQ : Q () s.finish) : twp G (Undone p) txEnd Q s :=
  wp_step h.undone hQ

omit [DecidableEq A] in
theorem wp_txAbort {Q : Unit → Store V → Prop} (h : Covered p s) (hQ : Same p s.undo → s.undo.Idle → Q () s.undo) :
    twp G (Undone p) txAbort Q s := wp_step h.undone (hQ h.undo (Store.idle_closed _ _))

theorem wp_txAdd {range : List A} {Q : Unit → Store V → Prop} (h : Covered p s)
    (hQ : Covered p (s.add range) → Q () (s.add range)) : twp G (Undone p) (txAdd range) Q s :=
  wp_step h.undone (hQ (h.add range))

theorem wp_store {a : A} {v : V a} {Q : Unit → Store V → Prop} (h : Covered p s) (ha : Alive p a → s.saved a ≠ none)
    (hQ : Covered p (s.put a v) → Q () (s.put a v)) : twp G (Undone p) (store a v) Q s :=
  wp_step h.undone (hQ (h.put ha))

omit [DecidableEq A] in
theorem wp_storeRange {f : ∀ a, Option (V a)} {Q : Unit → Store V → Prop} (h : Covered p s)
    (hf : ∀ a, (f a).isSome → Alive p a → s.saved a ≠ none) (hQ : Covered p (s.fill f) → Q () (s.fill f)) :
    twp G (Undone p) (storeRange f) Q s := wp_step h.undone (hQ (h.fill hf))

omit [DecidableEq A] in
theorem wp_txAlloc {Q : Option Nat → Store V → Prop} (h : Covered p s) (hnone : (∃ n, G .alloc n ∧ n ≠ 0) → Q none s)
    (hsome : ∀ o, o ∉ s.live → o ≠ 0 → Covered p (s.alloc o) → Q (some o) (s.alloc o)) : twp G (Undone p) txAlloc Q s := by
  unfold txAlloc
  rw [twp, Cmd.wp_bind, Cmd.wp_succeeds]
  intro n hn
  rw [Cmd.wp_ite]
  constructor
  · intro _ m _
    apply Cmd.wp_stepGet
    rintro t rfl
    exact ⟨h.undone, hsome _ (pick_notMem s.live m) (pick_ne_zero s.live m) (h.alloc (pick_notMem s.live m))⟩
  · intro hne
    exact hnone ⟨n, hn, by simpa using hne⟩

omit [DecidableEq A] [Cells A] in
@[simp] theorem wp_load {a : A} {Q : V a → Store V → Prop} : twp G I (load a) Q s ↔ Q (s.mem a) s := Iff.rfl

omit [DecidableEq A] [Cells A] in
@[simp] theorem wp_direct {o : Nat} {Q : Unit → Store V → Prop} : twp G I (direct o) Q s ↔ o ∈ s.live ∧ Q () s := by
  simp [direct, twp]

omit [DecidableEq A] in
theorem wp_txFree {o : Nat} {Q : Unit → Store V → Prop} (h : Covered p s) (ho : o ∈ s.live)
    (hQ : Covered p (s.free o) → Q () (s.free o)) : twp G (Undone p) (txFree o) Q s := by
  have hfree : twp G (Undone p) (.step (·.free o)) Q s := wp_step h.undone (hQ (h.free o))
  exact (Cmd.wp_bind _ _ _ _).mpr (wp_direct.mpr ⟨ho, hfree⟩)

end Rules

omit [DecidableEq A] in
/-- An abort right after the start changes nothing. -/
theorem Store.Idle.begin_undo {s : Store V} (h : s.Idle) : s.begin.undo = s := by
  obtain ⟨mem, live, depth, saved, dirty, fresh, freed⟩ := s
  obtain ⟨rfl, rfl, rfl, rfl, rfl⟩ := h
  simp [Store.begin, Store.undo, Store.closed]

section Runs
variable {R : Store V → Store V → Prop} {G : Ask → Nat → Prop} {s : Store V} {o : Nat}

omit [DecidableEq A] in
theorem run_direct (h : o ∈ s.live) : Cmd.Run R G (direct o) s () s := (Cmd.run_get _ s).bind (Cmd.run_check h s)

omit [DecidableEq A] in
theorem aborts_direct (h : o ∉ s.live) : Cmd.Aborts R G (direct o) s :=
  .bind_right (Cmd.run_get _ s) (Cmd.aborts_check h s)

omit [DecidableEq A] in
theorem run_direct_iff {t : Store V} : Cmd.Run R G (direct o) s () t ↔ o ∈ s.live ∧ t = s := by
  unfold direct
  constructor
  · intro h
    obtain ⟨_, _, hget, h⟩ := Cmd.run_bind h
    obtain ⟨rfl, rfl⟩ := Cmd.run_get_iff.mp hget
    exact Cmd.run_check_iff.mp h
  · rintro ⟨ho, rfl⟩
    exact run_direct ho

end Runs

/-! No operation is ever blocked. -/

omit [DecidableEq A] in
theorem total_direct (o : Nat) : (direct o : Code V Unit).Total :=
  Cmd.total_bind (Cmd.total_get _) fun _ => Cmd.total_check _

omit [DecidableEq A] in
theorem total_txFree (o : Nat) : (txFree o : Code V Unit).Total :=
  Cmd.total_bind (total_direct o) fun _ => Cmd.total_step _

omit [DecidableEq A] in
theorem total_txAlloc : (txAlloc : Code V (Option Nat)).Total :=
  Cmd.total_bind (Cmd.total_succeeds _) fun _ =>
    Cmd.total_ite (fun _ => Cmd.total_stepGet _) (Cmd.total_pure _)

omit [DecidableEq A] in
theorem total_load (a : A) : (load a : Code V (V a)).Total := Cmd.total_get _

end PmemProgram.Lib.Tx
