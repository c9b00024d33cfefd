import Mathlib

/-!
# Hashing block by block

A hash of this kind takes its message in blocks of `n` elements and keeps what does not fill a block. It does not matter how
the message is cut: a part of it that is absorbed first is absorbed as a beginning of the whole.

* `absorb` : the state after the whole blocks of a message, and what is left of it;
* `absorb_append` : a message in two parts;
* `absorb_rest` : the rest is the end of the message behind its last whole block.
-/

namespace PmemProgram.Lib.BlockHash

section
variable {α σ : Type} {n : Nat} (f : σ → (Fin n → α) → σ)

/-- The first block of a list. -/
def block (l : List α) (h : n ≤ l.length) : Fin n → α := fun k => l[k]

/-- The state after all whole blocks, and what is left. -/
def absorb (s : σ) (l : List α) : σ × List α :=
  if h : 0 < n ∧ n ≤ l.length then absorb (f s (block l h.2)) (l.drop n) else (s, l)
termination_by l.length
decreasing_by
  rw [List.length_drop]
  omega

variable {f}

theorem absorb_short {s : σ} {l : List α} (h : l.length < n) : absorb f s l = (s, l) := by
  rw [absorb, dif_neg fun h' => absurd h'.2 (by omega)]

theorem absorb_long {s : σ} {l : List α} (hn : 0 < n) (h : n ≤ l.length) :
    absorb f s l = absorb f (f s (block l h)) (l.drop n) := by
  rw [absorb, dif_pos ⟨hn, h⟩]

theorem block_append {l m : List α} (h : n ≤ l.length) :
    block (l ++ m) (h.trans (by rw [List.length_append]; omega)) = block l h := by
  funext k
  exact List.getElem_append_left _

/-- **Absorption in parts.** What is absorbed after a first part is what the first part left, and the second part. -/
theorem absorb_append (hn : 0 < n) (s : σ) (l m : List α) :
    absorb f s (l ++ m) = absorb f (absorb f s l).1 ((absorb f s l).2 ++ m) := by
  induction s, l using absorb.induct f with
  | case1 s l h ih =>
    have hlong : n ≤ (l ++ m).length := h.2.trans (by rw [List.length_append]; omega)
    rw [absorb_long hn h.2, absorb_long hn hlong, block_append h.2, List.drop_append_of_le_length h.2]
    exact ih
  | case2 s l h => rw [absorb_short (s := s) (l := l) (by omega)]

/-- The rest of a message is its end behind the whole blocks. -/
theorem absorb_rest (hn : 0 < n) (s : σ) (l : List α) : (absorb f s l).2 = l.drop (l.length / n * n) := by
  induction s, l using absorb.induct f with
  | case1 s l h ih =>
    rw [absorb_long hn h.2, ih, List.drop_drop, List.length_drop, Nat.div_eq_sub_div hn h.2, Nat.add_mul, Nat.one_mul,
      Nat.add_comm]
  | case2 s l h => rw [absorb_short (by omega), Nat.div_eq_of_lt (by omega), Nat.zero_mul, List.drop_zero]

theorem length_absorb (hn : 0 < n) (s : σ) (l : List α) : (absorb f s l).2.length = l.length % n := by
  rw [absorb_rest hn, List.length_drop]
  have := Nat.div_add_mod' l.length n
  omega

end

end PmemProgram.Lib.BlockHash
