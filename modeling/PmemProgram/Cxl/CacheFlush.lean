import Mathlib

/-!
# The flush loops (`rw_info.c`)

`__cflush` flushes all lines but the last in its loop and the last one behind the fence, at the address where the loop
stopped; `__cflushopt` flushes all of them in its loop. The loop variable is a `long int`, and it is compared as an
unsigned number, because `len` is a `size_t`.

* `flushLoop`, `cflush`, `cflushopt` : the loops, which may not come to an end;
* `flushLoop_eq` : the addresses from an aligned one up to a bound;
* `flushes_range` : both flush the lines of the range and no others.
-/

namespace PmemProgram.Cxl

/-- A 64-bit address, a `long int` in the source. -/
abbrev Address := BitVec 64

/-- `FLUSH_ALIGN`. -/
def flushAlign : Address := 64

/-- The loop of `__cflush` and `__cflushopt`: the addresses flushed, and `uptr` at the end; `none` without fuel. -/
def flushLoop (bound : Address) : Nat → Address → Option (List Address × Address)
  | 0, _ => none
  | fuel + 1, uptr =>
    if uptr < bound then (flushLoop bound fuel (uptr + flushAlign)).map fun r => (uptr :: r.1, r.2)
    else some ([], uptr)

/-- `__cflush`: the addresses flushed before the fence, and the one behind it. -/
def cflush (fuel : Nat) (addr len : Address) : Option (List Address × Address) :=
  flushLoop (addr + len - 64) fuel (addr &&& ~~~ (flushAlign - 1))

/-- `__cflushopt`. -/
def cflushopt (fuel : Nat) (addr len : Address) : Option (List Address) :=
  (flushLoop (addr + len) fuel (addr &&& ~~~ (flushAlign - 1))).map Prod.fst

/-! ## Lines -/

/-- The cache line of an address, which `_mm_clflushopt` flushes. -/
def line (p : Address) : Nat := p.toNat / 64

/-- The lines of a list of addresses. -/
def lines (ps : List Address) : Set Nat := {l | ∃ p ∈ ps, line p = l}

/-- The lines that intersect the bytes from `addr` on. -/
def touched (addr len : Nat) : Set Nat := {l | ∃ a, addr ≤ a ∧ a < addr + len ∧ a / 64 = l}

theorem mem_touched {addr len : Nat} (hlen : 1 ≤ len) (l : Nat) :
    l ∈ touched addr len ↔ addr / 64 ≤ l ∧ l ≤ (addr + len - 1) / 64 := by
  constructor
  · intro h
    obtain ⟨a, hle, hlt, rfl⟩ := h
    exact ⟨Nat.div_le_div_right hle, Nat.div_le_div_right (by omega)⟩
  · intro h
    by_cases hl : addr / 64 = l
    · exact ⟨addr, le_rfl, by omega, hl⟩
    · exact ⟨64 * l, by omega, by omega, by omega⟩

/-- The first address of a line. -/
def lineStart (l : Nat) : Address := BitVec.ofNat 64 (64 * l)

theorem toNat_lineStart {l : Nat} (h : 64 * l < 2 ^ 64) : (lineStart l).toNat = 64 * l := by
  rw [lineStart, BitVec.toNat_ofNat, Nat.mod_eq_of_lt h]

theorem lineStart_succ (l : Nat) : lineStart l + flushAlign = lineStart (l + 1) := by
  apply BitVec.eq_of_toNat_eq
  simp only [lineStart, flushAlign, BitVec.toNat_add, BitVec.toNat_ofNat, show (64 : Address).toNat = 64 from rfl]
  omega

/-- `addr & ~(FLUSH_ALIGN - 1)` is the first address of the line. -/
theorem and_not_flushAlign (addr : Address) : addr &&& ~~~ (flushAlign - 1) = lineStart (addr.toNat / 64) := by
  have hmask : ~~~ (flushAlign - 1) = BitVec.allOnes 58 ++ 0#6 := by decide
  apply BitVec.eq_of_getLsbD_eq
  intro i hi
  have hstart : (lineStart (addr.toNat / 64)).getLsbD i = (2 ^ 6 * (addr.toNat / 2 ^ 6) + 0).testBit i := by
    rw [lineStart, BitVec.getLsbD_ofNat]
    simp [hi]
  rw [hmask, BitVec.getLsbD_and, BitVec.getLsbD_append, hstart, Nat.testBit_two_pow_mul_add _ (by omega)]
  by_cases hlow : i < 6
  · simp [hlow]
  · simp only [hlow, if_false, BitVec.getLsbD_allOnes, Nat.testBit_div_two_pow, show i - 6 < 58 by omega,
      show i - 6 + 6 = i by omega, decide_true, Bool.and_true]
    rfl

/-- **The loop** from the start of line `first` flushes the lines below the bound, and stops behind them. -/
theorem flushLoop_eq {b : Address} (hbound : b.toNat + 64 < 2 ^ 64) (fuel first : Nat)
    (hfirst : 64 * first ≤ b.toNat + 63) (hfuel : (b.toNat + 63) / 64 - first < fuel) :
    flushLoop b fuel (lineStart first) =
      some ((List.range' first ((b.toNat + 63) / 64 - first)).map lineStart, lineStart ((b.toNat + 63) / 64)) := by
  induction fuel generalizing first with
  | zero => omega
  | succ fuel ih =>
    have hstart : (lineStart first).toNat = 64 * first := toNat_lineStart (by omega)
    rw [flushLoop]
    by_cases hlt : 64 * first < b.toNat
    · have hcount : (b.toNat + 63) / 64 - first = ((b.toNat + 63) / 64 - (first + 1)) + 1 := by omega
      rw [if_pos (by rw [BitVec.lt_def, hstart]; exact hlt), lineStart_succ, ih (first + 1) (by omega) (by omega), hcount,
        List.range'_succ]
      rfl
    · have hlast : (b.toNat + 63) / 64 = first := by omega
      rw [if_neg (by rw [BitVec.lt_def, hstart]; exact hlt), hlast, Nat.sub_self]
      rfl

theorem mem_lines_range {m n : Nat} (h : 64 * (m + n) ≤ 2 ^ 64) (l : Nat) :
    l ∈ lines ((List.range' m n).map lineStart) ↔ m ≤ l ∧ l < m + n := by
  constructor
  · intro hl
    obtain ⟨p, hp, rfl⟩ := hl
    obtain ⟨k, hk, rfl⟩ := List.mem_map.mp hp
    rw [List.mem_range'_1] at hk
    rw [line, toNat_lineStart (by omega), Nat.mul_div_cancel_left _ (by omega)]
    exact hk
  · intro hl
    refine ⟨lineStart l, List.mem_map_of_mem (List.mem_range'_1.mpr hl), ?_⟩
    rw [line, toNat_lineStart (by omega), Nat.mul_div_cancel_left _ (by omega)]

theorem lines_append (ps qs : List Address) : lines (ps ++ qs) = lines ps ∪ lines qs := by
  ext l
  constructor
  · intro h
    obtain ⟨p, hp, hl⟩ := h
    cases List.mem_append.mp hp with
    | inl hps => exact Or.inl ⟨p, hps, hl⟩
    | inr hqs => exact Or.inr ⟨p, hqs, hl⟩
  · intro h
    cases h with
    | inl h =>
      obtain ⟨p, hp, hl⟩ := h
      exact ⟨p, List.mem_append_left _ hp, hl⟩
    | inr h =>
      obtain ⟨p, hp, hl⟩ := h
      exact ⟨p, List.mem_append_right _ hp, hl⟩

/-- **The flushed lines.** Both loops end, both flush the lines that intersect the range and no others, and the one behind
the fence is the last. -/
theorem flushes_range (addr len : Address) (haddr : 64 ≤ addr.toNat) (hlen : 1 ≤ len.toNat)
    (hend : addr.toNat + len.toNat < 2 ^ 63) :
    ∃ enough, ∀ fuel, enough ≤ fuel →
      (∃ before last, cflush fuel addr len = some (before, last) ∧
        lines (before ++ [last]) = touched addr.toNat len.toNat ∧ IsGreatest (touched addr.toNat len.toNat) (line last)) ∧
      ∃ flushed, cflushopt fuel addr len = some flushed ∧ lines flushed = touched addr.toNat len.toNat := by
  have hsum : (addr + len).toNat = addr.toNat + len.toNat := by
    rw [BitVec.toNat_add, Nat.mod_eq_of_lt (by omega)]
  have hsub : (addr + len - 64).toNat = addr.toNat + len.toNat - 64 := by
    rw [BitVec.toNat_sub, hsum, show (64 : Address).toNat = 64 from rfl]
    omega
  -- the last line of the range
  have hlast : (addr + len - 64).toNat + 63 = addr.toNat + len.toNat - 1 := by omega
  have hlastopt : ((addr + len).toNat + 63) / 64 = (addr.toNat + len.toNat - 1) / 64 + 1 := by omega
  refine ⟨(addr.toNat + len.toNat - 1) / 64 + 2, fun fuel hfuel => ⟨?_, ?_⟩⟩
  · have hloop := flushLoop_eq (b := addr + len - 64) (by omega) fuel (addr.toNat / 64) (by omega) (by omega)
    rw [hlast] at hloop
    refine ⟨_, _, by rw [cflush, and_not_flushAlign, hloop], ?_, ?_⟩
    · ext l
      rw [mem_touched hlen, lines_append, Set.mem_union, mem_lines_range (by omega)]
      have hone : l ∈ lines [lineStart ((addr.toNat + len.toNat - 1) / 64)] ↔ l = (addr.toNat + len.toNat - 1) / 64 := by
        have hrange := mem_lines_range (m := (addr.toNat + len.toNat - 1) / 64) (n := 1) (by omega) l
        rw [List.range'_one, List.map_singleton] at hrange
        rw [hrange]
        omega
      rw [hone]
      omega
    · rw [line, toNat_lineStart (by omega), Nat.mul_div_cancel_left _ (by omega)]
      constructor
      · rw [mem_touched hlen]
        omega
      · intro l hl
        exact ((mem_touched hlen l).mp hl).2
  · have hloop := flushLoop_eq (b := addr + len) (by omega) fuel (addr.toNat / 64) (by omega) (by omega)
    rw [hlastopt] at hloop
    refine ⟨_, by rw [cflushopt, and_not_flushAlign, hloop]; rfl, ?_⟩
    ext l
    rw [mem_touched hlen, mem_lines_range (by omega)]
    omega

/-- A range of two bytes on both sides of a line boundary. -/
theorem flushes_range_two :
    ∃ enough, ∀ fuel, enough ≤ fuel →
      (∃ before last, cflush fuel 127 2 = some (before, last) ∧ lines (before ++ [last]) = touched 127 2 ∧
        IsGreatest (touched 127 2) (line last)) ∧
      ∃ flushed, cflushopt fuel 127 2 = some flushed ∧ lines flushed = touched 127 2 :=
  flushes_range 127 2 (by decide) (by decide) (by decide)

/-- They are the lines 1 and 2. -/
example : cflush 3 127 2 = some ([64], 128) := by decide

end PmemProgram.Cxl
