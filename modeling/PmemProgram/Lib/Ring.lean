import Mathlib

/-!
# A ring of cells in a flat memory

* `slice data pos n` : `n` consecutive cells; `cells data cap start n` : `n` cells around a ring of `cap` cells;
* `put data pos d m` : the cells after the part `m` of a copy of `d` to `pos`;
* `slices_eq_cells` : the contents of a ring are one or two slices;
* `cells_put_append` : a copy behind the last cell, in one or two parts, appends to the contents;
  `cells_put_other` : however much of it was performed, it changes nothing before that.
-/

namespace PmemProgram.Lib.Ring

variable {β : Type} {data : Nat → β} {cap start n : Nat}

def slice (data : Nat → β) (pos n : Nat) : List β := (List.range n).map fun i => data (pos + i)

/-- The contents of the ring: `n` cells from `start` on. -/
def cells (data : Nat → β) (cap start n : Nat) : List β := (List.range n).map fun i => data ((start + i) % cap)

/-- The cells after the part `m` of a copy of `d` to `pos`. -/
def put (data : Nat → β) (pos : Nat) (d : List β) (m : Nat → Bool) : Nat → β := fun j =>
  if h : pos ≤ j ∧ j - pos < d.length then (if m (j - pos) then d.get ⟨j - pos, h.2⟩ else data j) else data j

@[simp] theorem length_slice (pos : Nat) : (slice data pos n).length = n := by simp [slice]

@[simp] theorem length_cells : (cells data cap start n).length = n := by simp [cells]

@[simp] theorem cells_zero : cells data cap start 0 = [] := rfl

@[simp] theorem slice_zero (pos : Nat) : slice data pos 0 = [] := rfl

@[simp] theorem put_nil (pos : Nat) (m : Nat → Bool) : put data pos [] m = data := by
  funext j
  simp [put]

theorem put_outside {pos j : Nat} {d : List β} (m : Nat → Bool) (h : j < pos ∨ pos + d.length ≤ j) :
    put data pos d m j = data j := by
  unfold put
  rw [dif_neg]
  omega

theorem put_inside {pos i : Nat} {d : List β} (h : i < d.length) :
    put data pos d (fun _ => true) (pos + i) = d.get ⟨i, h⟩ := by
  unfold put
  have hi : pos ≤ pos + i ∧ pos + i - pos < d.length := by omega
  rw [dif_pos hi]
  simp

theorem cells_congr {data' : Nat → β} (h : ∀ i < n, data ((start + i) % cap) = data' ((start + i) % cap)) :
    cells data cap start n = cells data' cap start n := by
  unfold cells
  apply List.map_congr_left
  intro i hi
  exact h i (List.mem_range.mp hi)

theorem cells_add (a b : Nat) :
    cells data cap start (a + b) = cells data cap start a ++ cells data cap (start + a) b := by
  unfold cells
  rw [List.range_add, List.map_append, List.map_map]
  congr 1
  apply List.map_congr_left
  intro i _
  simp [Nat.add_assoc]

@[simp] theorem cells_mod : cells data cap (start % cap) n = cells data cap start n := by
  unfold cells
  simp [Nat.mod_add_mod]

theorem drop_cells {a : Nat} (h : a ≤ n) :
    (cells data cap start n).drop a = cells data cap (start + a) (n - a) := by
  obtain ⟨b, rfl⟩ := Nat.exists_eq_add_of_le h
  rw [cells_add, List.drop_left' length_cells]
  congr 1
  omega

theorem slice_eq_cells (h : start + n ≤ cap) : slice data start n = cells data cap start n := by
  unfold slice cells
  apply List.map_congr_left
  intro i hi
  rw [Nat.mod_eq_of_lt]
  have := List.mem_range.mp hi
  omega

/-- The contents of a ring that wraps are two slices. -/
theorem slices_eq_cells (hs : start < cap) (hn : n ≤ cap) (h : cap < start + n) :
    slice data start (cap - start) ++ slice data 0 (n - (cap - start)) = cells data cap start n := by
  obtain ⟨b, rfl⟩ := Nat.exists_eq_add_of_le (show cap - start ≤ n by omega)
  rw [cells_add, @slice_eq_cells β data cap _ _ (by omega), ← @cells_mod _ _ _ (start + (cap - start)),
    show start + (cap - start) = cap by omega, Nat.mod_self, @slice_eq_cells β data cap _ _ (by omega)]
  congr 1
  rw [Nat.add_sub_cancel_left]

/-! ## Copies behind the last cell -/

/-- The cell behind the last one. -/
theorem ring_end (hs : start < cap) (hn : n ≤ cap) :
    (start + n) % cap = if cap ≤ start + n then start + n - cap else start + n := by
  split_ifs with h
  · rw [Nat.mod_eq_sub_mod h, Nat.mod_eq_of_lt (by omega)]
  · exact Nat.mod_eq_of_lt (by omega)

theorem cells_put_other {pos : Nat} {d : List β} (m : Nat → Bool)
    (h : ∀ i < n, (start + i) % cap < pos ∨ pos + d.length ≤ (start + i) % cap) :
    cells (put data pos d m) cap start n = cells data cap start n := by
  apply cells_congr
  intro i hi
  exact put_outside m (h i hi)

/-- A copy behind the last cell, performed in part, leaves the contents alone. -/
theorem cells_put_end {d : List β} (m : Nat → Bool) (hs : start < cap) (hn : n + d.length ≤ cap) :
    cells (put data ((start + n) % cap) d m) cap start n = cells data cap start n := by
  apply cells_put_other
  intro i hi
  rw [ring_end hs (show i ≤ cap by omega), ring_end hs (show n ≤ cap by omega)] at *
  split_ifs at * <;> omega

/-- A copy that does not wrap appends to the contents. -/
theorem cells_put_append {d : List β} (hs : start < cap) (hn : n + d.length ≤ cap)
    (he : (start + n) % cap + d.length ≤ cap) :
    cells (put data ((start + n) % cap) d fun _ => true) cap start (n + d.length) = cells data cap start n ++ d := by
  rw [cells_add, cells_put_end _ hs hn]
  congr 1
  apply List.ext_get
  · simp
  · intro i h₁ h₂
    have hi : i < d.length := h₂
    simp only [cells, List.get_eq_getElem, List.getElem_map, List.getElem_range]
    rw [← Nat.mod_add_mod (start + n), Nat.mod_eq_of_lt (show (start + n) % cap + i < cap by omega), put_inside hi]
    rfl

end PmemProgram.Lib.Ring
