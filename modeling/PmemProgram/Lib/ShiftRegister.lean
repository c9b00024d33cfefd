import Mathlib

/-!
# The shift register of a cyclic code

A register of `w` bits is divided by a polynomial, one message bit at a time. `shift` moves it up and `shiftDown` is its
mirror image (`reverse_shift`). The register is linear in the message (`feed_xor`), and with an odd polynomial no step loses
anything (`shift_injective`); so a message that is zero outside of `w` consecutive bits leaves it nonzero
(`feed_burst_ne_zero`).
-/

namespace PmemProgram.Lib.ShiftRegister

variable {w : Nat} {poly : BitVec w}

/-- The register moves up; what leaves it at the top is taken off with the polynomial. -/
def shift (poly c : BitVec w) : BitVec w := if c.msb then (c <<< 1) ^^^ poly else c <<< 1

/-- The register moves down. -/
def shiftDown (poly c : BitVec w) : BitVec w := if c.getLsbD 0 then (c >>> 1) ^^^ poly else c >>> 1

theorem shift_zero : shift poly 0#w = 0#w := by
  simp [shift]

theorem shift_xor (c d : BitVec w) : shift poly (c ^^^ d) = shift poly c ^^^ shift poly d := by
  unfold shift
  rw [BitVec.msb_xor, BitVec.shiftLeft_xor_distrib]
  cases c.msb <;> cases d.msb
  · rfl
  · exact BitVec.xor_assoc ..
  · show (c <<< 1 ^^^ d <<< 1) ^^^ poly = (c <<< 1 ^^^ poly) ^^^ d <<< 1
    ac_rfl
  · show c <<< 1 ^^^ d <<< 1 = (c <<< 1 ^^^ poly) ^^^ (d <<< 1 ^^^ poly)
    rw [BitVec.xor_assoc, BitVec.xor_comm poly, BitVec.xor_assoc (d <<< 1), BitVec.xor_self, BitVec.xor_zero]

/-- With an odd polynomial the bit that leaves at the top is the lowest of the new register. -/
theorem shift_low (hp : poly.getLsbD 0 = true) (c : BitVec w) : (shift poly c).getLsbD 0 = c.msb := by
  unfold shift
  split_ifs with h
  · rw [BitVec.getLsbD_xor, BitVec.getLsbD_shiftLeft, hp, h]
    simp
  · rw [BitVec.getLsbD_shiftLeft, Bool.eq_false_of_not_eq_true h]
    simp

theorem shiftLeft_one_eq_zero {c : BitVec w} (h : c <<< 1 = 0#w) (hmsb : c.msb = false) : c = 0#w := by
  apply BitVec.eq_of_getLsbD_eq
  intro i hi
  rw [BitVec.getLsbD_zero]
  by_cases hlast : i = w - 1
  · rw [hlast, ← BitVec.msb_eq_getLsbD_last, hmsb]
  · have hget := congrArg (fun x : BitVec w => x.getLsbD (i + 1)) h
    simpa [show i + 1 < w by omega, BitVec.getLsbD_eq_getElem hi] using hget

theorem shift_eq_zero (hp : poly.getLsbD 0 = true) {c : BitVec w} (h : shift poly c = 0#w) : c = 0#w := by
  have hmsb : c.msb = false := by
    rw [← shift_low hp c, h, BitVec.getLsbD_zero]
  apply shiftLeft_one_eq_zero _ hmsb
  unfold shift at h
  rw [hmsb] at h
  exact h

theorem shift_injective (hp : poly.getLsbD 0 = true) : Function.Injective (shift poly) := by
  intro c d h
  apply BitVec.xor_eq_zero_iff.mp
  apply shift_eq_zero hp
  rw [shift_xor, h, BitVec.xor_self]

/-! ## The mirror image -/

theorem reverse_xor (c d : BitVec w) : (c ^^^ d).reverse = c.reverse ^^^ d.reverse := by
  apply BitVec.eq_of_getLsbD_eq
  intro i _
  rw [BitVec.getLsbD_xor, BitVec.getLsbD_reverse, BitVec.getLsbD_reverse, BitVec.getLsbD_reverse, BitVec.getMsbD_xor]

theorem reverse_shiftLeft (c : BitVec w) (k : Nat) : (c <<< k).reverse = c.reverse >>> k := by
  apply BitVec.eq_of_getLsbD_eq
  intro i _
  rw [BitVec.getLsbD_ushiftRight, BitVec.getLsbD_reverse, BitVec.getLsbD_reverse, BitVec.getMsbD_shiftLeft, Nat.add_comm]

/-- Moving up is moving down in the mirror. -/
theorem reverse_shift (c : BitVec w) : (shift poly c).reverse = shiftDown poly.reverse c.reverse := by
  unfold shift shiftDown
  rw [BitVec.getLsbD_reverse, show c.getMsbD 0 = c.msb from rfl]
  split_ifs
  · rw [reverse_xor, reverse_shiftLeft]
  · rw [reverse_shiftLeft]

/-! ## Messages -/

/-- The top bit. -/
def top (bit : Bool) : BitVec w := if bit then BitVec.twoPow w (w - 1) else 0#w

theorem top_xor (a b : Bool) : (top (a ^^ b) : BitVec w) = top a ^^^ top b := by
  cases a <;> cases b <;> simp [top]

/-- The message bits one after the other. -/
def feed (poly : BitVec w) (c : BitVec w) (bits : List Bool) : BitVec w :=
  bits.foldl (fun c bit => shift poly (c ^^^ top bit)) c

@[simp] theorem feed_nil (c : BitVec w) : feed poly c [] = c := rfl

@[simp] theorem feed_cons (c : BitVec w) (bit : Bool) (bits : List Bool) :
    feed poly c (bit :: bits) = feed poly (shift poly (c ^^^ top bit)) bits := rfl

theorem feed_append (c : BitVec w) (bits more : List Bool) :
    feed poly c (bits ++ more) = feed poly (feed poly c bits) more := List.foldl_append ..

/-- Registers and messages add up. -/
theorem feed_xor (c d : BitVec w) {bits more : List Bool} (h : bits.length = more.length) :
    feed poly (c ^^^ d) (List.zipWith xor bits more) = feed poly c bits ^^^ feed poly d more := by
  induction bits generalizing c d more with
  | nil =>
    cases more with
    | nil => rfl
    | cons b more => cases h
  | cons a bits ih =>
    cases more with
    | nil => cases h
    | cons b more =>
      have hstep : shift poly (c ^^^ d ^^^ top (a ^^ b)) = shift poly (c ^^^ top a) ^^^ shift poly (d ^^^ top b) := by
        rw [← shift_xor, top_xor]
        congr 1
        ac_rfl
      rw [List.zipWith_cons_cons, feed_cons, feed_cons, feed_cons, hstep]
      exact ih _ _ (Nat.succ.inj h)

theorem feed_injective (hp : poly.getLsbD 0 = true) (bits : List Bool) :
    Function.Injective fun c => feed poly c bits := by
  induction bits with
  | nil => exact Function.injective_id
  | cons b bits ih =>
    intro c d h
    exact (BitVec.xor_left_inj _).mp (shift_injective hp (ih h))

theorem feed_zeros (n : Nat) : feed poly 0#w (List.replicate n false) = 0#w := by
  induction n with
  | zero => rfl
  | succ n ih =>
    rw [List.replicate_succ, feed_cons, show 0#w ^^^ top false = 0#w by simp [top], shift_zero]
    exact ih

/-! ## Short messages -/

/-- The bits of a message from the top down. -/
def pack : List Bool → BitVec w
  | [] => 0#w
  | bit :: bits => top bit ^^^ (pack bits >>> 1)

theorem getMsbD_top (bit : Bool) (i : Nat) : (top bit : BitVec w).getMsbD i = (decide (i = 0 ∧ 0 < w) && bit) := by
  cases bit with
  | false => simp [top]
  | true =>
    rw [BitVec.getMsbD_eq_getLsbD, top, if_pos rfl, BitVec.getLsbD_twoPow]
    by_cases hi : i = 0
    · by_cases hw : 0 < w <;> simp [hi, hw]
    · by_cases hw : i < w <;> simp [hi, hw]
      omega

theorem getMsbD_pack (bits : List Bool) (i : Nat) :
    (pack bits : BitVec w).getMsbD i = (decide (i < w) && bits[i]?.getD false) := by
  induction bits generalizing i with
  | nil => simp [pack]
  | cons b bits ih =>
    rw [pack, BitVec.getMsbD_xor, getMsbD_top, BitVec.getMsbD_ushiftRight, ih]
    cases i with
    | zero => simp
    | succ i =>
      by_cases hi : i + 1 < w
      · simp [hi, show i < w by omega]
      · simp [hi]

/-- A message that fits into the register can be added to it at once. -/
theorem feed_eq_pack (c : BitVec w) {bits : List Bool} (h : bits.length ≤ w) :
    feed poly c bits = Nat.iterate (shift poly) bits.length (c ^^^ pack bits) := by
  induction bits generalizing c with
  | nil => simp [pack]
  | cons b bits ih =>
    rw [List.length_cons] at h
    -- the rest of the message moves up with the register and loses nothing
    have hrest : shift poly (pack bits >>> 1) = pack bits := by
      have hmsb : (pack bits >>> 1 : BitVec w).msb = false := by
        simp [BitVec.msb_ushiftRight]
      rw [shift, hmsb, if_neg Bool.false_ne_true]
      apply BitVec.eq_of_getMsbD_eq
      intro i hi
      rw [BitVec.getMsbD_shiftLeft, BitVec.getMsbD_ushiftRight, getMsbD_pack, getMsbD_pack]
      by_cases hi' : i + 1 < w
      · simp [hi', show i < w by omega]
      · simp [hi', List.getElem?_eq_none (show bits.length ≤ i by omega)]
    rw [feed_cons, ih _ (by omega), List.length_cons, Function.iterate_succ_apply, pack, ← BitVec.xor_assoc,
      shift_xor (c ^^^ top b), hrest]

theorem pack_ne_zero {bits : List Bool} (h : bits.length ≤ w) (hbit : true ∈ bits) : pack bits ≠ 0#w := by
  obtain ⟨i, hi, hget⟩ := List.getElem_of_mem hbit
  intro hzero
  have hmsb := getMsbD_pack (w := w) bits i
  rw [hzero, List.getElem?_eq_getElem hi, hget] at hmsb
  simp [show i < w by omega] at hmsb

theorem iterate_shift_ne_zero (hp : poly.getLsbD 0 = true) {c : BitVec w} (hc : c ≠ 0#w) (n : Nat) :
    Nat.iterate (shift poly) n c ≠ 0#w := by
  induction n with
  | zero => exact hc
  | succ n ih =>
    rw [Function.iterate_succ_apply']
    exact fun h => ih (shift_eq_zero hp h)

/-- **Bursts.** A message that is zero outside of `w` consecutive bits and not zero leaves the register nonzero. -/
theorem feed_burst_ne_zero (hp : poly.getLsbD 0 = true) {bits : List Bool} (hbit : true ∈ bits) {p : Nat}
    (hwindow : ∀ i, bits[i]? = some true → p ≤ i ∧ i < p + w) : feed poly 0#w bits ≠ 0#w := by
  have hbefore : bits.take p = List.replicate (bits.take p).length false := by
    apply List.eq_replicate_of_mem
    intro b hb
    obtain ⟨i, hi, rfl⟩ := List.getElem_of_mem hb
    rw [List.length_take] at hi
    by_contra htrue
    have hget : bits[i]? = some true := by
      rw [List.getElem?_eq_getElem (by omega), ← List.getElem_take (h := by rw [List.length_take]; omega)]
      simpa using htrue
    have := (hwindow i hget).1
    omega
  have hafter : (bits.drop p).drop w = List.replicate ((bits.drop p).drop w).length false := by
    apply List.eq_replicate_of_mem
    intro b hb
    obtain ⟨i, hi, rfl⟩ := List.getElem_of_mem hb
    by_contra htrue
    have hget : bits[p + (w + i)]? = some true := by
      rw [← List.getElem?_drop, ← List.getElem?_drop, List.getElem?_eq_getElem hi]
      simpa using htrue
    have := (hwindow _ hget).2
    omega
  have hsplit : bits = bits.take p ++ ((bits.drop p).take w ++ (bits.drop p).drop w) := by
    rw [List.take_append_drop, List.take_append_drop]
  have hburst : true ∈ (bits.drop p).take w := by
    rw [hsplit, hbefore, hafter] at hbit
    simpa using hbit
  have hlen : ((bits.drop p).take w).length ≤ w := List.length_take_le _ _
  rw [hsplit, feed_append, feed_append, hbefore, feed_zeros, hafter]
  intro hzero
  have hfeed := feed_injective hp _ (hzero.trans (feed_zeros _).symm)
  rw [feed_eq_pack _ hlen, BitVec.zero_xor] at hfeed
  exact iterate_shift_ne_zero hp (pack_ne_zero hlen hburst) _ hfeed

end PmemProgram.Lib.ShiftRegister
