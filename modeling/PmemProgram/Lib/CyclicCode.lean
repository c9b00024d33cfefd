import PmemProgram.Lib.ShiftRegister

/-!
# Cyclic redundancy checks with parameters

* `value` : the check of a message of bytes, with a polynomial, a first register, what is added at the end, and which of
  the bytes and the result are reflected;
* `value_ne_of_burst` : messages that differ within as many consecutive bits as the register has do not have one check;
* `align`, `feed_align` : a register at the upper end of a wider one is fed like it;
* `iterate_highFirst`, `iterate_lowFirst`, `iterate_shiftDown` : the bits of a byte may be added to the register at once,
  at its upper end, and in the mirror at its lower end.
-/

namespace PmemProgram.Lib.CyclicCode
open ShiftRegister

/-- The bits of a byte, the lowest first. -/
def lowFirst (byte : BitVec 8) : List Bool := List.ofFn fun i : Fin 8 => byte.getLsbD i

/-- The bits of a byte, the highest first. -/
def highFirst (byte : BitVec 8) : List Bool := List.ofFn fun i : Fin 8 => byte.getMsbD i

/-- The bits of a message in the order in which they are fed. -/
def bitsOf (refIn : Bool) (buffer : List (BitVec 8)) : List Bool :=
  buffer.flatMap fun byte => if refIn then lowFirst byte else highFirst byte

variable {w W : Nat} {poly init xorOut : BitVec w} {refIn refOut : Bool}

/-- The check of a message. -/
def value (poly init : BitVec w) (refIn refOut : Bool) (xorOut : BitVec w) (buffer : List (BitVec 8)) : BitVec w :=
  (if refOut then (feed poly init (bitsOf refIn buffer)).reverse else feed poly init (bitsOf refIn buffer)) ^^^ xorOut

/-! ## Bits of bytes -/

@[simp] theorem bitsOf_nil : bitsOf refIn [] = [] := rfl

@[simp] theorem bitsOf_cons (byte : BitVec 8) (buffer : List (BitVec 8)) :
    bitsOf refIn (byte :: buffer) = (if refIn then lowFirst byte else highFirst byte) ++ bitsOf refIn buffer := rfl

@[simp] theorem length_lowFirst (byte : BitVec 8) : (lowFirst byte).length = 8 := by simp [lowFirst]

@[simp] theorem length_highFirst (byte : BitVec 8) : (highFirst byte).length = 8 := by simp [highFirst]

theorem lowFirst_get (byte : BitVec 8) (i : Nat) : (lowFirst byte)[i]?.getD false = byte.getLsbD i := by
  unfold lowFirst
  rw [List.getElem?_ofFn]
  split_ifs with h
  · rfl
  · exact (BitVec.getLsbD_of_ge byte i (by omega)).symm

theorem highFirst_get (byte : BitVec 8) (i : Nat) : (highFirst byte)[i]?.getD false = byte.getMsbD i := by
  unfold highFirst
  rw [List.getElem?_ofFn]
  split_ifs with h
  · rfl
  · simp [BitVec.getMsbD_eq_getLsbD, show ¬ i < 8 by omega]

theorem length_bitsOf (buffer : List (BitVec 8)) : (bitsOf refIn buffer).length = 8 * buffer.length := by
  induction buffer with
  | nil => rfl
  | cons byte buffer ih =>
    rw [bitsOf_cons, List.length_append, ih, List.length_cons]
    cases refIn with
    | true => simp [Nat.mul_add, Nat.add_comm]
    | false => simp [Nat.mul_add, Nat.add_comm]

theorem byteBits_injective : Function.Injective fun byte : BitVec 8 => if refIn then lowFirst byte else highFirst byte := by
  intro a b h
  cases refIn with
  | true =>
    apply BitVec.eq_of_getLsbD_eq
    intro i _
    rw [← lowFirst_get, ← lowFirst_get]
    exact congrArg (fun bits : List Bool => bits[i]?.getD false) h
  | false =>
    apply BitVec.eq_of_getMsbD_eq
    intro i _
    rw [← highFirst_get, ← highFirst_get]
    exact congrArg (fun bits : List Bool => bits[i]?.getD false) h

theorem bitsOf_injective : Function.Injective (bitsOf refIn) := by
  intro a
  induction a with
  | nil =>
    intro b h
    have hlen := congrArg List.length h
    rw [length_bitsOf, length_bitsOf, List.length_nil] at hlen
    exact (List.eq_nil_of_length_eq_zero (by omega)).symm
  | cons x a ih =>
    intro b h
    cases b with
    | nil =>
      have hlen := congrArg List.length h
      rw [length_bitsOf, length_bitsOf, List.length_nil, List.length_cons] at hlen
      omega
    | cons y b =>
      have hlen : (if refIn then lowFirst x else highFirst x).length = (if refIn then lowFirst y else highFirst y).length := by
        cases refIn <;> simp
      obtain ⟨hhead, htail⟩ := List.append_inj h hlen
      rw [byteBits_injective hhead, ih htail]

/-! ## Bursts -/

theorem zipWith_xor_get {a b : List Bool} (h : a.length = b.length) {i : Nat} :
    (List.zipWith xor a b)[i]? = some true ↔ a[i]? ≠ b[i]? := by
  rw [List.getElem?_zipWith]
  by_cases hi : i < a.length
  · rw [List.getElem?_eq_getElem hi, List.getElem?_eq_getElem (h ▸ hi)]
    cases a[i] <;> cases b[i] <;> simp
  · rw [List.getElem?_eq_none (Nat.not_lt.mp hi), List.getElem?_eq_none (h ▸ Nat.not_lt.mp hi)]
    simp

/-- The register tells messages of one length apart that differ within its width. -/
theorem feed_ne_of_burst (hp : poly.getLsbD 0 = true) (c : BitVec w) {a b : List Bool} (hlen : a.length = b.length)
    (hne : a ≠ b) {p : Nat} (hwindow : ∀ i, a[i]? ≠ b[i]? → p ≤ i ∧ i < p + w) : feed poly c a ≠ feed poly c b := by
  intro heq
  have hdiff : true ∈ List.zipWith xor a b := by
    by_contra hnone
    refine hne (List.ext_getElem? fun i => ?_)
    by_contra hi
    exact hnone (List.mem_of_getElem? ((zipWith_xor_get hlen).mpr hi))
  refine feed_burst_ne_zero hp hdiff (fun i hi => hwindow i ((zipWith_xor_get hlen).mp hi)) ?_
  have hzero : (0#w : BitVec w) = c ^^^ c := BitVec.xor_self.symm
  rw [hzero, feed_xor c c hlen, heq, BitVec.xor_self, BitVec.xor_self]

/-- **Bursts change the check.** -/
theorem value_ne_of_burst (hp : poly.getLsbD 0 = true) {a b : List (BitVec 8)} (hlen : a.length = b.length) (hne : a ≠ b)
    {p : Nat} (hwindow : ∀ i, (bitsOf refIn a)[i]? ≠ (bitsOf refIn b)[i]? → p ≤ i ∧ i < p + w) :
    value poly init refIn refOut xorOut a ≠ value poly init refIn refOut xorOut b := by
  intro heq
  refine feed_ne_of_burst hp init (by rw [length_bitsOf, length_bitsOf, hlen]) (fun hbits => hne (bitsOf_injective hbits))
    hwindow ?_
  have hreg := (BitVec.xor_left_inj _).mp heq
  cases refOut with
  | false => exact hreg
  | true =>
    have hback := congrArg BitVec.reverse (show (feed poly init (bitsOf refIn a)).reverse = (feed poly init _).reverse from hreg)
    rwa [BitVec.reverse_reverse_eq, BitVec.reverse_reverse_eq] at hback

/-! ## Wider registers -/

/-- The bits of `c` at the upper end of a register of `W` bits. -/
def align (W : Nat) (c : BitVec w) : BitVec W := c.setWidth W <<< (W - w)

theorem getMsbD_align (h : w ≤ W) (c : BitVec w) (i : Nat) : (align W c).getMsbD i = c.getMsbD i := by
  unfold align
  rw [BitVec.getMsbD_shiftLeft, BitVec.getMsbD_setWidth]
  by_cases hi : i < w
  · simp [show W - w ≤ i + (W - w) by omega, show i + (W - w) + w - W = i by omega]
  · have hfar : ¬ i + (W - w) + w - W < w := by omega
    simp [BitVec.getMsbD_eq_getLsbD, hi, hfar]

theorem align_xor (h : w ≤ W) (c d : BitVec w) : align W (c ^^^ d) = align W c ^^^ align W d := by
  apply BitVec.eq_of_getMsbD_eq
  intro i _
  rw [BitVec.getMsbD_xor, getMsbD_align h, getMsbD_align h, getMsbD_align h, BitVec.getMsbD_xor]

theorem align_shiftLeft (h : w ≤ W) (c : BitVec w) : align W (c <<< 1) = align W c <<< 1 := by
  apply BitVec.eq_of_getMsbD_eq
  intro i _
  rw [getMsbD_align h, BitVec.getMsbD_shiftLeft, BitVec.getMsbD_shiftLeft, getMsbD_align h]

theorem shift_align (h : w ≤ W) (c : BitVec w) : shift (align W poly) (align W c) = align W (shift poly c) := by
  have hmsb : (align W c).msb = c.msb := getMsbD_align h c 0
  unfold shift
  rw [hmsb]
  split_ifs
  · rw [align_xor h, align_shiftLeft h]
  · rw [align_shiftLeft h]

theorem align_top (h : w ≤ W) (hw : 0 < w) (bit : Bool) : align W (top bit : BitVec w) = top bit := by
  apply BitVec.eq_of_getMsbD_eq
  intro i _
  rw [getMsbD_align h, getMsbD_top, getMsbD_top]
  simp [hw, show 0 < W by omega]

theorem feed_align (h : w ≤ W) (hw : 0 < w) (c : BitVec w) (bits : List Bool) :
    feed (align W poly) (align W c) bits = align W (feed poly c bits) := by
  induction bits generalizing c with
  | nil => rfl
  | cons bit bits ih => rw [feed_cons, feed_cons, ← align_top h hw, ← align_xor h, shift_align h, ih]

/-- What is back at the lower end. -/
theorem align_ushiftRight (h : w ≤ W) (c : BitVec w) : align W c >>> (W - w) = c.setWidth W := by
  apply BitVec.eq_of_getMsbD_eq
  intro i hi
  rw [BitVec.getMsbD_ushiftRight, getMsbD_align h, BitVec.getMsbD_setWidth]
  by_cases hle : W - w ≤ i
  · simp [hi, hle, show ¬ i < W - w by omega, show i - (W - w) = i + w - W by omega]
  · simp [hle, show i < W - w by omega]

/-- The mirror image is at the lower end. -/
theorem reverse_align (h : w ≤ W) (c : BitVec w) : (align W c).reverse = c.reverse.setWidth W := by
  apply BitVec.eq_of_getLsbD_eq
  intro i hi
  rw [BitVec.getLsbD_reverse, getMsbD_align h, BitVec.getLsbD_setWidth, BitVec.getLsbD_reverse]
  simp [hi]

/-! ## A byte at once -/

theorem pack_highFirst (h : 8 ≤ W) (byte : BitVec 8) : (pack (highFirst byte) : BitVec W) = align W byte := by
  apply BitVec.eq_of_getMsbD_eq
  intro i hi
  rw [getMsbD_pack, highFirst_get, getMsbD_align h, decide_eq_true hi, Bool.true_and]

theorem pack_lowFirst (h : 8 ≤ W) (byte : BitVec 8) : (pack (lowFirst byte) : BitVec W) = align W byte.reverse := by
  apply BitVec.eq_of_getMsbD_eq
  intro i hi
  rw [getMsbD_pack, lowFirst_get, getMsbD_align h, BitVec.getMsbD_reverse, decide_eq_true hi, Bool.true_and]

theorem iterate_highFirst {poly : BitVec W} (h : 8 ≤ W) (c : BitVec W) (byte : BitVec 8) :
    Nat.iterate (shift poly) 8 (c ^^^ align W byte) = feed poly c (highFirst byte) := by
  rw [feed_eq_pack _ (by simpa using h), length_highFirst, pack_highFirst h]

theorem iterate_lowFirst {poly : BitVec W} (h : 8 ≤ W) (c : BitVec W) (byte : BitVec 8) :
    Nat.iterate (shift poly) 8 (c ^^^ align W byte.reverse) = feed poly c (lowFirst byte) := by
  rw [feed_eq_pack _ (by simpa using h), length_lowFirst, pack_lowFirst h]

theorem iterate_reverse (poly c : BitVec w) (n : Nat) :
    Nat.iterate (shiftDown poly.reverse) n c.reverse = (Nat.iterate (shift poly) n c).reverse := by
  induction n with
  | zero => rfl
  | succ n ih => rw [Function.iterate_succ_apply', Function.iterate_succ_apply', ih, reverse_shift]

/-- The byte at the lower end of the mirror. -/
theorem iterate_shiftDown (poly c byte : BitVec 8) :
    Nat.iterate (shiftDown poly.reverse) 8 (c.reverse ^^^ byte) = (feed poly c (lowFirst byte)).reverse := by
  have halign : align 8 byte.reverse = byte.reverse := by
    apply BitVec.eq_of_getMsbD_eq
    intro i _
    rw [getMsbD_align le_rfl]
  rw [← iterate_lowFirst le_rfl, halign, ← iterate_reverse, reverse_xor, BitVec.reverse_reverse_eq]

end PmemProgram.Lib.CyclicCode
