import PmemProgram.Lib.ShiftRegister

/-!
# The checksum of a block (`crc.c`)

`calculateCrc32` is bit by bit as in the source, most significant bit first, with the bytes and the result reflected. It is
the shift register of the polynomial over the bits of the message, the lowest of each byte first (`calculateCrc32_eq`).
Every step of it can be undone, so a message with one other first byte has another checksum (`calculateCrc32_cons_inj`).
-/

namespace PmemProgram.Cxl
open PmemProgram.Lib.ShiftRegister

/-- The modes of `ReflectedData` that the 32-bit checksum uses. -/
inductive ReflectedMode
  | bit8
  | bit32
  deriving DecidableEq, Repr

/-- The swaps of `ReflectedData`: halves, bytes, and so on down to neighbouring bits. -/
def swapBits (data : BitVec 32) : BitVec 32 :=
  let data := ((data &&& 0xffff0000) >>> 16) ||| ((data &&& 0x0000ffff) <<< 16)
  let data := ((data &&& 0xff00ff00) >>> 8) ||| ((data &&& 0x00ff00ff) <<< 8)
  let data := ((data &&& 0xf0f0f0f0) >>> 4) ||| ((data &&& 0x0f0f0f0f) <<< 4)
  let data := ((data &&& 0xcccccccc) >>> 2) ||| ((data &&& 0x33333333) <<< 2)
  ((data &&& 0xaaaaaaaa) >>> 1) ||| ((data &&& 0x55555555) <<< 1)

/-- `ReflectedData`. -/
def reflectedData (data : BitVec 32) : ReflectedMode → BitVec 32
  | .bit32 => swapBits data
  | .bit8 => (swapBits data >>> 24) &&& 0xff

/-- One round of the inner loop of `CheckCrc32`. -/
def crcBit (poly crc : BitVec 32) : BitVec 32 :=
  if crc &&& 0x80000000 ≠ 0 then (crc <<< 1) ^^^ poly else crc <<< 1

/-- One round of its outer loop. -/
def crcByte (poly : BitVec 32) (refIn : Bool) (crc : BitVec 32) (byte : BitVec 8) : BitVec 32 :=
  let byte := byte.setWidth 32
  let crc := crc ^^^ ((if refIn then reflectedData byte .bit8 else byte) <<< 24)
  Nat.iterate (crcBit poly) 8 crc

/-- `CheckCrc32`. -/
def checkCrc32 (poly init : BitVec 32) (refIn refOut : Bool) (xorOut : BitVec 32) (buffer : List (BitVec 8)) :
    BitVec 32 :=
  let crc := buffer.foldl (crcByte poly refIn) init
  (if refOut then reflectedData crc .bit32 else crc) ^^^ xorOut

/-- `calculate_crc32`. -/
def calculateCrc32 (buffer : List (BitVec 8)) : BitVec 32 :=
  checkCrc32 0x04c11db7 0xffffffff true true 0xffffffff buffer

/-- The digits `123456789` have the known checksum. -/
example : calculateCrc32 [0x31, 0x32, 0x33, 0x34, 0x35, 0x36, 0x37, 0x38, 0x39] = 0xcbf43926 := by decide +kernel

/-! ## The swaps -/

/-- One swap of `ReflectedData`, bit by bit. -/
theorem getLsbD_swap {k : Nat} {up down : BitVec 32} (x : BitVec 32)
    (hmask : ∀ i < 32, i ^^^ k = k + i ∧ up.getLsbD (k + i) = true ∧ (i < k ∨ down.getLsbD (i - k) = false) ∨
      i ^^^ k = i - k ∧ k ≤ i ∧ up.getLsbD (k + i) = false ∧ down.getLsbD (i - k) = true) {i : Nat} (hi : i < 32) :
    (((x &&& up) >>> k) ||| ((x &&& down) <<< k)).getLsbD i = x.getLsbD (i ^^^ k) := by
  simp only [BitVec.getLsbD_or, BitVec.getLsbD_ushiftRight, BitVec.getLsbD_shiftLeft, BitVec.getLsbD_and]
  rcases hmask i hi with ⟨hxor, hup, hdown | hdown⟩ | ⟨hxor, hle, hup, hdown⟩
  · simp [hxor, hup, hdown]
  · simp [hxor, hup, hdown]
  · simp [hxor, hup, hdown, hi, Nat.not_lt.mpr hle]

theorem getLsbD_swapBits (x : BitVec 32) {i : Nat} (hi : i < 32) : (swapBits x).getLsbD i = x.getLsbD (31 - i) := by
  have hlt : ∀ k < 32, ∀ j < 32, j ^^^ k < 32 := fun k hk j hj => Nat.xor_lt_two_pow (n := 5) hj hk
  have h₁ := hlt 1 (by decide) i hi
  have h₂ := hlt 2 (by decide) _ h₁
  have h₄ := hlt 4 (by decide) _ h₂
  have h₈ := hlt 8 (by decide) _ h₄
  have hflip : ∀ j < 32, j ^^^ 1 ^^^ 2 ^^^ 4 ^^^ 8 ^^^ 16 = 31 - j := by decide
  unfold swapBits
  rw [getLsbD_swap _ (by decide) hi, getLsbD_swap _ (by decide) h₁, getLsbD_swap _ (by decide) h₂,
    getLsbD_swap _ (by decide) h₄, getLsbD_swap _ (by decide) h₈, hflip i hi]

theorem swapBits_eq (x : BitVec 32) : swapBits x = x.reverse := by
  apply BitVec.eq_of_getLsbD_eq
  intro i hi
  rw [getLsbD_swapBits x hi, BitVec.getLsbD_reverse, BitVec.getMsbD_eq_getLsbD]
  simp [hi]

/-! ## The register -/

theorem and_msb (c : BitVec 32) : c &&& 0x80000000 ≠ 0 ↔ c.msb = true := by
  have hmask : (0x80000000 : BitVec 32) = BitVec.twoPow 32 31 := by decide
  rw [hmask, BitVec.and_twoPow, BitVec.msb_eq_getLsbD_last]
  cases c.getLsbD 31 <;> decide

theorem crcBit_eq_shift (poly : BitVec 32) : crcBit poly = shift poly := by
  ext1 c
  unfold crcBit shift
  simp only [and_msb]

/-- The bits of a byte, the lowest first. -/
def byteBits (byte : BitVec 8) : List Bool := List.ofFn fun i : Fin 8 => byte.getLsbD i

/-- The bits of a message. -/
def bits (buffer : List (BitVec 8)) : List Bool := buffer.flatMap byteBits

@[simp] theorem length_byteBits (byte : BitVec 8) : (byteBits byte).length = 8 := by simp [byteBits]

theorem byteBits_get (byte : BitVec 8) (i : Nat) : (byteBits byte)[i]?.getD false = byte.getLsbD i := by
  unfold byteBits
  rw [List.getElem?_ofFn]
  split_ifs with h
  · rfl
  · exact (BitVec.getLsbD_of_ge byte i (by omega)).symm

@[simp] theorem bits_cons (byte : BitVec 8) (buffer : List (BitVec 8)) :
    bits (byte :: buffer) = byteBits byte ++ bits buffer := rfl

/-- The reflected byte at the top of the register has its lowest bit there. -/
theorem reflected_byte (byte : BitVec 8) :
    reflectedData (byte.setWidth 32) .bit8 <<< 24 = pack (byteBits byte) := by
  apply BitVec.eq_of_getMsbD_eq
  intro i hi
  rw [getMsbD_pack, BitVec.getMsbD_shiftLeft, reflectedData, BitVec.getMsbD_and, BitVec.getMsbD_ushiftRight,
    swapBits_eq, BitVec.getMsbD_reverse, BitVec.getLsbD_setWidth]
  rw [byteBits_get]
  by_cases hlow : i < 8
  · interval_cases i <;> simp [BitVec.getMsbD_eq_getLsbD]
  · simp [show ¬ i + 24 < 32 by omega, BitVec.getLsbD_of_ge byte i (by omega)]

theorem crcByte_eq_feed (poly crc : BitVec 32) (byte : BitVec 8) :
    crcByte poly true crc byte = feed poly crc (byteBits byte) := by
  rw [feed_eq_pack _ (by simp), length_byteBits, ← reflected_byte, ← crcBit_eq_shift]
  rfl

theorem foldl_crcByte_eq_feed (poly crc : BitVec 32) (buffer : List (BitVec 8)) :
    buffer.foldl (crcByte poly true) crc = feed poly crc (bits buffer) := by
  induction buffer generalizing crc with
  | nil => rfl
  | cons byte buffer ih => rw [List.foldl_cons, ih, crcByte_eq_feed, bits_cons, feed_append]

/-- **The checksum** is the reflected and complemented register after the bits of the message. -/
theorem calculateCrc32_eq (buffer : List (BitVec 8)) :
    calculateCrc32 buffer = (feed 0x04c11db7 0xffffffff (bits buffer)).reverse ^^^ 0xffffffff := by
  unfold calculateCrc32 checkCrc32
  rw [foldl_crcByte_eq_feed, ← swapBits_eq]
  rfl

/-- Messages with the same checksum that agree behind their first byte have come to the same state there. -/
theorem calculateCrc32_cons_inj {b b' : BitVec 8} {rest : List (BitVec 8)}
    (h : calculateCrc32 (b :: rest) = calculateCrc32 (b' :: rest)) :
    crcByte 0x04c11db7 true 0xffffffff b = crcByte 0x04c11db7 true 0xffffffff b' := by
  rw [calculateCrc32_eq, calculateCrc32_eq, bits_cons, bits_cons, feed_append, feed_append] at h
  have hreg := congrArg BitVec.reverse ((BitVec.xor_left_inj _).mp h)
  rw [BitVec.reverse_reverse_eq, BitVec.reverse_reverse_eq] at hreg
  rw [crcByte_eq_feed, crcByte_eq_feed]
  exact feed_injective (by decide) (bits rest) hreg

end PmemProgram.Cxl
