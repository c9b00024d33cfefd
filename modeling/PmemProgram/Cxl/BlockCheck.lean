import PmemProgram.Cxl.Crc
import PmemProgram.Cxl.Framing

/-!
# The check of a block (`fill_block_data`, `lock_write.c`, `lock_read.c`)

A block carries the checksum of its other bytes in its last four.

* `sealBlock`, `Verifies` : what the writer stores and what the reader compares;
* `standardCrc32` : the usual reflected algorithm; `calculateCrc32_standard` : it gives the same checksums;
* `verifies_iff` : an error is overlooked exactly if the register, started at zero, is zero after the error pattern;
* `burst_detected` : no error within 32 consecutive bits is.
-/

namespace PmemProgram.Cxl
open PmemProgram.Lib.ShiftRegister

/-- `calculate_crc32(addr, size)`, where `addr` points to `memory`: `CheckCrc32` takes the size as a `uint32_t`. -/
def calculateCrc32Of (memory : List Byte) (size : Nat) : Word := calculateCrc32 (memory.take (size % 2 ^ 32))

/-- `*(uint32_t *)` of the first four bytes. -/
def wordAt (memory : List Byte) : Word := Buffer.word fun i => memory[i.val]?.getD 0

/-- The block of `fill_block_data` and `lock_write`: the data, and behind them the checksum. -/
def sealBlock (data : List Byte) : List Byte := data ++ wordBytes (calculateCrc32Of data data.length)

/-- The comparison of `lock_read`. -/
def Verifies (block : List Byte) : Prop :=
  calculateCrc32Of block (block.length - 4) = wordAt (block.drop (block.length - 4))

@[simp] theorem length_wordBytes (w : Word) : (wordBytes w).length = 4 := rfl

theorem wordAt_wordBytes (w : Word) : wordAt (wordBytes w) = w := word_fill_wordBytes (fun _ => 0) w

/-- What the reader computes and compares, in a block of some bytes and four more. -/
theorem verifies_append {data check : List Byte} (hlen : data.length + 4 < 2 ^ 32) (hcheck : check.length = 4) :
    Verifies (data ++ check) ↔ calculateCrc32 data = wordAt check := by
  have hn : (data ++ check).length - 4 = data.length := by rw [List.length_append]; omega
  unfold Verifies calculateCrc32Of
  rw [hn, Nat.mod_eq_of_lt (by omega), List.take_left, List.drop_left]

theorem verifies_sealBlock {data : List Byte} (hlen : data.length + 4 < 2 ^ 32) : Verifies (sealBlock data) := by
  unfold sealBlock
  rw [verifies_append hlen (length_wordBytes _), wordAt_wordBytes, calculateCrc32Of, Nat.mod_eq_of_lt (by omega),
    List.take_length]

/-! ## The usual algorithm -/

/-- A bit of it, the lowest first. -/
def standardBit (crc : Word) : Word := if crc &&& 1 ≠ 0 then (crc >>> 1) ^^^ 0xEDB88320 else crc >>> 1

def standardByte (crc : Word) (byte : Byte) : Word := Nat.iterate standardBit 8 (crc ^^^ byte.setWidth 32)

/-- The reflected CRC-32, register and output complemented. -/
def standardCrc32 (buffer : List Byte) : Word := ~~~ buffer.foldl standardByte (~~~ 0)

theorem standardBit_reverse (crc : Word) : (crcBit 0x04c11db7 crc).reverse = standardBit crc.reverse := by
  have hlow : crc.reverse &&& 1 ≠ 0 ↔ crc.reverse.getLsbD 0 = true := by
    rw [show (1 : Word) = BitVec.twoPow 32 0 from rfl, BitVec.and_twoPow]
    cases crc.reverse.getLsbD 0 <;> decide
  have hpoly : (0x04c11db7 : Word).reverse = 0xEDB88320 := by
    rw [← swapBits_eq]
    decide
  rw [crcBit_eq_shift, reverse_shift, hpoly]
  unfold shiftDown standardBit
  simp only [hlow]

theorem iterate_standardBit_reverse (n : Nat) (crc : Word) :
    (Nat.iterate (crcBit 0x04c11db7) n crc).reverse = Nat.iterate standardBit n crc.reverse := by
  induction n generalizing crc with
  | zero => rfl
  | succ n ih => rw [Function.iterate_succ_apply, Function.iterate_succ_apply, ih, standardBit_reverse]

/-- The registers of the two algorithms are mirror images. -/
theorem standardByte_reverse (crc : Word) (byte : Byte) :
    (crcByte 0x04c11db7 true crc byte).reverse = standardByte crc.reverse byte := by
  have hbyte : (reflectedData (byte.setWidth 32) .bit8 <<< 24).reverse = byte.setWidth 32 := by
    apply BitVec.eq_of_getLsbD_eq
    intro i hi
    rw [reflected_byte, BitVec.getLsbD_reverse, getMsbD_pack, BitVec.getLsbD_setWidth, byteBits_get]
  calc (crcByte 0x04c11db7 true crc byte).reverse
      = (Nat.iterate (crcBit 0x04c11db7) 8 (crc ^^^ reflectedData (byte.setWidth 32) .bit8 <<< 24)).reverse := rfl
    _ = Nat.iterate standardBit 8 (crc.reverse ^^^ byte.setWidth 32) := by
        rw [iterate_standardBit_reverse, reverse_xor, hbyte]
    _ = standardByte crc.reverse byte := rfl

theorem standardCrc32_eq (buffer : List Byte) : standardCrc32 buffer = calculateCrc32 buffer := by
  have hfold : ∀ crc : Word, (buffer.foldl (crcByte 0x04c11db7 true) crc).reverse = buffer.foldl standardByte crc.reverse := by
    induction buffer with
    | nil => exact fun _ => rfl
    | cons byte buffer ih =>
      intro crc
      rw [List.foldl_cons, List.foldl_cons, ih, standardByte_reverse]
  have hones : (0xffffffff : Word).reverse = ~~~ 0 := by
    rw [← swapBits_eq]
    decide
  rw [standardCrc32, ← hones, ← hfold, calculateCrc32_eq, foldl_crcByte_eq_feed, ← BitVec.xor_allOnes]
  rfl

/-- **The checksum is the standard one**, for every buffer; so a block sealed here is one sealed with the usual algorithm,
and a reader with either accepts the same blocks. -/
theorem calculateCrc32_standard (buffer : List Byte) (h : buffer.length < 2 ^ 32) :
    calculateCrc32Of buffer buffer.length = standardCrc32 buffer ∧
      sealBlock buffer = buffer ++ wordBytes (standardCrc32 buffer) ∧
      (Verifies buffer ↔
        standardCrc32 (buffer.take (buffer.length - 4)) = wordAt (buffer.drop (buffer.length - 4))) := by
  have hcrc : calculateCrc32Of buffer buffer.length = standardCrc32 buffer := by
    rw [calculateCrc32Of, Nat.mod_eq_of_lt h, List.take_length, standardCrc32_eq]
  refine ⟨hcrc, by rw [sealBlock, hcrc], ?_⟩
  rw [Verifies, calculateCrc32Of, Nat.mod_eq_of_lt (by omega), standardCrc32_eq]

/-- Nine digits. -/
theorem calculateCrc32_standard_digits :
    calculateCrc32Of [0x31, 0x32, 0x33, 0x34, 0x35, 0x36, 0x37, 0x38, 0x39] 9 =
      standardCrc32 [0x31, 0x32, 0x33, 0x34, 0x35, 0x36, 0x37, 0x38, 0x39] :=
  (calculateCrc32_standard [0x31, 0x32, 0x33, 0x34, 0x35, 0x36, 0x37, 0x38, 0x39] (by decide)).1

/-! ## Errors -/

/-- A block with an error pattern added to it. -/
def xorBytes (block error : List Byte) : List Byte := List.zipWith (fun b e => b ^^^ e) block error

/-- Some bit is flipped, and all flipped bits lie within 32 consecutive ones, the bits of each byte counted from the
lowest. -/
def Burst (error : List Byte) : Prop :=
  (∃ b ∈ error, b ≠ 0) ∧ ∃ p, ∀ i j, j < 8 → (error[i]?.getD 0).getLsbD j = true → p ≤ 8 * i + j ∧ 8 * i + j < p + 32

theorem length_bits (buffer : List Byte) : (bits buffer).length = 8 * buffer.length := by
  induction buffer with
  | nil => rfl
  | cons b buffer ih =>
    rw [bits_cons, List.length_append, length_byteBits, ih, List.length_cons]
    omega

theorem bits_append (buffer more : List Byte) : bits (buffer ++ more) = bits buffer ++ bits more := List.flatMap_append

theorem byteBits_xor (b e : Byte) : byteBits (b ^^^ e) = List.zipWith xor (byteBits b) (byteBits e) := by
  apply List.ext_getElem
  · simp
  · intro i h₁ h₂
    simp [byteBits]

theorem bits_xorBytes {block error : List Byte} (h : block.length = error.length) :
    bits (xorBytes block error) = List.zipWith xor (bits block) (bits error) := by
  induction block generalizing error with
  | nil =>
    cases error with
    | nil => rfl
    | cons e error => cases h
  | cons b block ih =>
    cases error with
    | nil => cases h
    | cons e error =>
      have hrest := ih (Nat.succ.inj h)
      rw [bits_cons, bits_cons, List.zipWith_append (by simp), ← hrest, ← byteBits_xor]
      rfl

/-- The bits of a message by their byte and their place in it. -/
theorem bits_get (buffer : List Byte) (i : Nat) {j : Nat} (hj : j < 8) :
    (bits buffer)[8 * i + j]?.getD false = (buffer[i]?.getD 0).getLsbD j := by
  induction buffer generalizing i with
  | nil => simp [bits]
  | cons b buffer ih =>
    rw [bits_cons]
    cases i with
    | zero =>
      rw [Nat.mul_zero, Nat.zero_add, List.getElem?_append_left (by simpa using hj), byteBits_get]
      rfl
    | succ i =>
      rw [List.getElem?_append_right (by rw [length_byteBits]; omega), length_byteBits,
        show 8 * (i + 1) + j - 8 = 8 * i + j by omega, ih]
      rfl

/-- The four bytes of a word, bit by bit. -/
theorem getLsbD_word (x : Buffer) (i : Fin 4) {j : Nat} (hj : j < 8) :
    x.word.getLsbD (8 * i.val + j) = (x i).getLsbD j := by
  have h₀ := (x 0).isLt
  have h₁ := (x 1).isLt
  have h₂ := (x 2).isLt
  have h₃ := (x 3).isLt
  have hsum : (x 0).toNat + 2 ^ 8 * (x 1).toNat + 2 ^ 16 * (x 2).toNat + 2 ^ 24 * (x 3).toNat =
      2 ^ 8 * (2 ^ 8 * (2 ^ 8 * (x 3).toNat + (x 2).toNat) + (x 1).toNat) + (x 0).toNat := by ring
  have htest : x.word.getLsbD (8 * i.val + j) =
      (2 ^ 8 * (2 ^ 8 * (2 ^ 8 * (x 3).toNat + (x 2).toNat) + (x 1).toNat) + (x 0).toNat).testBit (8 * i.val + j) := by
    rw [Buffer.word, BitVec.getLsbD_ofNat, hsum]
    simp [show 8 * i.val + j < 32 by omega]
  rw [htest, Nat.testBit_two_pow_mul_add _ h₀, Nat.testBit_two_pow_mul_add _ h₁, Nat.testBit_two_pow_mul_add _ h₂]
  have hbytes : ∀ i : Fin 4, i = 0 ∨ i = 1 ∨ i = 2 ∨ i = 3 := by decide
  obtain rfl | rfl | rfl | rfl := hbytes i
  · simp [hj, BitVec.getLsbD]
  · simp [hj, BitVec.getLsbD]
  · simp [hj, BitVec.getLsbD, show ¬ 16 + j < 8 by omega, show 16 + j - 8 = 8 + j by omega]
  · simp [BitVec.getLsbD, show ¬ 24 + j < 8 by omega, show 24 + j - 8 = 16 + j by omega, show ¬ 16 + j < 8 by omega,
      show 16 + j - 8 = 8 + j by omega]

/-- The word of four bytes, reflected, is what their bits add to the register. -/
theorem pack_bits (check : List Byte) : pack (bits check) = (wordAt check).reverse := by
  apply BitVec.eq_of_getMsbD_eq
  intro i hi
  have hdiv : 8 * (i / 8) + i % 8 = i := Nat.div_add_mod i 8
  rw [getMsbD_pack, BitVec.getMsbD_reverse, ← hdiv, bits_get _ _ (Nat.mod_lt i (by omega))]
  have hword := getLsbD_word (fun k => check[k.val]?.getD 0) ⟨i / 8, by omega⟩ (Nat.mod_lt i (show 0 < 8 by omega))
  rw [wordAt, hword]
  simp [show 8 * (i / 8) + i % 8 < 32 by omega]

theorem wordAt_xorBytes {check error : List Byte} (hc : check.length = 4) (he : error.length = 4) :
    wordAt (xorBytes check error) = wordAt check ^^^ wordAt error := by
  have hreverse : (wordAt (xorBytes check error)).reverse = (wordAt check ^^^ wordAt error).reverse := by
    rw [reverse_xor, ← pack_bits, ← pack_bits, ← pack_bits]
    apply BitVec.eq_of_getMsbD_eq
    intro i hi
    have hlc : i < (bits check).length := by rw [length_bits, hc]; exact hi
    have hle : i < (bits error).length := by rw [length_bits, he]; exact hi
    rw [BitVec.getMsbD_xor, getMsbD_pack, getMsbD_pack, getMsbD_pack, bits_xorBytes (hc.trans he.symm)]
    simp [hi, List.getElem?_zipWith, List.getElem?_eq_getElem hlc, List.getElem?_eq_getElem hle]
  have := congrArg BitVec.reverse hreverse
  rwa [BitVec.reverse_reverse_eq, BitVec.reverse_reverse_eq] at this

/-- **What the check overlooks**: an error pattern, checksum included, that leaves the register at zero. -/
theorem verifies_iff {data error : List Byte} (hlen : data.length + 4 < 2 ^ 32)
    (herror : error.length = data.length + 4) :
    Verifies (xorBytes (sealBlock data) error) ↔ feed 0x04c11db7 0#32 (bits error) = 0#32 := by
  have htail : (error.drop data.length).length = 4 := by rw [List.length_drop]; omega
  have hhead : data.length = (error.take data.length).length := by rw [List.length_take]; omega
  have hsplit : xorBytes (sealBlock data) error = xorBytes data (error.take data.length) ++
      xorBytes (wordBytes (calculateCrc32Of data data.length)) (error.drop data.length) := by
    rw [sealBlock, ← List.take_append_drop data.length error]
    unfold xorBytes
    rw [List.zipWith_append hhead, List.take_append_drop]
  have hxor : (xorBytes data (error.take data.length)).length = data.length := by
    rw [xorBytes, List.length_zipWith, ← hhead, Nat.min_self]
  have hcrc : calculateCrc32Of data data.length = calculateCrc32 data := by
    rw [calculateCrc32Of, Nat.mod_eq_of_lt (by omega), List.take_length]
  -- the register of the changed data is that of the data and that of the error
  have hdata : calculateCrc32 (xorBytes data (error.take data.length)) =
      calculateCrc32 data ^^^ (feed 0x04c11db7 0#32 (bits (error.take data.length))).reverse := by
    rw [calculateCrc32_eq, calculateCrc32_eq, bits_xorBytes hhead,
      ← BitVec.xor_zero (x := (0xffffffff : BitVec 32)), feed_xor _ _ (by rw [length_bits, length_bits, ← hhead]), reverse_xor]
    ac_rfl
  rw [hsplit, verifies_append (by rw [hxor]; exact hlen) (by rw [xorBytes, List.length_zipWith, htail, length_wordBytes, Nat.min_self]),
    hdata, wordAt_xorBytes (length_wordBytes _) htail, wordAt_wordBytes, hcrc, BitVec.xor_right_inj]
  have hfeed : feed 0x04c11db7 0#32 (bits error) =
      Nat.iterate (shift 0x04c11db7) 32
        (feed 0x04c11db7 0#32 (bits (error.take data.length)) ^^^ (wordAt (error.drop data.length)).reverse) := by
    have hbits : (bits (error.drop data.length)).length = 32 := by rw [length_bits, htail]
    have hpack := @feed_eq_pack _ 0x04c11db7 (feed (0x04c11db7 : Word) 0#32 (bits (error.take data.length))) _ hbits.le
    rw [hbits, pack_bits, ← feed_append, ← bits_append, List.take_append_drop] at hpack
    exact hpack
  rw [hfeed]
  constructor
  · intro h
    rw [← h, BitVec.reverse_reverse_eq, BitVec.xor_self]
    exact Function.iterate_fixed shift_zero 32
  · intro h
    by_contra hne
    apply iterate_shift_ne_zero (by decide) _ 32 h
    intro hzero
    apply hne
    rw [BitVec.xor_eq_zero_iff.mp hzero, BitVec.reverse_reverse_eq]

/-- **Every short burst is caught**, wherever it is in the block, over the boundary of data and checksum too; and a block
without an error verifies. -/
theorem burst_detected (data : List Byte) (hlen : data.length + 4 < 2 ^ 32) :
    Verifies (sealBlock data) ∧
      ∀ error, error.length = (sealBlock data).length → Burst error → ¬ Verifies (xorBytes (sealBlock data) error) := by
  refine ⟨verifies_sealBlock hlen, ?_⟩
  intro error herror hburst
  obtain ⟨⟨b, hb, hne⟩, p, hwindow⟩ := hburst
  rw [sealBlock, List.length_append, length_wordBytes] at herror
  rw [verifies_iff hlen herror]
  apply feed_burst_ne_zero (by decide) (p := p)
  · by_contra hnone
    apply hne
    apply BitVec.eq_of_getLsbD_eq
    intro j hj
    obtain ⟨i, hi, rfl⟩ := List.getElem_of_mem hb
    have hget := bits_get error i hj
    rw [List.getElem?_eq_getElem hi, Option.getD_some] at hget
    show error[i].getLsbD j = (0#8).getLsbD j
    rw [← hget, BitVec.getLsbD_zero]
    by_contra htrue
    apply hnone
    cases hbit : (bits error)[8 * i + j]? with
    | none => simp [hbit] at htrue
    | some v =>
      rw [hbit, Option.getD_some, Bool.not_eq_false] at htrue
      rw [← htrue]
      exact List.mem_of_getElem? hbit
  · intro k hk
    have hdiv : 8 * (k / 8) + k % 8 = k := Nat.div_add_mod k 8
    have hget := bits_get error (k / 8) (Nat.mod_lt k (show 0 < 8 by omega))
    rw [hdiv, hk, Option.getD_some] at hget
    have := hwindow (k / 8) (k % 8) (Nat.mod_lt k (by omega)) hget.symm
    omega

/-- A flipped bit on each side of the checksum's first byte. -/
theorem burst_detected_two : ¬ Verifies (xorBytes (sealBlock [7, 8]) [0, 128, 1, 0, 0, 0]) :=
  (burst_detected [7, 8] (by decide)).2 _ (by decide)
    ⟨⟨128, by decide, by decide⟩, 15, fun i j hj hbit => by
      have hi : i < 6 := by
        by_contra hi
        rw [List.getElem?_eq_none (by simpa using hi)] at hbit
        simp at hbit
      interval_cases i <;> interval_cases j <;> first | omega | exact absurd hbit (by decide)⟩

end PmemProgram.Cxl
