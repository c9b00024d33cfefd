import PmemProgram.Cxl.Crc
import PmemProgram.Lib.CyclicCode

/-!
# The checks of the other widths (`crc.c`)

`CheckCrc4` to `CheckCrc7` are one function (`checkCrcNarrow`) on a register of eight bits, and `CheckCrc8`, `CheckCrc16` and
`CheckCrc32` another (`checkCrcWide`). `CrcCheck` computes the check with the given parameters (`crcCheck_value`), except that
the narrow ones reflect the result together with the bytes, whatever `refOut` says, and then take a reflected first register.
So it tells messages apart that differ within as many consecutive bits as the check has.
-/

namespace PmemProgram.Cxl
open PmemProgram.Lib PmemProgram.Lib.ShiftRegister PmemProgram.Lib.CyclicCode

/-- `REFLECTED_MODE`. -/
inductive RefBits
  | bit4
  | bit5
  | bit6
  | bit7
  | bit8
  | bit16
  | bit32
  deriving DecidableEq, Repr

/-- `ReflectedData` with all its modes. -/
def reflectedBits (data : BitVec 32) : RefBits → BitVec 32
  | .bit32 => swapBits data
  | .bit16 => (swapBits data >>> 16) &&& 0xffff
  | .bit8 => (swapBits data >>> 24) &&& 0xff
  | .bit7 => (swapBits data >>> 25) &&& 0x7f
  | .bit6 => (swapBits data >>> 26) &&& 0x7f
  | .bit5 => (swapBits data >>> 27) &&& 0x1f
  | .bit4 => (swapBits data >>> 28) &&& 0x0f

section
variable {w : Nat}

/-- One round of the inner loops that look at the highest bit, `sign`. -/
def upBit (sign poly crc : BitVec w) : BitVec w := if crc &&& sign ≠ 0 then (crc <<< 1) ^^^ poly else crc <<< 1

/-- One round of those that look at the lowest. -/
def downBit (poly crc : BitVec 8) : BitVec 8 := if crc &&& 0x01 ≠ 0 then (crc >>> 1) ^^^ poly else crc >>> 1

/-- `CheckCrc4` to `CheckCrc7`, which do not look at `refOut`. -/
def checkCrcNarrow (mode : RefBits) (up : Nat) (poly init : BitVec 8) (refIn : Bool) (xorOut : BitVec 8)
    (buffer : List (BitVec 8)) : BitVec 8 :=
  if refIn then
    let poly := (reflectedBits (poly.setWidth 32) mode).setWidth 8
    buffer.foldl (fun crc byte => Nat.iterate (downBit poly) 8 (crc ^^^ byte)) init ^^^ xorOut
  else
    let crc := buffer.foldl (fun crc byte => Nat.iterate (upBit 0x80 (poly <<< up)) 8 (crc ^^^ byte)) (init <<< up)
    (crc >>> up) ^^^ xorOut

def checkCrc4 (poly init : BitVec 8) (refIn _refOut : Bool) (xorOut : BitVec 8) (buffer : List (BitVec 8)) : BitVec 8 :=
  checkCrcNarrow .bit4 4 poly init refIn xorOut buffer

def checkCrc5 (poly init : BitVec 8) (refIn _refOut : Bool) (xorOut : BitVec 8) (buffer : List (BitVec 8)) : BitVec 8 :=
  checkCrcNarrow .bit5 3 poly init refIn xorOut buffer

def checkCrc6 (poly init : BitVec 8) (refIn _refOut : Bool) (xorOut : BitVec 8) (buffer : List (BitVec 8)) : BitVec 8 :=
  checkCrcNarrow .bit6 2 poly init refIn xorOut buffer

def checkCrc7 (poly init : BitVec 8) (refIn _refOut : Bool) (xorOut : BitVec 8) (buffer : List (BitVec 8)) : BitVec 8 :=
  checkCrcNarrow .bit7 1 poly init refIn xorOut buffer

/-- `CheckCrc8`, `CheckCrc16` and `CheckCrc32`. -/
def checkCrcWide (mode : RefBits) (sign : BitVec w) (up : Nat) (poly init : BitVec w) (refIn refOut : Bool)
    (xorOut : BitVec w) (buffer : List (BitVec 8)) : BitVec w :=
  let crc := buffer.foldl (fun crc byte => Nat.iterate (upBit sign poly) 8
    (crc ^^^ ((if refIn then reflectedBits (byte.setWidth 32) .bit8 else byte.setWidth 32) <<< up).setWidth w)) init
  (if refOut then (reflectedBits (crc.setWidth 32) mode).setWidth w else crc) ^^^ xorOut

def checkCrc8 (poly init : BitVec 8) (refIn refOut : Bool) (xorOut : BitVec 8) (buffer : List (BitVec 8)) : BitVec 8 :=
  checkCrcWide .bit8 0x80 0 poly init refIn refOut xorOut buffer

def checkCrc16 (poly init : BitVec 16) (refIn refOut : Bool) (xorOut : BitVec 16) (buffer : List (BitVec 8)) : BitVec 16 :=
  checkCrcWide .bit16 0x8000 8 poly init refIn refOut xorOut buffer

/-- `CRC_Type`. -/
structure CrcType where
  width : BitVec 8
  poly : BitVec 32
  init : BitVec 32
  refIn : Bool
  refOut : Bool
  xorOut : BitVec 32

/-- `CrcCheck`, which hands on as many bits of its parameters as the functions take. -/
def crcCheck (t : CrcType) (buffer : List (BitVec 8)) : BitVec 32 :=
  match t.width.toNat with
  | 4 => (checkCrc4 (t.poly.setWidth 8) (t.init.setWidth 8) t.refIn t.refOut (t.xorOut.setWidth 8) buffer).setWidth 32
  | 5 => (checkCrc5 (t.poly.setWidth 8) (t.init.setWidth 8) t.refIn t.refOut (t.xorOut.setWidth 8) buffer).setWidth 32
  | 6 => (checkCrc6 (t.poly.setWidth 8) (t.init.setWidth 8) t.refIn t.refOut (t.xorOut.setWidth 8) buffer).setWidth 32
  | 7 => (checkCrc7 (t.poly.setWidth 8) (t.init.setWidth 8) t.refIn t.refOut (t.xorOut.setWidth 8) buffer).setWidth 32
  | 8 => (checkCrc8 (t.poly.setWidth 8) (t.init.setWidth 8) t.refIn t.refOut (t.xorOut.setWidth 8) buffer).setWidth 32
  | 16 => (checkCrc16 (t.poly.setWidth 16) (t.init.setWidth 16) t.refIn t.refOut (t.xorOut.setWidth 16) buffer).setWidth 32
  | 32 => checkCrc32 t.poly t.init t.refIn t.refOut t.xorOut buffer
  | _ => 0

/-! ## Reflection -/

theorem reverse_low (hw : w ≤ 32) (x : BitVec 32) : x.reverse >>> (32 - w) = (x.setWidth w).reverse.setWidth 32 := by
  apply BitVec.eq_of_getLsbD_eq
  intro i hi
  rw [BitVec.getLsbD_ushiftRight, BitVec.getLsbD_reverse, BitVec.getLsbD_setWidth, BitVec.getLsbD_reverse,
    BitVec.getMsbD_setWidth, BitVec.getMsbD_eq_getLsbD, BitVec.getMsbD_eq_getLsbD]
  by_cases hlow : i < w
  · simp [hi, show 32 - w + i < 32 by omega, show i + 32 - w < 32 by omega, show w ≤ i + 32 by omega,
      show 31 - (32 - w + i) = 31 - (i + 32 - w) by omega]
  · simp [show ¬ 32 - w + i < 32 by omega, show ¬ i + 32 - w < 32 by omega]

/-- The low bits are all that the mask must leave. -/
theorem setWidth_and_mask {mask : BitVec 32} (hmask : ∀ i < w, mask.getLsbD i = true) (x : BitVec w) :
    x.setWidth 32 &&& mask = x.setWidth 32 := by
  apply BitVec.eq_of_getLsbD_eq
  intro i hi
  rw [BitVec.getLsbD_and, BitVec.getLsbD_setWidth]
  by_cases hlow : i < w
  · simp [hmask i hlow]
  · simp [BitVec.getLsbD_of_ge x i (Nat.not_lt.mp hlow)]

/-- The mode of a width reflects as many low bits. -/
def Reflects (w : Nat) (mode : RefBits) : Prop :=
  ∀ x : BitVec 32, reflectedBits x mode = (x.setWidth w).reverse.setWidth 32

theorem reflects_low (hw : w ≤ 32) {mode : RefBits} {mask : BitVec 32} (hmask : ∀ i < w, mask.getLsbD i = true)
    (h : ∀ x, reflectedBits x mode = (swapBits x >>> (32 - w)) &&& mask) : Reflects w mode := fun x => by
  rw [h, swapBits_eq, reverse_low hw, setWidth_and_mask hmask]

theorem reflects_bit4 : Reflects 4 .bit4 := reflects_low (by decide) (by decide) fun _ => rfl
theorem reflects_bit5 : Reflects 5 .bit5 := reflects_low (by decide) (by decide) fun _ => rfl
theorem reflects_bit6 : Reflects 6 .bit6 := reflects_low (by decide) (by decide) fun _ => rfl
theorem reflects_bit7 : Reflects 7 .bit7 := reflects_low (by decide) (by decide) fun _ => rfl
theorem reflects_bit8 : Reflects 8 .bit8 := reflects_low (by decide) (by decide) fun _ => rfl
theorem reflects_bit16 : Reflects 16 .bit16 := reflects_low (by decide) (by decide) fun _ => rfl
theorem reflects_bit32 : Reflects 32 .bit32 := fun x => by
  rw [reflectedBits, swapBits_eq, BitVec.setWidth_eq, BitVec.setWidth_eq]

/-! ## The register -/

theorem upBit_eq_shift {sign : BitVec w} (hsign : sign = BitVec.twoPow w (w - 1)) (hw : 0 < w) (poly : BitVec w) :
    upBit sign poly = shift poly := by
  funext c
  have hbit : c &&& sign ≠ 0 ↔ c.msb = true := by
    rw [hsign, BitVec.and_twoPow, BitVec.msb_eq_getLsbD_last]
    cases hc : c.getLsbD (w - 1) with
    | false => simp
    | true =>
      have hne : BitVec.twoPow w (w - 1) ≠ 0#w := fun hzero => by
        have hget := congrArg (fun x : BitVec w => x.getLsbD (w - 1)) hzero
        simp [hw] at hget
      simp [hne]
  unfold upBit shift
  simp only [hbit]

theorem downBit_eq_shiftDown (poly : BitVec 8) : downBit poly = shiftDown poly := by
  funext c
  have hbit : c &&& 0x01 ≠ 0 ↔ c.getLsbD 0 = true := by
    rw [show (0x01 : BitVec 8) = BitVec.twoPow 8 0 by decide, BitVec.and_twoPow]
    cases c.getLsbD 0 <;> decide
  unfold downBit shiftDown
  simp only [hbit]

theorem align_byte (byte : BitVec 8) : align 8 byte = byte := by
  apply BitVec.eq_of_getMsbD_eq
  intro i _
  rw [getMsbD_align le_rfl]

theorem foldl_upBit {poly : BitVec 8} (c : BitVec 8) (buffer : List (BitVec 8)) :
    buffer.foldl (fun crc byte => Nat.iterate (upBit 0x80 poly) 8 (crc ^^^ byte)) c = feed poly c (bitsOf false buffer) := by
  induction buffer generalizing c with
  | nil => rfl
  | cons byte buffer ih =>
    rw [List.foldl_cons, ih, bitsOf_cons, if_neg Bool.false_ne_true, feed_append, ← iterate_highFirst le_rfl, align_byte,
      upBit_eq_shift (by decide) (by decide)]

theorem foldl_downBit {poly : BitVec 8} (c : BitVec 8) (buffer : List (BitVec 8)) :
    buffer.foldl (fun crc byte => Nat.iterate (downBit poly.reverse) 8 (crc ^^^ byte)) c.reverse =
      (feed poly c (bitsOf true buffer)).reverse := by
  induction buffer generalizing c with
  | nil => rfl
  | cons byte buffer ih =>
    rw [List.foldl_cons, downBit_eq_shiftDown, iterate_shiftDown, ← downBit_eq_shiftDown, ih, bitsOf_cons, if_pos rfl,
      feed_append]

/-- The narrow checks are at the upper end of their register, or at the lower end of its mirror. -/
theorem checkCrcNarrow_eq (hpos : 0 < w) (hw : w ≤ 8) {mode : RefBits} (hmode : Reflects w mode) (poly init xorOut : BitVec w)
    (refIn : Bool) (buffer : List (BitVec 8)) :
    checkCrcNarrow mode (8 - w) (poly.setWidth 8) (init.setWidth 8) refIn (xorOut.setWidth 8) buffer =
      (value poly (if refIn then init.reverse else init) refIn refIn xorOut buffer).setWidth 8 := by
  unfold checkCrcNarrow value
  cases refIn with
  | false =>
    simp only [Bool.false_eq_true, if_false, foldl_upBit]
    change feed (align 8 poly) (align 8 init) _ >>> (8 - w) ^^^ _ = _
    rw [feed_align hw hpos, align_ushiftRight hw, BitVec.setWidth_xor]
  | true =>
    have hpoly : (reflectedBits ((poly.setWidth 8).setWidth 32) mode).setWidth 8 = (align 8 poly).reverse := by
      rw [hmode, reverse_align hw, BitVec.setWidth_setWidth_of_le _ (show 8 ≤ 32 by decide),
        BitVec.setWidth_setWidth_of_le _ (hw.trans (by decide)), BitVec.setWidth_setWidth_of_le _ hw, BitVec.setWidth_eq]
    have hinit : init.setWidth 8 = (align 8 init.reverse).reverse := by
      rw [reverse_align hw, BitVec.reverse_reverse_eq]
    simp only [if_true]
    rw [hpoly, hinit, foldl_downBit, feed_align hw hpos, reverse_align hw, BitVec.setWidth_xor]

/-- A byte at the upper end of the register. -/
theorem setWidth_shiftLeft_byte (hw : 8 ≤ w) (h32 : w ≤ 32) (byte : BitVec 8) :
    (byte.setWidth 32 <<< (w - 8)).setWidth w = align w byte := by
  apply BitVec.eq_of_getLsbD_eq
  intro i hi
  simp only [align, BitVec.getLsbD_setWidth, BitVec.getLsbD_shiftLeft]
  simp [hi, show i < 32 by omega, show i - (w - 8) < 32 by omega, show i - (w - 8) < w by omega]

theorem checkCrcWide_eq (hw : 8 ≤ w) (h32 : w ≤ 32) {mode : RefBits} (hmode : Reflects w mode) {sign : BitVec w}
    (hsign : sign = BitVec.twoPow w (w - 1)) (poly init xorOut : BitVec w) (refIn refOut : Bool)
    (buffer : List (BitVec 8)) :
    checkCrcWide mode sign (w - 8) poly init refIn refOut xorOut buffer = value poly init refIn refOut xorOut buffer := by
  have hbyte : ∀ (c : BitVec w) (byte : BitVec 8), Nat.iterate (upBit sign poly) 8
      (c ^^^ ((if refIn then reflectedBits (byte.setWidth 32) .bit8 else byte.setWidth 32) <<< (w - 8)).setWidth w) =
        feed poly c (if refIn then lowFirst byte else highFirst byte) := by
    intro c byte
    rw [upBit_eq_shift hsign (by omega)]
    cases refIn with
    | false => rw [if_neg Bool.false_ne_true, if_neg Bool.false_ne_true, setWidth_shiftLeft_byte hw h32, iterate_highFirst hw]
    | true =>
      have hreflect : reflectedBits (byte.setWidth 32) .bit8 = byte.reverse.setWidth 32 := by
        rw [reflects_bit8, BitVec.setWidth_setWidth_of_le _ (by decide), BitVec.setWidth_eq]
      rw [if_pos rfl, if_pos rfl, hreflect, setWidth_shiftLeft_byte hw h32, iterate_lowFirst hw]
  have hfold : ∀ c : BitVec w, buffer.foldl (fun crc byte => Nat.iterate (upBit sign poly) 8
      (crc ^^^ ((if refIn then reflectedBits (byte.setWidth 32) .bit8 else byte.setWidth 32) <<< (w - 8)).setWidth w)) c =
        feed poly c (bitsOf refIn buffer) := by
    induction buffer with
    | nil => exact fun _ => rfl
    | cons byte buffer ih =>
      intro c
      rw [List.foldl_cons, hbyte, ih, bitsOf_cons, feed_append]
  unfold checkCrcWide value
  dsimp only
  rw [hfold, hmode, BitVec.setWidth_setWidth_of_le _ h32, BitVec.setWidth_setWidth_of_le _ h32, BitVec.setWidth_eq,
    BitVec.setWidth_eq]

/-- The model of the check of a block is the wide one with 32 bits. -/
theorem checkCrc32_eq_wide (poly init xorOut : BitVec 32) (refIn refOut : Bool) (buffer : List (BitVec 8)) :
    checkCrc32 poly init refIn refOut xorOut buffer =
      checkCrcWide .bit32 0x80000000 24 poly init refIn refOut xorOut buffer := by
  unfold checkCrc32 checkCrcWide
  have hbyte : crcByte poly refIn = fun crc byte => Nat.iterate (upBit 0x80000000 poly) 8
      (crc ^^^ ((if refIn then reflectedBits (byte.setWidth 32) .bit8 else byte.setWidth 32) <<< 24).setWidth 32) := by
    funext crc byte
    rw [BitVec.setWidth_eq]
    rfl
  rw [hbyte]
  dsimp only
  rw [BitVec.setWidth_eq, BitVec.setWidth_eq]
  rfl

/-! ## `CrcCheck` -/

/-- The widths of `CrcCheck`. -/
def crcWidths : List Nat := [4, 5, 6, 7, 8, 16, 32]

variable (poly init xorOut : BitVec w) (refIn refOut : Bool) (buffer : List (BitVec 8))

/-- What `CrcCheck` should compute with parameters of the width. -/
abbrev describedCheck : BitVec w :=
  value poly (if w < 8 ∧ refIn then init.reverse else init) refIn (if w < 8 then refIn else refOut) xorOut buffer

theorem crcCheck_narrow (hpos : 0 < w) (hw : w < 8) {mode : RefBits} (hmode : Reflects w mode) :
    (checkCrcNarrow mode (8 - w) ((poly.setWidth 32).setWidth 8) ((init.setWidth 32).setWidth 8) refIn
      ((xorOut.setWidth 32).setWidth 8) buffer).setWidth 32 =
      (describedCheck poly init xorOut refIn refOut buffer).setWidth 32 := by
  have hcut : ∀ x : BitVec w, (x.setWidth 32).setWidth 8 = x.setWidth 8 := fun x => BitVec.setWidth_setWidth (by omega)
  have hback : ∀ x : BitVec w, (x.setWidth 8).setWidth 32 = x.setWidth 32 := fun x => BitVec.setWidth_setWidth (by omega)
  rw [hcut, hcut, hcut, checkCrcNarrow_eq hpos hw.le hmode, hback]
  simp only [describedCheck, hw, true_and, if_true]

theorem crcCheck_wide (hw : 8 ≤ w) (h32 : w ≤ 32) {mode : RefBits} (hmode : Reflects w mode) {sign : BitVec w}
    (hsign : sign = BitVec.twoPow w (w - 1)) :
    (checkCrcWide mode sign (w - 8) ((poly.setWidth 32).setWidth w) ((init.setWidth 32).setWidth w) refIn refOut
      ((xorOut.setWidth 32).setWidth w) buffer).setWidth 32 =
      (describedCheck poly init xorOut refIn refOut buffer).setWidth 32 := by
  have hcut : ∀ x : BitVec w, (x.setWidth 32).setWidth w = x := fun x => by
    rw [BitVec.setWidth_setWidth_of_le _ h32, BitVec.setWidth_eq]
  rw [hcut, hcut, hcut, checkCrcWide_eq hw h32 hmode hsign]
  simp only [describedCheck, Nat.not_lt.mpr hw, false_and, if_false]

theorem crcCheck_described (hw : w ∈ crcWidths) :
    crcCheck ⟨BitVec.ofNat 8 w, poly.setWidth 32, init.setWidth 32, refIn, refOut, xorOut.setWidth 32⟩ buffer =
      (describedCheck poly init xorOut refIn refOut buffer).setWidth 32 := by
  simp only [crcWidths, List.mem_cons, List.not_mem_nil, or_false] at hw
  rcases hw with rfl | rfl | rfl | rfl | rfl | rfl | rfl
  · exact crcCheck_narrow poly init xorOut refIn refOut buffer (by decide) (by decide) reflects_bit4
  · exact crcCheck_narrow poly init xorOut refIn refOut buffer (by decide) (by decide) reflects_bit5
  · exact crcCheck_narrow poly init xorOut refIn refOut buffer (by decide) (by decide) reflects_bit6
  · exact crcCheck_narrow poly init xorOut refIn refOut buffer (by decide) (by decide) reflects_bit7
  · exact crcCheck_wide poly init xorOut refIn refOut buffer (by decide) (by decide) reflects_bit8 (by decide)
  · exact crcCheck_wide poly init xorOut refIn refOut buffer (by decide) (by decide) reflects_bit16 (by decide)
  · change checkCrc32 _ _ _ _ _ _ = _
    rw [checkCrc32_eq_wide, BitVec.setWidth_eq, BitVec.setWidth_eq, BitVec.setWidth_eq,
      checkCrcWide_eq (by decide) (by decide) reflects_bit32 (by decide), BitVec.setWidth_eq]
    simp [describedCheck]

/-- The widths are those of a result. -/
theorem le_of_mem_crcWidths (hw : w ∈ crcWidths) : w ≤ 32 := by
  have hall : ∀ v ∈ crcWidths, v ≤ 32 := by decide
  exact hall w hw

/-- **The checks.** With parameters of the width, `CrcCheck` computes the check that they describe; the narrow checks reflect
the result with the bytes, and their first register too. With an odd polynomial it tells messages of one length apart that
differ within as many consecutive bits as the check has. -/
theorem crcCheck_value (hw : w ∈ crcWidths) :
    (∀ buffer, crcCheck ⟨BitVec.ofNat 8 w, poly.setWidth 32, init.setWidth 32, refIn, refOut, xorOut.setWidth 32⟩ buffer =
      (value poly (if w < 8 ∧ refIn then init.reverse else init) refIn (if w < 8 then refIn else refOut) xorOut
        buffer).setWidth 32) ∧
    (poly.getLsbD 0 = true → ∀ a b : List (BitVec 8), a.length = b.length → a ≠ b →
      ∀ p, (∀ i, (bitsOf refIn a)[i]? ≠ (bitsOf refIn b)[i]? → p ≤ i ∧ i < p + w) →
        crcCheck ⟨BitVec.ofNat 8 w, poly.setWidth 32, init.setWidth 32, refIn, refOut, xorOut.setWidth 32⟩ a ≠
          crcCheck ⟨BitVec.ofNat 8 w, poly.setWidth 32, init.setWidth 32, refIn, refOut, xorOut.setWidth 32⟩ b) := by
  refine ⟨fun buffer => crcCheck_described poly init xorOut refIn refOut buffer hw,
    fun hp a b hlen hne p hwindow heq => ?_⟩
  rw [crcCheck_described _ _ _ _ _ _ hw, crcCheck_described _ _ _ _ _ _ hw] at heq
  have hback := congrArg (BitVec.setWidth w) heq
  rw [BitVec.setWidth_setWidth_of_le _ (le_of_mem_crcWidths hw), BitVec.setWidth_setWidth_of_le _ (le_of_mem_crcWidths hw),
    BitVec.setWidth_eq, BitVec.setWidth_eq] at hback
  exact value_ne_of_burst hp hlen hne hwindow hback

end

/-- The parameters of the XMODEM transfer, and one flipped bit. -/
theorem crcCheck_value_xmodem :
    crcCheck ⟨16, 0x1021, 0, false, false, 0⟩ [0x31, 0x32] ≠ crcCheck ⟨16, 0x1021, 0, false, false, 0⟩ [0x31, 0x33] :=
  (crcCheck_value (w := 16) 0x1021 0 0 false false (by decide)).2 (by decide) [0x31, 0x32] [0x31, 0x33] rfl (by decide) 15
    fun i hi => by
      by_cases h : i < 16
      · interval_cases i <;> first | omega | exact absurd rfl hi
      · have hlen : ∀ a : List (BitVec 8), a.length = 2 → (bitsOf false a)[i]? = none := fun a ha =>
          List.getElem?_eq_none (by rw [length_bitsOf, ha]; omega)
        rw [hlen _ rfl, hlen _ rfl] at hi
        exact absurd rfl hi

end PmemProgram.Cxl
