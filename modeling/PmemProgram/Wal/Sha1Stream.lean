import PmemProgram.Wal.Sha1

/-!
# A hash of a message in parts (`sha1.c`)

`sha1_update` takes a message in parts, keeps what does not fill a block and counts the bits in two words. Its loop variable
is a word, and the length is not.

* `sha1Init`, `sha1Update`, `sha1Final` : the functions, which may not come to an end;
* `Taken` : what a context has taken so far; `sha1Update_taken`, `sha1Update_none` : a part is taken if and only if it ends
  before byte 2 ^ 32 behind the last block;
* **`sha1_parts`** : the digest is the one of the whole message, however it is cut.
-/

namespace PmemProgram.Wal
open Lib.Sha1 (Word Hash)
open Lib.BlockHash (absorb)

/-- `struct sha1_context`. -/
structure Sha1Context where
  state : Hash
  count₀ : Word
  count₁ : Word
  buffer : Fin 64 → Byte

/-- `sha1_init`; the buffer is not set. -/
def sha1Init (context : Sha1Context) : Sha1Context where
  state := Vector.ofFn ![0x67452301, 0xEFCDAB89, 0x98BADCFE, 0x10325476, 0xC3D2E1F0]
  count₀ := 0
  count₁ := 0
  buffer := context.buffer

/-- `memcpy(buffer + j, src, n)`. -/
def copyInto (buffer : Fin 64 → Byte) (j : Nat) (src : List Byte) (n : Nat) : Fin 64 → Byte := fun k =>
  if j ≤ k ∧ k < j + n then src[k - j]?.getD 0 else buffer k

/-- The 64 bytes at `data + i`. -/
def bytesAt (data : List Byte) (i : Nat) : Fin 64 → Byte := fun k => data[i + k]?.getD 0

/-- `for(; i + 63 < len; i += 64)`: the state and `i` at the end; `none` without fuel. -/
def transformLoop (data : List Byte) : Nat → Word → Hash → Option (Hash × Word)
  | 0, _, _ => none
  | fuel + 1, i, state =>
    if (i + 63).toNat < data.length then
      transformLoop data fuel (i + 64) (sha1Transform state (bytesAt data i.toNat))
    else some (state, i)

/-- `(j >> 3) & 63`: the bytes in the buffer. -/
def buffered (context : Sha1Context) : Word := (context.count₀ >>> 3) &&& 63

/-- `sha1_update`. -/
def sha1Update (fuel : Nat) (context : Sha1Context) (data : List Byte) : Option Sha1Context :=
  let len := data.length
  let count₀ := context.count₀ + BitVec.ofNat 32 (len <<< 3)
  let carried := if count₀ < context.count₀ then context.count₁ + 1 else context.count₁
  let count₁ := carried + BitVec.ofNat 32 (len >>> 29)
  let j := buffered context
  if j.toNat + len > 63 then
    let i := 64 - j
    let buffer := copyInto context.buffer j.toNat data i.toNat
    (transformLoop data fuel i (sha1Transform context.state buffer)).map fun r =>
      { state := r.1, count₀, count₁, buffer := copyInto buffer 0 (data.drop r.2.toNat) (len - r.2.toNat) }
  else some { context with count₀, count₁, buffer := copyInto context.buffer j.toNat data len }

/-- `while((context->count[0] & 504) != 448)`. -/
def paddingLoop : Nat → Sha1Context → Option Sha1Context
  | 0, _ => none
  | fuel + 1, context =>
    if context.count₀ &&& 504 ≠ 448 then (sha1Update fuel context [0]).bind (paddingLoop fuel) else some context

/-- `(uint8_t)((value >> ((3 - (i & 3)) * 8)) & 255)`. -/
def byteAt (value : Word) (i : Nat) : Byte := ⟨((value >>> ((3 - i % 4) * 8)) &&& 255).setWidth 8⟩

/-- `finalcount`. -/
def finalCount (context : Sha1Context) : List Byte :=
  List.ofFn fun i : Fin 8 => byteAt (if 4 ≤ i.val then context.count₀ else context.count₁) i

theorem word_lt (i : Fin 20) : i.val / 4 < 5 := Nat.div_lt_of_lt_mul i.isLt

/-- `i >> 2`. -/
def wordOfByte (i : Fin 20) : Fin 5 := ⟨i / 4, word_lt i⟩

/-- `sha1_final`. -/
def sha1Final (fuel : Nat) (context : Sha1Context) : Option (Fin 20 → Byte) :=
  let finalcount := finalCount context
  (sha1Update fuel context [0x80]).bind fun context =>
    (paddingLoop fuel context).bind fun context =>
      (sha1Update fuel context finalcount).map fun context => fun i => byteAt (context.state.get (wordOfByte i)) i

/-- A message in parts, from any content of the context on. -/
def sha1Parts (fuel : Nat) (context : Sha1Context) (parts : List (List Byte)) : Option (Fin 20 → Byte) :=
  (parts.foldlM (sha1Update fuel) (sha1Init context)).bind (sha1Final fuel)

/-! ## The loop -/

section
variable {data : List Byte} {j : Nat}

/-- While the loop does not pass byte 2 ^ 32 it takes all whole blocks. -/
theorem transformLoop_absorb (hlen : data.length + j < 2 ^ 32) {fuel : Nat} {i : Word} (hfuel : data.length < fuel + i.toNat)
    (hi : i.toNat ≤ data.length) (hj : (i.toNat + j) % 64 = 0) (state : Hash) :
    ∃ i' : Word, i'.toNat ≤ data.length ∧
      transformLoop data fuel i state = some ((absorb Lib.Sha1.compress state (data.drop i.toNat)).1, i') ∧
      (absorb Lib.Sha1.compress state (data.drop i.toNat)).2 = data.drop i'.toNat := by
  induction fuel generalizing i state with
  | zero => omega
  | succ fuel ih =>
    have h63 : (i + 63).toNat = i.toNat + 63 := by
      rw [BitVec.toNat_add, show (63 : Word).toNat = 63 from rfl]
      omega
    rw [transformLoop, h63]
    split_ifs with hlt
    · have h64 : (i + 64).toNat = i.toNat + 64 := by
        rw [BitVec.toNat_add, show (64 : Word).toNat = 64 from rfl]
        omega
      have hlong : 64 ≤ (data.drop i.toNat).length := by
        rw [List.length_drop]
        omega
      have hblock : Lib.BlockHash.block (data.drop i.toNat) hlong = bytesAt data i.toNat := by
        funext k
        have hk : i.toNat + k < data.length := by
          have := k.isLt
          omega
        rw [Lib.BlockHash.block, Fin.getElem_fin, List.getElem_drop, bytesAt, List.getElem?_eq_getElem hk, Option.getD_some]
      rw [Lib.BlockHash.absorb_long (by decide) hlong, hblock, List.drop_drop, ← h64, ← sha1Transform_eq]
      exact ih (by omega) (by omega) (by omega) _
    · have hshort : (data.drop i.toNat).length < 64 := by
        rw [List.length_drop]
        omega
      rw [Lib.BlockHash.absorb_short hshort]
      exact ⟨i, hi, rfl, rfl⟩

theorem transformLoop_mono {fuel : Nat} {i : Word} {state : Hash} {r : Hash × Word}
    (h : transformLoop data fuel i state = some r) (n : Nat) : transformLoop data (fuel + n) i state = some r := by
  induction fuel generalizing i state with
  | zero => cases h
  | succ fuel ih =>
    rw [Nat.succ_add, transformLoop]
    rw [transformLoop] at h
    split_ifs at h ⊢ with hlt
    · exact ih h
    · exact h

/-- Behind it the loop variable starts again. -/
theorem transformLoop_none (hlen : 2 ^ 32 ≤ data.length + j) (hj64 : j < 64) (fuel : Nat) {i : Word}
    (hj : (i.toNat + j) % 64 = 0) (state : Hash) : transformLoop data fuel i state = none := by
  induction fuel generalizing i state with
  | zero => rfl
  | succ fuel ih =>
    have h63 : (i + 63).toNat < data.length := by
      rw [BitVec.toNat_add, show (63 : Word).toNat = 63 from rfl]
      omega
    rw [transformLoop, if_pos h63]
    refine ih ?_ _
    rw [BitVec.toNat_add, show (64 : Word).toNat = 64 from rfl]
    omega

end

/-! ## A part of a message -/

/-- What a context has taken. -/
structure Taken (context : Sha1Context) (message : List Byte) : Prop where
  state : context.state = (absorb Lib.Sha1.compress Lib.Sha1.initial message).1
  count : context.count₁.toNat * 2 ^ 32 + context.count₀.toNat = 8 * message.length % 2 ^ 64
  buffer : ∀ k : Fin 64, k < message.length % 64 →
    (absorb Lib.Sha1.compress Lib.Sha1.initial message).2[k.val]? = some (context.buffer k)

section
variable {context : Sha1Context} {message data : List Byte} {fuel : Nat}

theorem toNat_buffered (context : Sha1Context) : (buffered context).toNat = context.count₀.toNat / 8 % 64 := by
  rw [buffered, BitVec.toNat_and, BitVec.toNat_ushiftRight, Nat.shiftRight_eq_div_pow,
    show (63 : Word).toNat = 2 ^ 6 - 1 from rfl, Nat.and_two_pow_sub_one_eq_mod]

theorem Taken.buffered (h : Taken context message) : (buffered context).toNat = message.length % 64 := by
  have hcount := h.count
  have := context.count₀.isLt
  rw [toNat_buffered]
  omega

/-- The bits are counted in two words. -/
theorem count_add (a b : Word) (len : Nat) :
    ((if a + BitVec.ofNat 32 (len <<< 3) < a then b + 1 else b) + BitVec.ofNat 32 (len >>> 29)).toNat * 2 ^ 32 +
      (a + BitVec.ofNat 32 (len <<< 3)).toNat = (b.toNat * 2 ^ 32 + a.toNat + 8 * len) % 2 ^ 64 := by
  have ha := a.isLt
  have hb := b.isLt
  have hsum : (a + BitVec.ofNat 32 (len <<< 3)).toNat = (a.toNat + 8 * len) % 2 ^ 32 := by
    rw [BitVec.toNat_add, BitVec.toNat_ofNat, Nat.shiftLeft_eq]
    omega
  rw [BitVec.toNat_add, BitVec.toNat_ofNat, Nat.shiftRight_eq_div_pow, hsum]
  split_ifs with hlt
  all_goals rw [BitVec.lt_def, hsum] at hlt
  · rw [BitVec.toNat_add, show (1 : Word).toNat = 1 from rfl]
    omega
  · omega

theorem Taken.length_rest (_ : Taken context message) :
    (absorb Lib.Sha1.compress Lib.Sha1.initial message).2.length = message.length % 64 :=
  Lib.BlockHash.length_absorb (by decide) _ _

theorem copyInto_mem (buffer : Fin 64 → Byte) {j n : Nat} {src : List Byte} {k : Fin 64} (hk : j ≤ k ∧ k < j + n)
    (hsrc : k - j < src.length) : src[k - j]? = some (copyInto buffer j src n k) := by
  rw [copyInto, if_pos hk, List.getElem?_eq_getElem hsrc, Option.getD_some]

/-- The buffer, filled up. -/
theorem Taken.block (h : Taken context message)
    (hlong : 64 ≤ ((absorb Lib.Sha1.compress Lib.Sha1.initial message).2 ++ data).length) :
    Lib.BlockHash.block ((absorb Lib.Sha1.compress Lib.Sha1.initial message).2 ++ data) hlong =
      copyInto context.buffer (message.length % 64) data (64 - message.length % 64) := by
  have hrest := h.length_rest
  rw [List.length_append, hrest] at hlong
  funext k
  have hk := k.isLt
  rw [Lib.BlockHash.block, Fin.getElem_fin]
  apply Option.some_injective
  rw [← List.getElem?_eq_getElem]
  by_cases hlt : k < message.length % 64
  · rw [copyInto, if_neg (by omega), List.getElem?_append_left (hlt.trans_eq hrest.symm), h.buffer k hlt]
  · rw [List.getElem?_append_right (by omega), hrest]
    exact copyInto_mem _ (by omega) (by omega)

/-- The bytes that the buffer lacks. -/
theorem Taken.lacks (h : Taken context message) :
    (64 - Wal.buffered context : Word).toNat = 64 - message.length % 64 := by
  have hj := h.buffered
  rw [BitVec.toNat_sub, hj, show (64 : Word).toNat = 64 from rfl]
  omega

theorem Taken.count_append (h : Taken context message) (data : List Byte) :
    ((if context.count₀ + BitVec.ofNat 32 (data.length <<< 3) < context.count₀ then context.count₁ + 1
      else context.count₁) + BitVec.ofNat 32 (data.length >>> 29)).toNat * 2 ^ 32 +
      (context.count₀ + BitVec.ofNat 32 (data.length <<< 3)).toNat = 8 * (message ++ data).length % 2 ^ 64 := by
  rw [count_add, h.count, List.length_append]
  omega

/-- **A part is taken** if it ends before byte 2 ^ 32 behind the last block. -/
theorem sha1Update_taken (h : Taken context message) (hlen : message.length % 64 + data.length < 2 ^ 32)
    (hfuel : data.length < fuel) : ∃ context', sha1Update fuel context data = some context' ∧
      Taken context' (message ++ data) := by
  have hj := h.buffered
  have hi := h.lacks
  have hrest := h.length_rest
  have happend := Lib.BlockHash.absorb_append (f := Lib.Sha1.compress) (by decide) Lib.Sha1.initial message data
  unfold sha1Update
  dsimp only
  rw [hj, hi]
  by_cases hlong : message.length % 64 + data.length > 63
  · -- The buffer is filled up, and whole blocks are taken from the data itself.
    have hle : 64 ≤ ((absorb Lib.Sha1.compress Lib.Sha1.initial message).2 ++ data).length := by
      rw [List.length_append, hrest]
      omega
    rw [Lib.BlockHash.absorb_long (by decide) hle, h.block hle, List.drop_append, hrest,
      List.drop_eq_nil_of_le (by omega), List.nil_append, ← h.state, ← sha1Transform_eq, ← hi] at happend
    obtain ⟨i', hi', hloop, hleft⟩ := transformLoop_absorb (j := message.length % 64) (i := 64 - buffered context)
      (show data.length + message.length % 64 < 2 ^ 32 by omega) (show data.length < fuel + _ by omega) (by omega) (by omega)
      (sha1Transform context.state
        (copyInto context.buffer (message.length % 64) data (64 - buffered context : Word).toNat))
    rw [← hi, if_pos hlong, hloop]
    refine ⟨_, rfl, ?_, h.count_append data, ?_⟩
    · rw [happend]
    · intro k hk
      have hrest' := Lib.BlockHash.length_absorb (f := Lib.Sha1.compress) (by decide) Lib.Sha1.initial (message ++ data)
      rw [happend, hleft] at hrest'
      rw [happend, hleft]
      rw [List.length_drop] at hrest'
      have hlt : k.val < 0 + (data.length - i'.toNat) := by omega
      exact copyInto_mem _ ⟨Nat.zero_le _, hlt⟩ (by rw [List.length_drop]; omega)
  · have hshort : ((absorb Lib.Sha1.compress Lib.Sha1.initial message).2 ++ data).length < 64 := by
      rw [List.length_append, hrest]
      omega
    rw [Lib.BlockHash.absorb_short hshort] at happend
    rw [if_neg hlong]
    refine ⟨_, rfl, ?_, h.count_append data, ?_⟩
    · rw [happend]
      exact h.state
    · intro k hk
      have hlength : (message ++ data).length % 64 = message.length % 64 + data.length := by
        rw [List.length_append]
        omega
      rw [happend]
      by_cases hlt : k < message.length % 64
      · have hkeep : copyInto context.buffer (message.length % 64) data data.length k = context.buffer k := by
          rw [copyInto, if_neg (by omega)]
        rw [List.getElem?_append_left (hlt.trans_eq hrest.symm), h.buffer k hlt]
        exact congrArg some hkeep.symm
      · rw [List.getElem?_append_right (by omega), hrest]
        exact copyInto_mem _ (by omega) (by omega)

/-- What is taken with little fuel is taken with more. -/
theorem sha1Update_mono {context' : Sha1Context} (h : sha1Update fuel context data = some context') (n : Nat) :
    sha1Update (fuel + n) context data = some context' := by
  unfold sha1Update at h ⊢
  dsimp only at h ⊢
  split at h
  · rename_i hlong
    obtain ⟨r, hr, rfl⟩ := Option.map_eq_some_iff.mp h
    rw [if_pos hlong, transformLoop_mono hr n]
    rfl
  · rename_i hshort
    rwa [if_neg hshort]

/-- No other part is. -/
theorem sha1Update_none (h : Taken context message) (hlen : 2 ^ 32 ≤ message.length % 64 + data.length) (fuel : Nat) :
    sha1Update fuel context data = none := by
  have hi := h.lacks
  unfold sha1Update
  dsimp only
  rw [h.buffered, if_pos (by omega), transformLoop_none (j := message.length % 64) (by omega) (by omega) fuel (by omega)]
  rfl

end

/-! ## The padding and the digest -/

section
variable {context : Sha1Context} {message : List Byte} {fuel : Nat}

theorem taken_init (context : Sha1Context) : Taken (sha1Init context) [] where
  state := by rw [Lib.BlockHash.absorb_short (by decide)]; rfl
  count := by simp [sha1Init]
  buffer k hk := absurd hk (Nat.not_lt_zero k)

/-- The loop stops where the length is missing to a block. -/
theorem Taken.full (h : Taken context message) : context.count₀ &&& 504 = 448 ↔ message.length % 64 = 56 := by
  have hshift : context.count₀ &&& (504 : Word) = Wal.buffered context <<< 3 := by
    apply BitVec.eq_of_getLsbD_eq
    intro i hi
    simp only [Wal.buffered, BitVec.getLsbD_and, BitVec.getLsbD_shiftLeft, BitVec.getLsbD_ushiftRight]
    interval_cases i <;> simp
  rw [hshift, ← BitVec.toNat_inj, BitVec.toNat_shiftLeft, Nat.shiftLeft_eq, h.buffered,
    show (448 : Word).toNat = 448 from rfl]
  omega

theorem paddingLoop_taken (n : Nat) (h : Taken context message) (hn : (message.length + n) % 64 = 56) (hn64 : n < 64)
    (hfuel : n + 2 < fuel) : ∃ context', paddingLoop fuel context = some context' ∧
      Taken context' (message ++ List.replicate n 0) := by
  induction n generalizing context message fuel with
  | zero =>
    obtain ⟨fuel, rfl⟩ : ∃ m, fuel = m + 1 := ⟨fuel - 1, by omega⟩
    rw [paddingLoop, if_neg (not_not.mpr (h.full.mpr hn))]
    exact ⟨context, rfl, by rwa [List.replicate_zero, List.append_nil]⟩
  | succ n ih =>
    obtain ⟨fuel, rfl⟩ : ∃ m, fuel = m + 1 := ⟨fuel - 1, by omega⟩
    obtain ⟨context', hupdate, h'⟩ := sha1Update_taken h (show message.length % 64 + [0].length < 2 ^ 32 by
      rw [List.length_singleton]
      omega) (show [0].length < fuel by
      rw [List.length_singleton]
      omega)
    have hlength : (message ++ [0]).length = message.length + 1 := by
      rw [List.length_append, List.length_singleton]
    have hnext := ih h' (by rw [hlength]; omega) (by omega) (show n + 2 < fuel by omega)
    rw [paddingLoop, if_pos (fun hfull => by have := h.full.mp hfull; omega), hupdate]
    rwa [List.append_assoc, List.singleton_append, ← List.replicate_succ] at hnext

theorem byteAt_eq (value : Word) (i : Nat) : byteAt value i = Lib.Sha1.byteOf value (i % 4) := by
  have hbits : ((value >>> ((3 - i % 4) * 8)) &&& 255).setWidth 8 = value.extractLsb' (8 * (3 - i % 4)) 8 := by
    apply BitVec.eq_of_getLsbD_eq
    intro k hk
    have h255 : (255 : Word).getLsbD k = true := by
      interval_cases k <;> rfl
    rw [BitVec.getLsbD_setWidth, BitVec.getLsbD_and, BitVec.getLsbD_ushiftRight, h255, BitVec.getLsbD_extractLsb',
      Nat.mul_comm]
    simp
  exact congrArg UInt8.ofBitVec hbits

theorem Taken.finalCount (h : Taken context message) : finalCount context = Lib.Sha1.lengthBytes message.length := by
  have hcount := h.count
  have hlow : context.count₀ = BitVec.ofNat 32 (8 * message.length) := by
    apply BitVec.eq_of_toNat_eq
    have := context.count₀.isLt
    rw [BitVec.toNat_ofNat]
    omega
  have hhigh : context.count₁ = BitVec.ofNat 32 (8 * message.length / 2 ^ 32) := by
    apply BitVec.eq_of_toNat_eq
    have := context.count₀.isLt
    have := context.count₁.isLt
    rw [BitVec.toNat_ofNat]
    omega
  unfold Wal.finalCount Lib.Sha1.lengthBytes
  congr 1
  funext i
  rw [byteAt_eq, hlow, hhigh]
  by_cases hi : i < 4
  · rw [if_pos hi, if_neg (by omega)]
  · rw [if_neg hi, if_pos (by omega)]

/-- The digest of what the context has taken. -/
theorem sha1Final_eq (h : Taken context message) (hfuel : 66 < fuel) :
    sha1Final fuel context = some (Lib.Sha1.digest message) := by
  have hzeros : Lib.Sha1.zeros message.length < 64 := Nat.mod_lt _ (by decide)
  obtain ⟨c₁, hc₁, h₁⟩ := sha1Update_taken h (show message.length % 64 + [0x80].length < 2 ^ 32 by
    rw [List.length_singleton]
    omega) (show [0x80].length < fuel by
    rw [List.length_singleton]
    omega)
  have hlength : (message ++ [0x80]).length = message.length + 1 := by
    rw [List.length_append, List.length_singleton]
  obtain ⟨c₂, hc₂, h₂⟩ := paddingLoop_taken (Lib.Sha1.zeros message.length) h₁
    (by rw [hlength, Lib.Sha1.zeros]; omega) hzeros (show _ + 2 < fuel by omega)
  have height := Lib.Sha1.length_lengthBytes message.length
  obtain ⟨c₃, hc₃, h₃⟩ := sha1Update_taken h₂
    (show _ + (Lib.Sha1.lengthBytes message.length).length < 2 ^ 32 by omega) (show _ < fuel by omega)
  have hpadded : message ++ [0x80] ++ List.replicate (Lib.Sha1.zeros message.length) 0 ++
      Lib.Sha1.lengthBytes message.length = message ++ Lib.Sha1.padding message.length := by
    simp only [Lib.Sha1.padding, List.append_assoc, List.cons_append, List.nil_append]
  unfold sha1Final
  rw [hc₁, Option.bind_some, hc₂, Option.bind_some, h.finalCount, hc₃, Option.map_some]
  congr 1
  funext i
  rw [byteAt_eq, h₃.state, hpadded]
  rfl

end

/-- No part goes to byte 2 ^ 32 behind the last block before it; `n` bytes are taken already. -/
def PartsFit : Nat → List (List Byte) → Prop
  | _, [] => True
  | n, part :: parts => n % 64 + part.length < 2 ^ 32 ∧ PartsFit (n + part.length) parts

section
variable {context : Sha1Context} {message : List Byte} {parts : List (List Byte)} {fuel : Nat}

theorem foldlM_taken (h : Taken context message) (hfit : PartsFit message.length parts)
    (hfuel : parts.flatten.length < fuel) : ∃ context', parts.foldlM (sha1Update fuel) context = some context' ∧
      Taken context' (message ++ parts.flatten) := by
  induction parts generalizing context message with
  | nil => exact ⟨context, rfl, by rwa [List.flatten_nil, List.append_nil]⟩
  | cons part parts ih =>
    rw [List.flatten_cons, List.length_append] at hfuel
    obtain ⟨c, hc, hpart⟩ := sha1Update_taken h hfit.1 (show part.length < fuel by omega)
    obtain ⟨c', hc', hparts⟩ := ih hpart (by rw [List.length_append]; exact hfit.2) (by omega)
    refine ⟨c', ?_, ?_⟩
    · rw [List.foldlM_cons, hc]
      exact hc'
    · rwa [List.flatten_cons, ← List.append_assoc]

theorem foldlM_none (h : Taken context message) (hfit : ¬ PartsFit message.length parts) :
    parts.foldlM (sha1Update fuel) context = none := by
  induction parts generalizing context message with
  | nil => exact absurd trivial hfit
  | cons part parts ih =>
    rw [List.foldlM_cons]
    rcases hc : sha1Update fuel context part with _ | c
    · rfl
    · have hlen : message.length % 64 + part.length < 2 ^ 32 := by
        by_contra hlong
        rw [sha1Update_none h (by omega)] at hc
        cases hc
      obtain ⟨c', hc', hpart⟩ := sha1Update_taken h hlen (show part.length < fuel + (part.length + 1) by omega)
      rw [sha1Update_mono hc] at hc'
      cases hc'
      exact ih hpart fun hrest => hfit ⟨hlen, by rwa [List.length_append] at hrest⟩

theorem sha1Parts_eq (hfit : PartsFit 0 parts) (context : Sha1Context) (hfuel : parts.flatten.length + 66 < fuel) :
    sha1Parts fuel context parts = some (Lib.Sha1.digest parts.flatten) := by
  obtain ⟨c, hc, h⟩ := foldlM_taken (taken_init context) hfit (show parts.flatten.length < fuel by omega)
  rw [sha1Parts, hc, Option.bind_some]
  exact sha1Final_eq h (by omega)

theorem sha1Parts_none (hfit : ¬ PartsFit 0 parts) : sha1Parts fuel context parts = none := by
  rw [sha1Parts, foldlM_none (taken_init context) hfit]
  rfl

/-- **Messages in parts.** The digest is the one of the whole message, however it is cut; but a part that goes to byte
2 ^ 32 behind the last block before it is never taken. -/
theorem sha1_parts (context : Sha1Context) (parts : List (List Byte)) :
    (PartsFit 0 parts → ∀ fuel, parts.flatten.length + 66 < fuel →
      sha1Parts fuel context parts = some (Lib.Sha1.digest parts.flatten)) ∧
    (¬ PartsFit 0 parts → ∀ fuel, sha1Parts fuel context parts = none) :=
  ⟨fun hfit _ hfuel => sha1Parts_eq hfit context hfuel, fun hfit _ => sha1Parts_none hfit⟩

end

end PmemProgram.Wal
