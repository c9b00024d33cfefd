import PmemProgram.Lib.BlockHash

/-!
# SHA-1

The hash as the standard defines it: a schedule of 80 words for each block of 16, a round for each word, and a padding of one
bit, zeros and the length in bits. No word is kept in place of another, and no message is cut.

* `schedule` : the words of a block, `schedule_lt` and `schedule_add` their recurrence;
* `work` : the five working words after the first rounds;
* `compress`, `padding`, `hash`, `digest`.
-/

namespace PmemProgram.Lib.Sha1
open BlockHash

abbrev Word := BitVec 32

/-- The words of a hash: `a`, `b`, `c`, `d` and `e`. -/
abbrev Hash := Vector Word 5

/-- A rotation to the left. -/
def rotl (x : Word) (n : Nat) : Word := x.rotateLeft n

def ch (x y z : Word) : Word := (x &&& y) ^^^ (~~~ x &&& z)

def parity (x y z : Word) : Word := x ^^^ y ^^^ z

def maj (x y z : Word) : Word := (x &&& y) ^^^ (x &&& z) ^^^ (y &&& z)

/-- The function of a round. -/
def function (t : Nat) : Word → Word → Word → Word :=
  if t < 20 then ch else if t < 40 then parity else if t < 60 then maj else parity

/-- The constant of a round. -/
def constant (t : Nat) : Word :=
  if t < 20 then 0x5a827999 else if t < 40 then 0x6ed9eba1 else if t < 60 then 0x8f1bbcdc else 0xca62c1d6

/-- Sixteen words of the schedule, from word `t` on. -/
def window (m : Vector Word 16) : Nat → Vector Word 16
  | 0 => m
  | t + 1 =>
    let w := window m t
    Vector.ofFn fun k => if h : k.val < 15 then w[k.val + 1] else rotl (w[13] ^^^ w[8] ^^^ w[2] ^^^ w[0]) 1

/-- The schedule of a block. -/
def schedule (m : Vector Word 16) (t : Nat) : Word := (window m t)[0]

/-- The working words after the first `t` rounds. -/
def work (h : Hash) (w : Nat → Word) : Nat → Hash
  | 0 => h
  | t + 1 =>
    let v := work h w t
    #v[rotl v[0] 5 + function t v[1] v[2] v[3] + v[4] + constant t + w t, v[0], rotl v[1] 30, v[2], v[3]]

/-- A word from its bytes, the highest first. -/
def wordOf (x₀ x₁ x₂ x₃ : UInt8) : Word := x₀.toBitVec ++ x₁.toBitVec ++ x₂.toBitVec ++ x₃.toBitVec

/-- The words of a block. -/
def words (block : Fin 64 → UInt8) : Vector Word 16 := Vector.ofFn fun t =>
  wordOf (block ⟨4 * t, by omega⟩) (block ⟨4 * t + 1, by omega⟩) (block ⟨4 * t + 2, by omega⟩)
    (block ⟨4 * t + 3, by omega⟩)

/-- The hash after a block. -/
def compress (h : Hash) (block : Fin 64 → UInt8) : Hash :=
  Vector.zipWith (· + ·) h (work h (schedule (words block)) 80)

def initial : Hash := #v[0x67452301, 0xefcdab89, 0x98badcfe, 0x10325476, 0xc3d2e1f0]

/-- Byte `i` of a word, the highest first. -/
def byteOf (x : Word) (i : Nat) : UInt8 := ⟨x.extractLsb' (8 * (3 - i)) 8⟩

/-- The number of zero bytes of the padding: the least that completes a block with the bit before them and the length. -/
def zeros (len : Nat) : Nat := (119 - len % 64) % 64

/-- The length in bits, as two words. -/
def lengthBytes (len : Nat) : List UInt8 :=
  List.ofFn fun i : Fin 8 => byteOf (BitVec.ofNat 32 (if i < 4 then 8 * len / 2 ^ 32 else 8 * len)) (i % 4)

def padding (len : Nat) : List UInt8 := 0x80 :: (List.replicate (zeros len) 0 ++ lengthBytes len)

/-- The words of the hash of a message. -/
def hash (message : List UInt8) : Hash := (absorb compress initial (message ++ padding message.length)).1

/-- The hash of a message. -/
def digest (message : List UInt8) : Fin 20 → UInt8 := fun i => byteOf (hash message)[i.val / 4] (i % 4)

theorem getLsbD_wordOf (x₀ x₁ x₂ x₃ : UInt8) (i : Nat) : (wordOf x₀ x₁ x₂ x₃).getLsbD i =
    if i < 8 then x₃.toBitVec.getLsbD i else if i < 16 then x₂.toBitVec.getLsbD (i - 8)
      else if i < 24 then x₁.toBitVec.getLsbD (i - 16) else x₀.toBitVec.getLsbD (i - 24) := by
  have happend : (wordOf x₀ x₁ x₂ x₃).getLsbD i =
      (x₀.toBitVec ++ x₁.toBitVec ++ x₂.toBitVec ++ x₃.toBitVec : BitVec (8 + 8 + 8 + 8)).getLsbD i := rfl
  rw [happend, BitVec.getLsbD_append, BitVec.getLsbD_append, BitVec.getLsbD_append]
  grind

/-! ## The schedule -/

section
variable {m : Vector Word 16}

theorem window_eq {t k : Nat} (hk : k < 16) : (window m t)[k] = schedule m (t + k) := by
  unfold schedule
  induction k generalizing t with
  | zero => rfl
  | succ k ih =>
    have hstep : (window m t)[k + 1] = (window m (t + 1))[k] := by
      rw [window, Vector.getElem_ofFn, dif_pos (show k < 15 by omega)]
    rw [hstep, ih (by omega)]
    congr 2
    omega

/-- The first words are the ones of the block. -/
theorem schedule_lt {t : Nat} (ht : t < 16) : schedule m t = m[t] := by
  have h := window_eq (m := m) (t := 0) ht
  rw [Nat.zero_add] at h
  exact h.symm

/-- Each later word comes from four earlier ones. -/
theorem schedule_add (t : Nat) :
    schedule m (t + 16) = rotl (schedule m (t + 13) ^^^ schedule m (t + 8) ^^^ schedule m (t + 2) ^^^ schedule m t) 1 := by
  have hlast : schedule m (t + 16) = (window m (t + 1))[15] := by
    rw [window_eq, Nat.add_right_comm]
  rw [hlast, window, Vector.getElem_ofFn, dif_neg (Nat.lt_irrefl 15), window_eq, window_eq, window_eq, window_eq,
    Nat.add_zero t]

end

theorem length_lengthBytes (len : Nat) : (lengthBytes len).length = 8 := List.length_ofFn

end PmemProgram.Lib.Sha1
