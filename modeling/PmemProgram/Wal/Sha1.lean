import PmemProgram.Lib.Sha1
import PmemProgram.Wal.Aofguard

/-!
# The hash of a file name (`sha1.c`)

The five working words stay where they are and change their names from round to round; the schedule is kept in the sixteen
words of the block.

* `sha1Rounds` : the rounds as they are written, `sha1Rounds_eq` : how the names move;
* `sha1Transform` : the words after a block; `RoundState` : the invariant of the rounds;
* **`sha1Transform_eq`** : it is the compression of the standard.
-/

namespace PmemProgram.Wal
open Lib.Sha1 (Word Hash)

/-- `rol(value, bits)`. -/
def rol (value : Word) (bits : Nat) : Word := (value <<< bits) ||| (value >>> (32 - bits))

/-- `blk0(i)`, on a little-endian machine: the word with its bytes reversed, kept in the block. -/
def blk0 (block : Vector Word 16) (i : Fin 16) : Vector Word 16 :=
  block.set i ((rol (block.get i) 24 &&& 0xFF00FF00) ||| (rol (block.get i) 8 &&& 0x00FF00FF))

/-- `blk(i)`. -/
def blk (block : Vector Word 16) (i : Nat) : Vector Word 16 :=
  block.set (i % 16) (rol (block[(i + 13) % 16] ^^^ block[(i + 8) % 16] ^^^ block[(i + 2) % 16] ^^^ block[i % 16]) 1)

/-- A round as it is written; `v` to `z` are the variables it is written with. -/
inductive Round
  | R0 (v w x y z : Fin 5) (i : Fin 16)
  | R1 (v w x y z : Fin 5) (i : Nat)
  | R2 (v w x y z : Fin 5) (i : Nat)
  | R3 (v w x y z : Fin 5) (i : Nat)
  | R4 (v w x y z : Fin 5) (i : Nat)
deriving DecidableEq

/-- The local variables of `sha1_transform`: the block, and `a` to `e`. -/
structure Locals where
  block : Vector Word 16
  vars : Hash

/-- `z += f(w, x, y) + blk(i) + k + rol(v, 5); w = rol(w, 30)`, with what `blk(i)` has made of the block. -/
def Locals.round (s : Locals) (f : Word → Word → Word → Word) (k : Word) (v w x y z : Fin 5) (block : Vector Word 16)
    (i : Fin 16) : Locals :=
  let vars := s.vars.set z
    (s.vars.get z + (f (s.vars.get w) (s.vars.get x) (s.vars.get y) + block.get i + k + rol (s.vars.get v) 5))
  { block := block, vars := vars.set w (rol (vars.get w) 30) }

/-- `i & 15`. -/
def low (i : Nat) : Fin 16 := ⟨i % 16, Nat.mod_lt _ (by decide)⟩

def Round.run (s : Locals) : Round → Locals
  | .R0 v w x y z i => s.round (fun w x y => (w &&& (x ^^^ y)) ^^^ y) 0x5A827999 v w x y z (blk0 s.block i) i
  | .R1 v w x y z i => s.round (fun w x y => (w &&& (x ^^^ y)) ^^^ y) 0x5A827999 v w x y z (blk s.block i) (low i)
  | .R2 v w x y z i => s.round (fun w x y => w ^^^ x ^^^ y) 0x6ED9EBA1 v w x y z (blk s.block i) (low i)
  | .R3 v w x y z i => s.round (fun w x y => ((w ||| x) &&& y) ||| (w &&& x)) 0x8F1BBCDC v w x y z (blk s.block i) (low i)
  | .R4 v w x y z i => s.round (fun w x y => w ^^^ x ^^^ y) 0xCA62C1D6 v w x y z (blk s.block i) (low i)

/-- The rounds of `sha1_transform`. -/
def sha1Rounds : List Round :=
  let a : Fin 5 := 0
  let b : Fin 5 := 1
  let c : Fin 5 := 2
  let d : Fin 5 := 3
  let e : Fin 5 := 4
  [.R0 a b c d e 0, .R0 e a b c d 1, .R0 d e a b c 2, .R0 c d e a b 3,
    .R0 b c d e a 4, .R0 a b c d e 5, .R0 e a b c d 6, .R0 d e a b c 7,
    .R0 c d e a b 8, .R0 b c d e a 9, .R0 a b c d e 10, .R0 e a b c d 11,
    .R0 d e a b c 12, .R0 c d e a b 13, .R0 b c d e a 14, .R0 a b c d e 15,
    .R1 e a b c d 16, .R1 d e a b c 17, .R1 c d e a b 18, .R1 b c d e a 19,
    .R2 a b c d e 20, .R2 e a b c d 21, .R2 d e a b c 22, .R2 c d e a b 23,
    .R2 b c d e a 24, .R2 a b c d e 25, .R2 e a b c d 26, .R2 d e a b c 27,
    .R2 c d e a b 28, .R2 b c d e a 29, .R2 a b c d e 30, .R2 e a b c d 31,
    .R2 d e a b c 32, .R2 c d e a b 33, .R2 b c d e a 34, .R2 a b c d e 35,
    .R2 e a b c d 36, .R2 d e a b c 37, .R2 c d e a b 38, .R2 b c d e a 39,
    .R3 a b c d e 40, .R3 e a b c d 41, .R3 d e a b c 42, .R3 c d e a b 43,
    .R3 b c d e a 44, .R3 a b c d e 45, .R3 e a b c d 46, .R3 d e a b c 47,
    .R3 c d e a b 48, .R3 b c d e a 49, .R3 a b c d e 50, .R3 e a b c d 51,
    .R3 d e a b c 52, .R3 c d e a b 53, .R3 b c d e a 54, .R3 a b c d e 55,
    .R3 e a b c d 56, .R3 d e a b c 57, .R3 c d e a b 58, .R3 b c d e a 59,
    .R4 a b c d e 60, .R4 e a b c d 61, .R4 d e a b c 62, .R4 c d e a b 63,
    .R4 b c d e a 64, .R4 a b c d e 65, .R4 e a b c d 66, .R4 d e a b c 67,
    .R4 c d e a b 68, .R4 b c d e a 69, .R4 a b c d e 70, .R4 e a b c d 71,
    .R4 d e a b c 72, .R4 c d e a b 73, .R4 b c d e a 74, .R4 a b c d e 75,
    .R4 e a b c d 76, .R4 d e a b c 77, .R4 c d e a b 78, .R4 b c d e a 79]

/-- Byte `k` of word `t` of a block. -/
def byteOfWord (buffer : Fin 64 → Byte) (t : Fin 16) (k : Nat) : Byte :=
  if h : 4 * t.val + k < 64 then buffer ⟨4 * t + k, h⟩ else 0

/-- `memcpy(block, buffer, 64)`, on a little-endian machine. -/
def loadBlock (buffer : Fin 64 → Byte) : Vector Word 16 := Vector.ofFn fun t =>
  Lib.Sha1.wordOf (byteOfWord buffer t 3) (byteOfWord buffer t 2) (byteOfWord buffer t 1) (byteOfWord buffer t 0)

/-- `sha1_transform`. -/
def sha1Transform (state : Hash) (buffer : Fin 64 → Byte) : Hash :=
  Vector.zipWith (· + ·) state (sha1Rounds.foldl Round.run ⟨loadBlock buffer, state⟩).vars

/-! ## The words -/

theorem rol_eq {value : Word} {bits : Nat} (h : bits < 32) : rol value bits = Lib.Sha1.rotl value bits := by
  rw [rol, Lib.Sha1.rotl, BitVec.rotateLeft_def, Nat.mod_eq_of_lt h]

theorem choose_eq (w x y : Word) : (w &&& (x ^^^ y)) ^^^ y = Lib.Sha1.ch w x y := by
  unfold Lib.Sha1.ch
  ext i
  simp only [BitVec.getElem_xor, BitVec.getElem_and, BitVec.getElem_not]
  cases w[i] <;> cases x[i] <;> cases y[i] <;> rfl

theorem majority_eq (w x y : Word) : ((w ||| x) &&& y) ||| (w &&& x) = Lib.Sha1.maj w x y := by
  unfold Lib.Sha1.maj
  ext i
  simp only [BitVec.getElem_xor, BitVec.getElem_and, BitVec.getElem_or]
  cases w[i] <;> cases x[i] <;> cases y[i] <;> rfl

/-- The bytes of a word, reversed. -/
theorem swap_wordOf (x₀ x₁ x₂ x₃ : Byte) :
    (rol (Lib.Sha1.wordOf x₃ x₂ x₁ x₀) 24 &&& 0xFF00FF00) ||| (rol (Lib.Sha1.wordOf x₃ x₂ x₁ x₀) 8 &&& 0x00FF00FF) =
      Lib.Sha1.wordOf x₀ x₁ x₂ x₃ := by
  apply BitVec.eq_of_getLsbD_eq
  intro i hi
  simp only [rol, BitVec.getLsbD_or, BitVec.getLsbD_and, BitVec.getLsbD_shiftLeft, BitVec.getLsbD_ushiftRight,
    Lib.Sha1.getLsbD_wordOf]
  interval_cases i <;> simp

/-! ## The rounds -/

/-- The variable that has the name of word `k` before round `t`: each round, the names move on by one. -/
def named (k : Fin 5) (t : Nat) : Fin 5 := ⟨(k + 4 * t) % 5, Nat.mod_lt _ (by decide)⟩

/-- Round `t`. -/
def roundAt (t : Nat) : Round :=
  let v := named 0 t
  let w := named 1 t
  let x := named 2 t
  let y := named 3 t
  let z := named 4 t
  if h : t < 16 then .R0 v w x y z ⟨t, h⟩ else if t < 20 then .R1 v w x y z t else if t < 40 then .R2 v w x y z t
  else if t < 60 then .R3 v w x y z t else .R4 v w x y z t

theorem sha1Rounds_eq : sha1Rounds = (List.range 80).map roundAt := by decide

/-- What round `t` makes of the block. -/
def blockAt (block : Vector Word 16) (t : Nat) : Vector Word 16 :=
  if t < 16 then blk0 block (low t) else blk block t

/-- All rounds are one, with the function and the constant of the standard. -/
theorem run_roundAt (s : Locals) (t : Nat) : (roundAt t).run s =
    s.round (Lib.Sha1.function t) (Lib.Sha1.constant t) (named 0 t) (named 1 t) (named 2 t) (named 3 t) (named 4 t)
      (blockAt s.block t) (low t) := by
  have hch : (fun w x y : Word => (w &&& (x ^^^ y)) ^^^ y) = Lib.Sha1.ch := by
    funext w x y
    exact choose_eq w x y
  have hmaj : (fun w x y : Word => ((w ||| x) &&& y) ||| (w &&& x)) = Lib.Sha1.maj := by
    funext w x y
    exact majority_eq w x y
  unfold roundAt Lib.Sha1.function Lib.Sha1.constant blockAt
  split_ifs with h₁
  all_goals first | omega | skip
  · have hlow : low t = ⟨t, h₁⟩ := Fin.ext (Nat.mod_eq_of_lt h₁)
    rw [hlow, ← hch]
    rfl
  · rw [← hch]
    rfl
  · rfl
  · rw [← hmaj]
    rfl
  · rfl

/-- Before round `t`: the words of the standard under their names, and the last sixteen words of the schedule in the
block, with the words that it has not reached. -/
structure RoundState (state : Hash) (buffer : Fin 64 → Byte) (t : Nat) (s : Locals) : Prop where
  vars : ∀ k, s.vars.get (named k t) = (Lib.Sha1.work state (Lib.Sha1.schedule (Lib.Sha1.words buffer)) t).get k
  done : ∀ i < t, t ≤ i + 16 → s.block.get (low i) = Lib.Sha1.schedule (Lib.Sha1.words buffer) i
  left : ∀ i : Fin 16, t ≤ i → s.block.get i = (loadBlock buffer).get i

section
variable {state : Hash} {buffer : Fin 64 → Byte} {t : Nat} {s : Locals}

theorem roundState_zero : RoundState state buffer 0 ⟨loadBlock buffer, state⟩ where
  vars k := congrArg state.get (Fin.ext (Nat.mod_eq_of_lt k.isLt))
  done i hi := absurd hi (Nat.not_lt_zero i)
  left _ _ := rfl

section
variable {f : Word → Word → Word → Word} {k : Word} {u v w x y z : Fin 5} {block : Vector Word 16} {i : Fin 16}

theorem Locals.round_z (h : z ≠ w) : (s.round f k v w x y z block i).vars.get z =
    s.vars.get z + (f (s.vars.get w) (s.vars.get x) (s.vars.get y) + block.get i + k + rol (s.vars.get v) 5) := by
  have hne : w.val ≠ z.val := fun heq => h (Fin.ext heq.symm)
  simp only [Locals.round, Vector.get_eq_getElem, Vector.getElem_set_ne _ _ hne, Vector.getElem_set_self]

theorem Locals.round_w (h : z ≠ w) : (s.round f k v w x y z block i).vars.get w = rol (s.vars.get w) 30 := by
  have hne : z.val ≠ w.val := fun heq => h (Fin.ext heq)
  simp only [Locals.round, Vector.get_eq_getElem, Vector.getElem_set_self, Vector.getElem_set_ne _ _ hne]

theorem Locals.round_ne (hz : u ≠ z) (hw : u ≠ w) : (s.round f k v w x y z block i).vars.get u = s.vars.get u := by
  have hz' : z.val ≠ u.val := fun heq => hz (Fin.ext heq.symm)
  have hw' : w.val ≠ u.val := fun heq => hw (Fin.ext heq.symm)
  simp only [Locals.round, Vector.get_eq_getElem, Vector.getElem_set_ne _ _ hw', Vector.getElem_set_ne _ _ hz']

end

theorem blk_get (block : Vector Word 16) (i : Nat) : (blk block i).get (low i) =
    rol (block[(i + 13) % 16] ^^^ block[(i + 8) % 16] ^^^ block[(i + 2) % 16] ^^^ block[i % 16]) 1 :=
  Vector.getElem_set_self _

/-- The word that the round takes from the block is the one of the schedule. -/
theorem RoundState.word (h : RoundState state buffer t s) :
    (blockAt s.block t).get (low t) = Lib.Sha1.schedule (Lib.Sha1.words buffer) t := by
  unfold blockAt
  split_ifs with ht
  · -- The word is the one of the buffer, with its bytes reversed.
    have hword : (low t).val = t := Nat.mod_eq_of_lt ht
    rw [Lib.Sha1.schedule_lt ht, blk0, Vector.get_eq_getElem, Vector.getElem_set_self, h.left (low t) hword.ge]
    have hbyte : ∀ k (hk : k < 4), byteOfWord buffer ⟨t, ht⟩ k = buffer ⟨4 * t + k, by omega⟩ := fun k hk => dif_pos _
    simp only [loadBlock, Lib.Sha1.words, Vector.get_eq_getElem, Vector.getElem_ofFn, hword]
    rw [hbyte 0 (by decide), hbyte 1 (by decide), hbyte 2 (by decide), hbyte 3 (by decide)]
    exact swap_wordOf ..
  · -- The four words of the recurrence are still in the block.
    obtain ⟨r, rfl⟩ : ∃ r, t = r + 16 := ⟨t - 16, by omega⟩
    have hget : ∀ i, r ≤ i → i < r + 16 →
        s.block[i % 16] = Lib.Sha1.schedule (Lib.Sha1.words buffer) i :=
      fun i hle hlt => h.done i hlt (by omega)
    have hmod : ∀ i, (r + 16 + i) % 16 = (r + i) % 16 := fun i => by omega
    rw [Lib.Sha1.schedule_add, ← rol_eq (by decide), blk_get,
      ← hget r le_rfl (by omega), ← hget (r + 2) (by omega) (by omega), ← hget (r + 8) (by omega) (by omega),
      ← hget (r + 13) (by omega) (by omega)]
    simp only [hmod, Nat.add_mod_right]

/-- The other words of the block stay. -/
theorem blockAt_ne {block : Vector Word 16} {i : Fin 16} (h : i ≠ low t) : (blockAt block t).get i = block.get i := by
  have hne : (low t).val ≠ i.val := fun heq => h (Fin.ext heq.symm)
  unfold blockAt
  split_ifs
  · exact Vector.getElem_set_ne _ _ hne
  · exact Vector.getElem_set_ne _ _ hne

theorem work_first (h : Hash) (w : Nat → Word) (t : Nat) : (Lib.Sha1.work h w (t + 1)).get 0 =
    Lib.Sha1.rotl ((Lib.Sha1.work h w t).get 0) 5 +
      Lib.Sha1.function t ((Lib.Sha1.work h w t).get 1) ((Lib.Sha1.work h w t).get 2) ((Lib.Sha1.work h w t).get 3) +
      (Lib.Sha1.work h w t).get 4 + Lib.Sha1.constant t + w t := rfl

theorem named_succ (k : Fin 4) (t : Nat) : named k.succ (t + 1) = named k.castSucc t := by
  apply Fin.ext
  simp only [named, Fin.val_succ, Fin.val_castSucc]
  omega

theorem named_ne {k l : Fin 5} (h : k ≠ l) (t : Nat) : named k t ≠ named l t := by
  intro heq
  have hval := congrArg Fin.val heq
  simp only [named] at hval
  exact h (Fin.ext (by omega))

theorem RoundState.round (h : RoundState state buffer t s) : RoundState state buffer (t + 1) ((roundAt t).run s) := by
  rw [run_roundAt]
  refine ⟨?_, ?_, ?_⟩
  · intro k
    have hstay : ∀ l : Fin 5, l ≠ 4 → l ≠ 1 → (s.round (Lib.Sha1.function t) (Lib.Sha1.constant t) (named 0 t) (named 1 t)
        (named 2 t) (named 3 t) (named 4 t) (blockAt s.block t) (low t)).vars.get (named l t) =
        (Lib.Sha1.work state (Lib.Sha1.schedule (Lib.Sha1.words buffer)) t).get l :=
      fun l hz hw => (Locals.round_ne (named_ne hz t) (named_ne hw t)).trans (h.vars l)
    match k with
    | 0 =>
      have hfirst : named 0 (t + 1) = named 4 t := Fin.ext (by simp only [named]; omega)
      rw [hfirst, Locals.round_z (named_ne (by decide) t), h.word, h.vars 0, h.vars 1, h.vars 2, h.vars 3, h.vars 4,
        rol_eq (by decide)]
      rw [work_first]
      ac_rfl
    | 1 => rw [show named 1 (t + 1) = named 0 t from named_succ 0 t]; exact hstay 0 (by decide) (by decide)
    | 2 =>
      rw [show named 2 (t + 1) = named 1 t from named_succ 1 t, Locals.round_w (named_ne (by decide) t), h.vars 1,
        rol_eq (by decide)]
      rfl
    | 3 => rw [show named 3 (t + 1) = named 2 t from named_succ 2 t]; exact hstay 2 (by decide) (by decide)
    | 4 => rw [show named 4 (t + 1) = named 3 t from named_succ 3 t]; exact hstay 3 (by decide) (by decide)
  · intro i hi hle
    by_cases hlast : i = t
    · subst hlast
      exact h.word
    · refine (blockAt_ne ?_).trans (h.done i (by omega) (by omega))
      intro heq
      have := congrArg Fin.val heq
      simp only [low] at this
      omega
  · intro i hi
    refine (blockAt_ne ?_).trans (h.left i (by omega))
    rintro rfl
    simp only [low] at hi
    omega

theorem roundState_rounds (state : Hash) (buffer : Fin 64 → Byte) : ∀ n,
    RoundState state buffer n (((List.range n).map roundAt).foldl Round.run ⟨loadBlock buffer, state⟩)
  | 0 => roundState_zero
  | n + 1 => by
    rw [List.range_succ, List.map_append, List.foldl_append]
    exact (roundState_rounds state buffer n).round

end

/-- **The compression.** -/
theorem sha1Transform_eq (state : Hash) (buffer : Fin 64 → Byte) :
    sha1Transform state buffer = Lib.Sha1.compress state buffer := by
  have h := (roundState_rounds state buffer 80).vars
  unfold sha1Transform Lib.Sha1.compress
  rw [sha1Rounds_eq]
  generalize ((List.range 80).map roundAt).foldl Round.run ⟨loadBlock buffer, state⟩ = s at h ⊢
  generalize Lib.Sha1.work state (Lib.Sha1.schedule (Lib.Sha1.words buffer)) 80 = w at h ⊢
  congr 1
  apply Vector.ext
  intro k hk
  have hname : named ⟨k, hk⟩ 80 = ⟨k, hk⟩ := Fin.ext (by simp only [named]; omega)
  exact (congrArg s.vars.get hname).symm.trans (h ⟨k, hk⟩)

end PmemProgram.Wal
