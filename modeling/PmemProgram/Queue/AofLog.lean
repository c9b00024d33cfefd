import Mathlib

/-!
# The text of the log (`queue_aof.cpp`)

* `enqueLine`, `dequeLine` : the lines that the command loop writes;
* `fgets`, `strtok`, `parseQueOps`, `atoi` : how the start-up loop takes a line apart;
* `fgets_line`, `strtok_enqueLine`, `atoi_decimal` : it finds every line again, and the command and the value of the lines for
  `enque`;
* `parseQueOps_dequeLine` : the newline stays with `deque`, which is not a command then.
-/

namespace PmemProgram.Queue.Aof

/-- `que_op_e`. -/
inductive QueOp
  | enque
  | deque
  | showQueue
  | preque
  | maxOps
  deriving DecidableEq, Repr

def opsStr : List (List Char × QueOp) :=
  [("enque".toList, .enque), ("deque".toList, .deque), ("show".toList, .showQueue), ("preque".toList, .preque)]

/-- `parse_que_ops`. -/
def parseQueOps (ops : List Char) : QueOp := ((opsStr.find? fun e => e.1 == ops).map Prod.snd).getD .maxOps

/-- `%d` of `printf`. -/
def decimal (value : Int32) : List Char :=
  if value.toInt < 0 then '-' :: Nat.toDigits 10 value.toInt.natAbs else Nat.toDigits 10 value.toInt.natAbs

/-- `sprintf(buf,"enque %d\\n",value)`. -/
def enqueLine (value : Int32) : List Char := "enque ".toList ++ (decimal value ++ ['\n'])

/-- `sprintf(buf,"deque\\n")`. -/
def dequeLine : List Char := "deque\n".toList

/-- `fgets` of at most `n` characters: what it reads and what is left; it reads nothing at the end of the file. -/
def fgets : Nat → List Char → List Char × List Char
  | 0, file => ([], file)
  | _ + 1, [] => ([], [])
  | n + 1, c :: file => if c = '\n' then ([c], file) else (c :: (fgets n file).1, (fgets n file).2)

/-- `strtok` for the separator `" "`: the token, empty if there is none, and what is left. -/
def strtok (s : List Char) : List Char × List Char :=
  let rest := s.dropWhile (· == ' ')
  (rest.takeWhile (· != ' '), (rest.dropWhile (· != ' ')).tail)

def isSpace (c : Char) : Bool := c == ' ' || (9 ≤ c.toNat && c.toNat ≤ 13)

/-- The digits at the front. -/
def digits (s : List Char) : Nat := Nat.ofDigitChars 10 (s.takeWhile Char.isDigit) 0

def atoi (s : List Char) : Int32 :=
  let number := s.dropWhile isSpace
  if number.head? = some '-' then Int32.ofInt (-digits number.tail)
  else if number.head? = some '+' then Int32.ofInt (digits number.tail)
  else Int32.ofInt (digits number)

/-! ## Numbers -/

theorem isDigit_of_mem {n : Nat} {c : Char} (hc : c ∈ Nat.toDigits 10 n) : c.isDigit = true :=
  Nat.isDigit_of_mem_toDigits (by decide) (by decide) hc

/-- A number ends at the newline. -/
theorem digits_toDigits (n : Nat) : digits (Nat.toDigits 10 n ++ ['\n']) = n := by
  have hnewline : ['\n'].takeWhile Char.isDigit = [] := by decide
  rw [digits, List.takeWhile_append_of_pos fun c hc => isDigit_of_mem hc, hnewline, List.append_nil,
    Nat.ofDigitChars_ten_toDigits]

/-- A number is made of digits and a sign. -/
theorem mem_decimal {value : Int32} {c : Char} (hc : c ∈ decimal value) : c.isDigit = true ∨ c = '-' := by
  unfold decimal at hc
  split_ifs at hc
  · rcases List.mem_cons.mp hc with hc | hc
    · exact Or.inr hc
    · exact Or.inl (isDigit_of_mem hc)
  · exact Or.inl (isDigit_of_mem hc)

/-- No character of a number is one that separates. -/
theorem decimal_solid {value : Int32} {c : Char} (hc : c ∈ decimal value) : c ≠ ' ' ∧ c ≠ '\n' ∧ isSpace c = false := by
  rcases mem_decimal hc with hd | rfl
  · have hge : 48 ≤ c.toNat := by
      simp only [Char.isDigit, Bool.and_eq_true, decide_eq_true_eq] at hd
      exact hd.1
    refine ⟨?_, ?_, ?_⟩
    · rintro rfl
      exact absurd hge (by decide)
    · rintro rfl
      exact absurd hge (by decide)
    · have hspace : c ≠ ' ' := by
        rintro rfl
        exact absurd hge (by decide)
      simp only [isSpace, Bool.or_eq_false_iff, beq_eq_false_iff_ne, Bool.and_eq_false_iff, decide_eq_false_iff_not]
      exact ⟨hspace, by omega⟩
  · decide

theorem length_decimal (value : Int32) : (decimal value).length ≤ 11 := by
  have hlt := value.toInt_lt
  have hge := value.le_toInt
  have hlen : (Nat.toDigits 10 value.toInt.natAbs).length ≤ 10 := by
    apply (Nat.length_toDigits_le_iff (by decide) (by decide)).mpr
    omega
  unfold decimal
  split_ifs
  · simp only [List.length_cons]
    omega
  · omega

theorem decimal_ne_nil (value : Int32) : decimal value ≠ [] := by
  unfold decimal
  split_ifs
  · exact List.cons_ne_nil _ _
  · exact Nat.toDigits_ne_nil

/-- **Every `int` is read back.** -/
theorem atoi_decimal (value : Int32) : atoi (decimal value ++ ['\n']) = value := by
  have hsolid : (decimal value ++ ['\n']).dropWhile isSpace = decimal value ++ ['\n'] := by
    obtain ⟨c, cs, hcs⟩ := List.exists_cons_of_ne_nil (decimal_ne_nil value)
    have hc : c ∈ decimal value := hcs ▸ List.mem_cons_self
    rw [hcs, List.cons_append]
    exact List.dropWhile_cons_of_neg (by rw [(decimal_solid hc).2.2]; decide)
  unfold atoi
  rw [hsolid]
  by_cases hneg : value.toInt < 0
  · have hdecimal : decimal value = '-' :: Nat.toDigits 10 value.toInt.natAbs := if_pos hneg
    have hint : -(value.toInt.natAbs : Int) = value.toInt := by omega
    rw [hdecimal, List.cons_append, if_pos (by rfl), List.tail_cons, digits_toDigits, hint, Int32.ofInt_toInt]
  · have hdecimal : decimal value = Nat.toDigits 10 value.toInt.natAbs := if_neg hneg
    have hint : (value.toInt.natAbs : Int) = value.toInt := by omega
    obtain ⟨c, cs, hcs⟩ := List.exists_cons_of_ne_nil (Nat.toDigits_ne_nil (n := value.toInt.natAbs) (b := 10))
    have hc : c.isDigit = true := isDigit_of_mem (hcs ▸ List.mem_cons_self)
    have hhead : (decimal value ++ ['\n']).head? = some c := by rw [hdecimal, hcs]; rfl
    have hsign : ∀ sign : Char, sign.isDigit = false → (decimal value ++ ['\n']).head? ≠ some sign := by
      intro sign hsign heq
      rw [hhead] at heq
      injection heq with heq
      rw [heq, hsign] at hc
      cases hc
    rw [if_neg (hsign '-' (by decide)), if_neg (hsign '+' (by decide)), hdecimal, digits_toDigits, hint, Int32.ofInt_toInt]

/-! ## Lines -/

theorem fgets_line {line : List Char} (hline : '\n' ∉ line) (rest : List Char) {n : Nat} (hn : line.length < n) :
    fgets n (line ++ '\n' :: rest) = (line ++ ['\n'], rest) := by
  induction line generalizing n with
  | nil =>
    cases n with
    | zero => exact absurd hn (Nat.not_lt_zero _)
    | succ n => simp [fgets]
  | cons c line ih =>
    cases n with
    | zero => exact absurd hn (Nat.not_lt_zero _)
    | succ n =>
      have hc : c ≠ '\n' := fun heq => hline (heq ▸ List.mem_cons_self)
      have hrest := ih (fun hmem => hline (List.mem_cons_of_mem _ hmem)) (Nat.lt_of_succ_lt_succ hn)
      rw [List.cons_append, fgets, if_neg hc, hrest]
      rfl

/-- A line for `enque` has its newline at the end, and fits in `buf`. -/
theorem fgets_enqueLine (value : Int32) (rest : List Char) : fgets 31 (enqueLine value ++ rest) = (enqueLine value, rest) := by
  have hbody : enqueLine value = ("enque ".toList ++ decimal value) ++ ['\n'] := (List.append_assoc _ _ _).symm
  have hnewline : '\n' ∉ "enque ".toList ++ decimal value := by
    intro hmem
    rcases List.mem_append.mp hmem with hmem | hmem
    · exact absurd hmem (by decide)
    · exact (decimal_solid hmem).2.1 rfl
  have hlen : ("enque ".toList ++ decimal value).length < 31 := by
    have hprefix : ("enque ".toList).length = 6 := by decide
    have := length_decimal value
    rw [List.length_append]
    omega
  rw [hbody, List.append_assoc]
  exact fgets_line hnewline rest hlen

theorem fgets_dequeLine (rest : List Char) : fgets 31 (dequeLine ++ rest) = (dequeLine, rest) := by
  have hbody : dequeLine = "deque".toList ++ ['\n'] := by decide
  rw [hbody, List.append_assoc]
  exact fgets_line (by decide) rest (by decide)

/-- The command of a line for `enque`, and the rest of it. -/
theorem strtok_enqueLine (value : Int32) : strtok (enqueLine value) = ("enque".toList, decimal value ++ ['\n']) := by
  simp [strtok, enqueLine]

/-- The value of a line is the last token of it. -/
theorem strtok_decimal (value : Int32) : strtok (decimal value ++ ['\n']) = (decimal value ++ ['\n'], []) := by
  have hsolid : ∀ c ∈ decimal value ++ ['\n'], c ≠ ' ' := by
    intro c hc
    rcases List.mem_append.mp hc with hc | hc
    · exact (decimal_solid hc).1
    · rw [List.mem_singleton.mp hc]
      decide
  have hall : ∀ c ∈ decimal value ++ ['\n'], (c != ' ') = true := fun c hc => bne_iff_ne.mpr (hsolid c hc)
  have hfront : (decimal value ++ ['\n']).dropWhile (· == ' ') = decimal value ++ ['\n'] := by
    obtain ⟨c, cs, hcs⟩ := List.exists_cons_of_ne_nil
      (List.append_ne_nil_of_right_ne_nil (decimal value) (List.cons_ne_nil '\n' []))
    rw [hcs] at hsolid ⊢
    exact List.dropWhile_cons_of_neg (by simpa using hsolid c List.mem_cons_self)
  unfold strtok
  rw [hfront]
  refine Prod.ext ?_ ?_
  · exact List.takeWhile_eq_self_iff.mpr hall
  · show ((decimal value ++ ['\n']).dropWhile (· != ' ')).tail = []
    rw [List.dropWhile_eq_nil_iff.mpr hall]
    rfl

theorem parseQueOps_enque : parseQueOps "enque".toList = .enque := by decide

/-- **The newline stays with the command** of the lines for `deque`. -/
theorem parseQueOps_dequeLine : parseQueOps (strtok dequeLine).1 = .maxOps := by decide

end PmemProgram.Queue.Aof
