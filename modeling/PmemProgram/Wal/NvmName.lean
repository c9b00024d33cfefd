import PmemProgram.Wal.Content
import PmemProgram.Wal.Sha1Stream

/-!
# The name of an NVM file (`inject.c`)

`get_nvm_file_name` writes the digest of the path into the buffer of its caller, in hexadecimal digits and with a suffix.

* `getNvmFileName` : the function, on the bytes of the buffer;
* `nvmName` : the name of a digest, `nvmName_injective`;
* `digestConfig` : the configuration with these names; `noCollision_iff` : when they are apart;
* **`nvm_file_name`** : what the function leaves in the buffer.
-/

namespace PmemProgram.Wal

/-- A string and its end, written into a buffer: `sprintf` and `strcpy`. -/
def writeString (buffer : Nat → Byte) (pos : Nat) (text : List Byte) : Nat → Byte := fun k =>
  if pos ≤ k ∧ k ≤ pos + text.length then text[k - pos]?.getD 0 else buffer k

/-- A hexadecimal digit, as `printf` writes it. -/
def hexDigit (n : Nat) : Byte := if n < 10 then UInt8.ofNat (48 + n) else UInt8.ofNat (87 + n)

/-- `"%02x"`. -/
def hexByte (b : Byte) : List Byte := [hexDigit (b.toNat / 16), hexDigit (b.toNat % 16)]

/-- `".ag"`. -/
def suffix : List Byte := [46, 97, 103]

/-- The loop over the bytes of the digest; `pos` is `i * 2`. -/
def writeDigest : List Byte → Nat → (Nat → Byte) → Nat → Byte
  | [], _, buffer => buffer
  | b :: bytes, pos, buffer => writeDigest bytes (pos + 2) (writeString buffer pos (hexByte b))

/-- `get_nvm_file_name`; the context is a local variable. -/
def getNvmFileName (fuel : Nat) (sha1 : Sha1Context) (buffer : Nat → Byte) (file : List Byte) : Option (Nat → Byte) :=
  (sha1Parts fuel sha1 [file]).map fun digest => writeString (writeDigest (List.ofFn digest) 0 buffer) 40 suffix

/-- The name that belongs to a digest. -/
def nvmName (digest : Fin 20 → Byte) : List Byte := (List.ofFn digest).flatMap hexByte ++ suffix

/-- The string at the beginning of a buffer. -/
structure IsString (buffer : Nat → Byte) (text : List Byte) : Prop where
  get : ∀ k (hk : k < text.length), buffer k = text[k]
  inner : ∀ b ∈ text, b ≠ 0
  last : buffer text.length = 0

/-- A configuration with the names of `get_nvm_file_name`. -/
def digestConfig (cfg : Config) : Config :=
  { cfg with nvmFileName := fun path =>
      String.ofList ((nvmName (Lib.Sha1.digest path.toUTF8.toList)).map fun b => Char.ofNat b.toNat) }

/-! ## The digits -/

theorem hexDigit_injective {m n : Nat} (hm : m < 16) (hn : n < 16) (h : hexDigit m = hexDigit n) : m = n := by
  have hall : ∀ m < 16, ∀ n < 16, hexDigit m = hexDigit n → m = n := by decide
  exact hall m hm n hn h

theorem hexDigit_ne_zero {n : Nat} (hn : n < 16) : hexDigit n ≠ 0 := by
  have hall : ∀ n < 16, hexDigit n ≠ 0 := by decide
  exact hall n hn

theorem hexByte_injective : Function.Injective hexByte := by
  intro b c h
  have hb := b.toNat_lt
  have hc := c.toNat_lt
  simp only [hexByte, List.cons.injEq, and_true] at h
  have hhigh := hexDigit_injective (by omega) (by omega) h.1
  have hlow := hexDigit_injective (by omega) (by omega) h.2
  exact UInt8.toNat_inj.mp (by omega)

theorem length_hexByte (b : Byte) : (hexByte b).length = 2 := rfl

theorem length_flatMap_hexByte (l : List Byte) : (l.flatMap hexByte).length = 2 * l.length := by
  induction l with
  | nil => rfl
  | cons b l ih =>
    rw [List.flatMap_cons, List.length_append, ih, length_hexByte, List.length_cons]
    omega

theorem flatMap_hexByte_injective : ∀ {l m : List Byte}, l.flatMap hexByte = m.flatMap hexByte → l = m
  | [], [], _ => rfl
  | [], c :: m, h => by cases h
  | b :: l, [], h => by cases h
  | b :: l, c :: m, h => by
    rw [List.flatMap_cons, List.flatMap_cons] at h
    obtain ⟨hhead, htail⟩ := List.append_inj h rfl
    rw [hexByte_injective hhead, flatMap_hexByte_injective htail]

theorem length_nvmName (digest : Fin 20 → Byte) : (nvmName digest).length = 43 := by
  rw [nvmName, List.length_append, length_flatMap_hexByte, List.length_ofFn]
  rfl

theorem nvmName_injective : Function.Injective nvmName := by
  intro d d' h
  exact List.ofFn_injective (flatMap_hexByte_injective (List.append_cancel_right h))

theorem nvmName_ne_zero {digest : Fin 20 → Byte} {b : Byte} (hb : b ∈ nvmName digest) : b ≠ 0 := by
  rw [nvmName, List.mem_append, List.mem_flatMap] at hb
  rcases hb with ⟨c, -, hb⟩ | hb
  · have hc := c.toNat_lt
    simp only [hexByte, List.mem_cons, List.not_mem_nil, or_false] at hb
    rcases hb with rfl | rfl
    · exact hexDigit_ne_zero (by omega)
    · exact hexDigit_ne_zero (by omega)
  · simp only [suffix, List.mem_cons, List.not_mem_nil, or_false] at hb
    rcases hb with rfl | rfl | rfl <;> decide

/-! ## The buffer -/

section
variable {buffer : Nat → Byte} {text : List Byte} {pos k : Nat}

theorem writeString_text (hk : k < text.length) : writeString buffer pos text (pos + k) = text[k] := by
  rw [writeString, if_pos (by omega), Nat.add_sub_cancel_left, List.getElem?_eq_getElem hk, Option.getD_some]

theorem isString_writeString (h : ∀ b ∈ text, b ≠ 0) : IsString (writeString buffer 0 text) text where
  get k hk := by
    have htext : writeString buffer 0 text (0 + k) = text[k] := writeString_text hk
    rwa [Nat.zero_add] at htext
  inner := h
  last := by
    rw [writeString, if_pos (by omega), Nat.sub_zero, List.getElem?_eq_none le_rfl, Option.getD_none]

/-- A string written at the end of another one. -/
theorem writeString_append (buffer : Nat → Byte) (pos : Nat) (text text' : List Byte) :
    writeString (writeString buffer pos text) (pos + text.length) text' = writeString buffer pos (text ++ text') := by
  funext k
  simp only [writeString, List.length_append]
  by_cases hbefore : k < pos + text.length
  · rw [if_neg (by omega)]
    by_cases hpos : pos ≤ k
    · rw [if_pos (by omega), if_pos (by omega), List.getElem?_append_left (by omega)]
    · rw [if_neg (by omega), if_neg (by omega)]
  · by_cases hlast : k ≤ pos + text.length + text'.length
    · rw [if_pos (by omega), if_pos (by omega), List.getElem?_append_right (by omega), Nat.sub_sub]
    · rw [if_neg (by omega), if_neg (by omega), if_neg (by omega)]

theorem writeDigest_eq {bytes : List Byte} (h : bytes ≠ []) (pos : Nat) (buffer : Nat → Byte) :
    writeDigest bytes pos buffer = writeString buffer pos (bytes.flatMap hexByte) := by
  induction bytes generalizing pos buffer with
  | nil => exact absurd rfl h
  | cons b bytes ih =>
    rw [writeDigest, List.flatMap_cons]
    by_cases hlast : bytes = []
    · subst hlast
      rw [writeDigest, List.flatMap_nil, List.append_nil]
    · rw [ih hlast, ← writeString_append, length_hexByte]

end

/-! ## Names -/

theorem charOf_injective : Function.Injective fun b : Byte => Char.ofNat b.toNat := by
  have hvalue : ∀ b : Byte, (Char.ofNat b.toNat).toNat = b.toNat := by
    intro b
    have hb := b.toNat_lt
    have hvalid : b.toNat.isValidChar := Or.inl (by omega)
    rw [Char.ofNat, dif_pos hvalid]
    rfl
  intro b c h
  exact UInt8.toNat_inj.mp (by rw [← hvalue b, ← hvalue c, show Char.ofNat b.toNat = Char.ofNat c.toNat from h])

/-- The names are apart on a set of paths as long as the hash is. -/
theorem noCollision_iff (cfg : Config) (P : String → Prop) : NoCollision (digestConfig cfg) P ↔
    ∀ p q, P p → P q → Lib.Sha1.digest p.toUTF8.toList = Lib.Sha1.digest q.toUTF8.toList → p = q := by
  have hname : ∀ p q, (digestConfig cfg).nvmFileName p = (digestConfig cfg).nvmFileName q ↔
      Lib.Sha1.digest p.toUTF8.toList = Lib.Sha1.digest q.toUTF8.toList := by
    intro p q
    refine ⟨fun h => nvmName_injective ?_, fun h => by simp only [digestConfig, h]⟩
    exact (List.map_injective_iff.mpr charOf_injective) (String.ofList_injective h)
  simp only [NoCollision, hname]

/-- **The name.** Every path shorter than 4 GiB has one, which the function leaves in the buffer with nothing written behind
it; for a longer one the hash does not come to an end. Two digests have two names, so that on any set of paths the names are
apart if and only if the digests are. -/
theorem nvm_file_name (sha1 : Sha1Context) (buffer : Nat → Byte) (file : List Byte) :
    (file.length < 2 ^ 32 → ∀ fuel, file.length + 66 < fuel →
      ∃ buffer', getNvmFileName fuel sha1 buffer file = some buffer' ∧
        IsString buffer' (nvmName (Lib.Sha1.digest file)) ∧ ∀ k, 43 < k → buffer' k = buffer k) ∧
    (2 ^ 32 ≤ file.length → ∀ fuel, getNvmFileName fuel sha1 buffer file = none) ∧
    ∀ cfg P, NoCollision (digestConfig cfg) P ↔
      ∀ p q, P p → P q → Lib.Sha1.digest p.toUTF8.toList = Lib.Sha1.digest q.toUTF8.toList → p = q := by
  have hfit : PartsFit 0 [file] ↔ file.length < 2 ^ 32 := by
    simp [PartsFit]
  have hflatten : [file].flatten = file := List.flatten_singleton
  refine ⟨fun hlen fuel hfuel => ?_, fun hlen fuel => ?_, noCollision_iff⟩
  · have hbuffer : writeString (writeDigest (List.ofFn (Lib.Sha1.digest file)) 0 buffer) 40 suffix =
        writeString buffer 0 (nvmName (Lib.Sha1.digest file)) := by
      have hlength : ((List.ofFn (Lib.Sha1.digest file)).flatMap hexByte).length = 40 := by
        rw [length_flatMap_hexByte, List.length_ofFn]
      rw [writeDigest_eq (by simp), nvmName, ← writeString_append, hlength]
    have hdigest := sha1Parts_eq (hfit.mpr hlen) sha1 (show [file].flatten.length + 66 < fuel by rwa [hflatten])
    rw [hflatten] at hdigest
    refine ⟨_, by rw [getNvmFileName, hdigest, Option.map_some, hbuffer],
      isString_writeString fun _ hb => nvmName_ne_zero hb, fun k hk => ?_⟩
    rw [writeString, if_neg (by rw [length_nvmName]; omega)]
  · rw [getNvmFileName, sha1Parts_none (fun h => absurd (hfit.mp h) (by omega))]
    rfl

end PmemProgram.Wal
