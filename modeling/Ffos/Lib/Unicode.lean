/-
Module: Ffos.Lib.Unicode
Purpose: The UTF-8 bytes and the UTF-16 units of a text.
Trusted boundary: none
Main exports: Wchar, utf8, utf16, mem_utf8_iff, mem_utf16_iff, getLast?_utf16_iff
-/
import Ffos.Lib.ByteMemory

namespace Ffos.Lib

/-- A UTF-16 unit. -/
abbrev Wchar := BitVec 16

def utf8Char (c : Char) : List Byte :=
  (String.utf8EncodeChar c).map UInt8.toBitVec

/-- The bytes of a text; a byte string is well-formed UTF-8 if it is one of these. -/
def utf8 (text : List Char) : List Byte := text.flatMap utf8Char

/-- One unit, or a surrogate pair above U+FFFF. -/
def utf16Char (c : Char) : List Wchar :=
  let v := c.val.toNat
  if v < 0x10000 then [BitVec.ofNat 16 v]
  else
    [BitVec.ofNat 16 (0xD800 + (v - 0x10000) / 0x400),
      BitVec.ofNat 16 (0xDC00 + (v - 0x10000) % 0x400)]

/-- The units of a text. -/
def utf16 (text : List Char) : List Wchar := text.flatMap utf16Char

/-! ### ASCII characters

An ASCII character is one byte and one unit, and no other character has that byte or
that unit in its encoding. -/

theorem utf8Char_ascii {c : Char} (ascii : c.toNat < 0x80) :
    utf8Char c = [BitVec.ofNat 8 c.toNat] := by
  have small : c.val.toNat ≤ 0x7f := Nat.le_of_lt_succ ascii
  rw [utf8Char, String.utf8EncodeChar, if_pos small]
  rfl

theorem utf16Char_ascii {c : Char} (ascii : c.toNat < 0x80) :
    utf16Char c = [BitVec.ofNat 16 c.toNat] := by
  have small : c.val.toNat < 0x10000 := Nat.lt_trans ascii (by decide)
  exact if_pos small

/-- The bytes of any other character are above the ASCII ones. -/
theorem le_of_mem_utf8Char {c : Char} (other : ¬ c.toNat < 0x80) {byte : Byte}
    (member : byte ∈ utf8Char c) : 0x80 ≤ byte.toNat := by
  have large : ¬ c.val.toNat ≤ 0x7f := fun small => other (Nat.lt_succ_of_le small)
  rw [utf8Char, String.utf8EncodeChar, if_neg large] at member
  obtain ⟨encoded, inChar, rfl⟩ := List.mem_map.mp member
  rw [UInt8.toNat_toBitVec]
  split at inChar
  · simp only [List.mem_cons, List.not_mem_nil, or_false] at inChar
    rcases inChar with rfl | rfl <;> rw [UInt8.toNat_ofNat'] <;> omega
  · split at inChar
    · simp only [List.mem_cons, List.not_mem_nil, or_false] at inChar
      rcases inChar with rfl | rfl | rfl <;> rw [UInt8.toNat_ofNat'] <;> omega
    · simp only [List.mem_cons, List.not_mem_nil, or_false] at inChar
      rcases inChar with rfl | rfl | rfl | rfl <;> rw [UInt8.toNat_ofNat'] <;> omega

/-- So are its units. -/
theorem le_of_mem_utf16Char {c : Char} (other : ¬ c.toNat < 0x80) {unit : Wchar}
    (member : unit ∈ utf16Char c) : 0x80 ≤ unit.toNat := by
  have large : 0x80 ≤ c.val.toNat := Nat.le_of_not_lt other
  have bound : c.val.toNat < 0x110000 := by
    rcases c.valid with low | high
    · exact Nat.lt_trans low (by decide)
    · exact high.2
  unfold utf16Char at member
  dsimp only at member
  split at member
  · simp only [List.mem_cons, List.not_mem_nil, or_false] at member
    rw [member, BitVec.toNat_ofNat]
    omega
  · simp only [List.mem_cons, List.not_mem_nil, or_false] at member
    rcases member with rfl | rfl <;> rw [BitVec.toNat_ofNat] <;> omega

/-- An encoding of characters that keeps the ASCII ones: each is one unit, which no other
character has. -/
structure KeepsAscii {w : Nat} (encode : Char → List (BitVec w)) : Prop where
  wide : 7 ≤ w
  ascii : ∀ {c : Char}, c.toNat < 0x80 → encode c = [BitVec.ofNat w c.toNat]
  others : ∀ {c : Char}, ¬ c.toNat < 0x80 → ∀ {unit}, unit ∈ encode c → 0x80 ≤ unit.toNat

theorem utf8_keepsAscii : KeepsAscii utf8Char :=
  ⟨by decide, utf8Char_ascii, le_of_mem_utf8Char⟩

theorem utf16_keepsAscii : KeepsAscii utf16Char :=
  ⟨by decide, utf16Char_ascii, le_of_mem_utf16Char⟩

namespace KeepsAscii

variable {w : Nat} {encode : Char → List (BitVec w)} {c : Char}

theorem toNat_unit (keeps : KeepsAscii encode) (ascii : c.toNat < 0x80) :
    (BitVec.ofNat w c.toNat).toNat = c.toNat := by
  have room : 2 ^ 7 ≤ 2 ^ w := Nat.pow_le_pow_right (by decide) keeps.wide
  rw [BitVec.toNat_ofNat, Nat.mod_eq_of_lt (by omega)]

theorem mem_char_iff (keeps : KeepsAscii encode) (ascii : c.toNat < 0x80) (d : Char) :
    BitVec.ofNat w c.toNat ∈ encode d ↔ c = d := by
  constructor
  · intro member
    by_cases other : d.toNat < 0x80
    · rw [keeps.ascii other, List.mem_singleton] at member
      have same := congrArg BitVec.toNat member
      rw [keeps.toNat_unit ascii, keeps.toNat_unit other] at same
      exact Char.toNat_inj.mp same
    · have := keeps.others other member
      rw [keeps.toNat_unit ascii] at this
      omega
  · rintro rfl
    rw [keeps.ascii ascii]
    exact List.mem_singleton_self _

theorem mem_text_iff (keeps : KeepsAscii encode) (ascii : c.toNat < 0x80) (text : List Char) :
    BitVec.ofNat w c.toNat ∈ text.flatMap encode ↔ c ∈ text := by
  rw [List.mem_flatMap]
  constructor
  · rintro ⟨d, inText, member⟩
    rwa [(keeps.mem_char_iff ascii d).mp member]
  · intro inText
    exact ⟨c, inText, (keeps.mem_char_iff ascii c).mpr rfl⟩

theorem getLast?_iff (keeps : KeepsAscii encode) (ascii : c.toNat < 0x80)
    (some_ : ∀ d, encode d ≠ []) (text : List Char) :
    (text.flatMap encode).getLast? = some (BitVec.ofNat w c.toNat) ↔ text.getLast? = some c := by
  rcases List.eq_nil_or_concat' text with rfl | ⟨front, last, rfl⟩
  · simp
  · rw [List.flatMap_append, List.flatMap_singleton, List.getLast?_append_of_ne_nil _ (some_ last),
      List.getLast?_concat]
    constructor
    · intro same
      rw [(keeps.mem_char_iff ascii last).mp (List.mem_of_getLast? same)]
    · intro same
      obtain rfl := Option.some.inj same
      rw [keeps.ascii ascii]
      rfl

end KeepsAscii

/-- The byte of an ASCII character is in a text where the character is. -/
theorem mem_utf8_iff {c : Char} (ascii : c.toNat < 0x80) (text : List Char) :
    BitVec.ofNat 8 c.toNat ∈ utf8 text ↔ c ∈ text :=
  utf8_keepsAscii.mem_text_iff ascii text

/-- So is its unit. -/
theorem mem_utf16_iff {c : Char} (ascii : c.toNat < 0x80) (text : List Char) :
    BitVec.ofNat 16 c.toNat ∈ utf16 text ↔ c ∈ text :=
  utf16_keepsAscii.mem_text_iff ascii text

theorem utf16Char_ne_nil (c : Char) : utf16Char c ≠ [] := by
  unfold utf16Char
  dsimp only
  split
  · exact List.cons_ne_nil _ _
  · exact List.cons_ne_nil _ _

theorem utf16_concat (front : List Char) (last : Char) :
    utf16 (front ++ [last]) = utf16 front ++ utf16Char last := by
  rw [utf16, List.flatMap_append, List.flatMap_singleton, ← utf16]

theorem utf8_concat (front : List Char) (last : Char) :
    utf8 (front ++ [last]) = utf8 front ++ utf8Char last := by
  rw [utf8, List.flatMap_append, List.flatMap_singleton, ← utf8]

/-- The last unit is that of an ASCII character if the last character is. -/
theorem getLast?_utf16_iff {c : Char} (ascii : c.toNat < 0x80) (text : List Char) :
    (utf16 text).getLast? = some (BitVec.ofNat 16 c.toNat) ↔ text.getLast? = some c :=
  utf16_keepsAscii.getLast?_iff ascii utf16Char_ne_nil text

theorem utf8Char_ne_nil (c : Char) : utf8Char c ≠ [] := by
  unfold utf8Char String.utf8EncodeChar
  dsimp only
  rw [ne_eq, List.map_eq_nil_iff]
  split_ifs <;> exact not_false

/-- So is the last byte. -/
theorem getLast?_utf8_iff {c : Char} (ascii : c.toNat < 0x80) (text : List Char) :
    (utf8 text).getLast? = some (BitVec.ofNat 8 c.toNat) ↔ text.getLast? = some c :=
  utf8_keepsAscii.getLast?_iff ascii utf8Char_ne_nil text

theorem utf16_eq_nil_iff (text : List Char) : utf16 text = [] ↔ text = [] := by
  constructor
  · intro empty
    cases text with
    | nil => rfl
    | cons c rest =>
      rw [utf16, List.flatMap_cons] at empty
      exact absurd (List.append_eq_nil_iff.mp empty).1 (utf16Char_ne_nil c)
  · rintro rfl
    rfl

theorem utf8_eq_nil_iff (text : List Char) : utf8 text = [] ↔ text = [] := by
  rw [utf8, List.flatMap_eq_nil_iff, List.eq_nil_iff_forall_not_mem]
  exact forall₂_congr fun c _ => iff_false_intro (utf8Char_ne_nil c)

/-! ### Lengths -/

theorem length_utf8Char (c : Char) :
    (utf16Char c).length ≤ (utf8Char c).length ∧
      (utf8Char c).length ≤ 3 * (utf16Char c).length := by
  unfold utf16Char utf8Char String.utf8EncodeChar
  dsimp only
  rw [List.length_map]
  split_ifs <;> simp only [List.length_cons, List.length_nil] <;> omega

/-- A character is one unit, or a pair of units and four bytes. -/
theorem utf16Char_cases (c : Char) :
    (∃ unit, utf16Char c = [unit]) ∨
      ∃ high low, utf16Char c = [high, low] ∧ (utf8Char c).length = 4 := by
  rcases Nat.lt_or_ge c.val.toNat 0x10000 with small | large
  · exact Or.inl ⟨_, if_pos small⟩
  · refine Or.inr ⟨_, _, if_neg (Nat.not_lt.mpr large), ?_⟩
    unfold utf8Char String.utf8EncodeChar
    dsimp only
    rw [List.length_map, if_neg (by omega), if_neg (by omega), if_neg (by omega)]
    rfl

/-- A text has not more units than bytes, and not more than three bytes a unit. -/
theorem length_utf8 (text : List Char) :
    (utf16 text).length ≤ (utf8 text).length ∧ (utf8 text).length ≤ 3 * (utf16 text).length := by
  induction text with
  | nil => exact ⟨Nat.le_refl 0, Nat.le_refl 0⟩
  | cons c text inductionHypothesis =>
      have first := length_utf8Char c
      have rest := inductionHypothesis
      rw [utf16, utf8] at rest ⊢
      rw [List.flatMap_cons, List.flatMap_cons, List.length_append, List.length_append]
      omega

end Ffos.Lib
