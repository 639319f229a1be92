/-
Module: Ffos.Std.KeyErrors
Purpose: What the sign of the result of `ffstd_keyparse` on UNIX says: keys that a caller who
  tests for a negative value takes for an error, and the bytes that are read.
Trusted boundary: `char` is signed
Main exports: ffstdKeyparseChecked, ffstdKeyparseChecked_eq, ffstdKeyparse_cases, SignalsErrors,
  BeginsWithArrow, signalsErrors_iff
-/
import Ffos.Std.Keys

namespace Ffos.Std

open Ffos.Lib

/-! ### Reads -/

/-- The end of an escape sequence at `d[i]`, which must be in the data. -/
def arrowAtChecked (data : List Byte) (r : BitVec 32) (i : Nat) : Option (BitVec 32 × List Byte) :=
  data[i]?.map fun c =>
    if 0x41 ≤ c ∧ c ≤ 0x44 then (r ||| (ffkeyUp + c.setWidth 32 - 0x41), data.drop (i + 1))
    else (-1, data)

/-- `guard && d[i] == c`, which reads only if the guard holds. -/
def testAt (guard : Bool) (data : List Byte) (i : Nat) (c : Byte) : Option Bool :=
  if guard then data[i]?.map (· == c) else some false

/-- `ffstd_keyparse` with every read of `d[i]` in the order of the code. None is a read behind
the end of the data. -/
def ffstdKeyparseChecked (data : List Byte) : Option (BitVec 32 × List Byte) :=
  if data.length = 0 then some (-1, data)
  else do
    let d0 ← data[0]?
    let escape ← testAt (d0 = 0x1b ∧ data.length ≥ 3) data 1 0x5b
    if escape then
      let d2 ← data[2]?
      let modified ← testAt (d2 = 0x31 ∧ data.length > 5) data 3 0x3b
      if modified then
        let d4 ← data[4]?
        match keyEsc1[(d4.setWidth 32 - 0x32 : BitVec 32).toNat]? with
        | none => some (-1, data)
        | some r => arrowAtChecked data r 5
      else arrowAtChecked data 0 2
    else some (d0.signExtend 32, data.drop 1)

theorem getElem?_eq_getD {data : List Byte} {i : Nat} (inside : i < data.length) :
    data[i]? = some (data.getD i 0) := by
  rw [List.getD_eq_getElem?_getD, List.getElem?_eq_getElem inside, Option.getD_some]

theorem arrowAtChecked_eq {data : List Byte} {i : Nat} (inside : i < data.length)
    (r : BitVec 32) : arrowAtChecked data r i = some (arrowAt data r i) := by
  rw [arrowAtChecked, getElem?_eq_getD inside]
  rfl

theorem testAt_eq {data : List Byte} {i : Nat} {guard : Prop} [Decidable guard]
    (inside : guard → i < data.length) (c : Byte) :
    testAt guard data i c = some (decide (guard ∧ data.getD i 0 = c)) := by
  unfold testAt
  by_cases holds : guard
  · rw [if_pos (decide_eq_true holds), getElem?_eq_getD (inside holds), Option.map_some,
      beq_eq_decide]
    simp only [holds, true_and]
  · simp [holds]

/-- No read is behind the end: each comes after a test of the length. -/
theorem ffstdKeyparseChecked_eq (data : List Byte) :
    ffstdKeyparseChecked data = some (ffstdKeyparse data) := by
  unfold ffstdKeyparseChecked ffstdKeyparse
  by_cases empty : data.length = 0
  · rw [if_pos empty, if_pos empty]
  · have first : 0 < data.length := Nat.pos_of_ne_zero empty
    have escapeTest := @testAt_eq data 1 (data.getD 0 0 = 0x1b ∧ data.length ≥ 3) _
      (fun guard => by omega) 0x5b
    rw [if_neg empty, if_neg empty, getElem?_eq_getD first, Option.bind_eq_bind, Option.bind_some,
      escapeTest, Option.bind_eq_bind, Option.bind_some]
    simp only [and_assoc, decide_eq_true_eq]
    by_cases escape : data.getD 0 0 = 0x1b ∧ data.length ≥ 3 ∧ data.getD 1 0 = 0x5b
    · have third : 2 < data.length := escape.2.1
      have modifiedTest := @testAt_eq data 3 (data.getD 2 0 = 0x31 ∧ data.length > 5) _
        (fun guard => by omega) 0x3b
      rw [if_pos escape, if_pos escape, getElem?_eq_getD third, Option.bind_some, modifiedTest,
        Option.bind_some]
      simp only [and_assoc, decide_eq_true_eq]
      by_cases modified : data.getD 2 0 = 0x31 ∧ data.length > 5 ∧ data.getD 3 0 = 0x3b
      · have fifth : 4 < data.length := Nat.lt_of_succ_lt modified.2.1
        rw [if_pos modified, if_pos modified, getElem?_eq_getD fifth, Option.bind_some]
        cases keyEsc1[((data.getD 4 0).setWidth 32 - 0x32 : BitVec 32).toNat]? with
        | none => rfl
        | some r => exact arrowAtChecked_eq modified.2.1 r
      · rw [if_neg modified, if_neg modified]
        exact arrowAtChecked_eq third 0
    · rw [if_neg escape, if_neg escape]

/-! ### The sign of the result -/

/-- What the code documents: a negative result leaves the data as it is, any other result has
taken at least one byte of it. -/
def SignalsErrors (data : List Byte) : Prop :=
  (ffstdKeyparse data).1.toInt < 0 ∧ (ffstdKeyparse data).2 = data ∨
    0 ≤ (ffstdKeyparse data).1.toInt ∧
      ∃ used, 1 ≤ used ∧ used ≤ data.length ∧ (ffstdKeyparse data).2 = data.drop used

/-- The data begins with the sequence of an arrow key. -/
def BeginsWithArrow (data : List Byte) : Prop :=
  ∃ direction modifiers, (Key.arrow direction modifiers).sent <+: data

/-- `FFKEY_VIRT` is the sign bit. -/
theorem code_arrow_neg (direction : Arrow) (modifiers : Modifiers) :
    (Key.arrow direction modifiers).code.toInt < 0 := by
  obtain ⟨shift, alt, ctrl⟩ := modifiers
  cases direction <;> cases shift <;> cases alt <;> cases ctrl <;> decide

/-- So is the top bit of a byte that is returned as a `char`. -/
theorem toInt_signExtend_nonneg_iff (c : Byte) : 0 ≤ (c.signExtend 32).toInt ↔ c < 0x80 := by
  have bound := c.isLt
  have below : c < 0x80 ↔ c.toNat < 128 := Iff.rfl
  rw [BitVec.toInt_signExtend_of_le (by decide), BitVec.toInt_eq_toNat_cond, below]
  split <;> omega

theorem letter_of_range {c : Byte} (range : 0x41 ≤ c ∧ c ≤ 0x44) :
    ∃ direction : Arrow, direction.letter = c := by
  have above : 0x41 ≤ c.toNat := range.1
  have below : c.toNat ≤ 0x44 := range.2
  obtain up | down | right | left :
      c.toNat = 0x41 ∨ c.toNat = 0x42 ∨ c.toNat = 0x43 ∨ c.toNat = 0x44 := by omega
  · exact ⟨.up, BitVec.eq_of_toNat_eq up.symm⟩
  · exact ⟨.down, BitVec.eq_of_toNat_eq down.symm⟩
  · exact ⟨.right, BitVec.eq_of_toNat_eq right.symm⟩
  · exact ⟨.left, BitVec.eq_of_toNat_eq left.symm⟩

/-- The table has an entry for each of '2' to '8', and these are the digits that a terminal
sends. -/
theorem digit_of_keyEsc1 {c : Byte} {r : BitVec 32}
    (found : keyEsc1[(c.setWidth 32 - 0x32 : BitVec 32).toNat]? = some r) :
    ∃ modifiers : Modifiers, modifiers ≠ .none ∧ modifiers.digit = c := by
  obtain ⟨index, _⟩ := List.getElem?_eq_some_iff.mp found
  have entries : keyEsc1.length = 7 := rfl
  have bound := c.isLt
  have constant : (0x32 : BitVec 32).toNat = 0x32 := rfl
  rw [entries, BitVec.toNat_sub, BitVec.toNat_setWidth, constant] at index
  obtain two | three | four | five | six | seven | eight : c.toNat = 0x32 ∨ c.toNat = 0x33 ∨
      c.toNat = 0x34 ∨ c.toNat = 0x35 ∨ c.toNat = 0x36 ∨ c.toNat = 0x37 ∨ c.toNat = 0x38 := by
    omega
  · exact ⟨⟨true, false, false⟩, by decide, BitVec.eq_of_toNat_eq two.symm⟩
  · exact ⟨⟨false, true, false⟩, by decide, BitVec.eq_of_toNat_eq three.symm⟩
  · exact ⟨⟨true, true, false⟩, by decide, BitVec.eq_of_toNat_eq four.symm⟩
  · exact ⟨⟨false, false, true⟩, by decide, BitVec.eq_of_toNat_eq five.symm⟩
  · exact ⟨⟨true, false, true⟩, by decide, BitVec.eq_of_toNat_eq six.symm⟩
  · exact ⟨⟨false, true, true⟩, by decide, BitVec.eq_of_toNat_eq seven.symm⟩
  · exact ⟨⟨true, true, true⟩, by decide, BitVec.eq_of_toNat_eq eight.symm⟩

/-! ### All data -/

/-- An escape sequence is an error or that of an arrow key. -/
theorem ffstdKeyparse_escape_cases (third : Byte) (more : List Byte) :
    ffstdKeyparse (0x1b :: 0x5b :: third :: more) = (-1, 0x1b :: 0x5b :: third :: more) ∨
      BeginsWithArrow (0x1b :: 0x5b :: third :: more) := by
  by_cases one : third = 0x31
  · subst one
    have notLetter : ¬((0x41 : Byte) ≤ 0x31 ∧ (0x31 : Byte) ≤ 0x44) := by decide
    by_cases long : (0x1b :: 0x5b :: 0x31 :: more).length > 5 ∧
        (0x1b :: 0x5b :: 0x31 :: more : List Byte).getD 3 0 = 0x3b
    · obtain ⟨semicolon, m, c, tail, rfl⟩ :
          ∃ semicolon m c tail, more = semicolon :: m :: c :: tail := by
        rcases more with - | ⟨semicolon, - | ⟨m, - | ⟨c, tail⟩⟩⟩
        · exact absurd long.1 (by simp)
        · exact absurd long.1 (by simp)
        · exact absurd long.1 (by simp)
        · exact ⟨semicolon, m, c, tail, rfl⟩
      obtain rfl : semicolon = 0x3b := long.2
      cases found : keyEsc1[(m.setWidth 32 - 0x32 : BitVec 32).toNat]? with
      | none =>
          left
          unfold ffstdKeyparse
          rw [if_neg (by simp), if_pos ⟨rfl, by simp, rfl⟩, if_pos ⟨rfl, by simp, rfl⟩]
          have digit : (0x1b :: 0x5b :: 0x31 :: 0x3b :: m :: c :: tail).getD 4 0 = m := rfl
          simp only [digit, found]
      | some r =>
          rw [ffstdKeyparse_long_escape m c tail found]
          by_cases range : 0x41 ≤ c ∧ c ≤ 0x44
          · right
            obtain ⟨direction, letter⟩ := letter_of_range range
            obtain ⟨modifiers, modified, digit⟩ := digit_of_keyEsc1 found
            refine ⟨direction, modifiers, tail, ?_⟩
            rw [Key.sent, if_neg modified, letter, digit]
            rfl
          · exact Or.inl (arrowAt_other range)
    · left
      unfold ffstdKeyparse
      rw [if_neg (by simp), if_pos ⟨rfl, by simp, rfl⟩, if_neg fun tests => long tests.2]
      exact arrowAt_other notLetter
  · rw [ffstdKeyparse_escape one]
    by_cases range : 0x41 ≤ third ∧ third ≤ 0x44
    · right
      obtain ⟨direction, letter⟩ := letter_of_range range
      refine ⟨direction, .none, more, ?_⟩
      rw [Key.sent, if_pos rfl, letter]
      rfl
    · exact Or.inl (arrowAt_other range)

/-- How a call ends: with an error, which leaves the data, with an arrow key, or with the first
byte. -/
theorem ffstdKeyparse_cases (data : List Byte) :
    (ffstdKeyparse data = (-1, data) ∧ ∀ c ∈ data.head?, c = 0x1b) ∨ BeginsWithArrow data ∨
      ∃ c rest, data = c :: rest ∧ ffstdKeyparse data = (c.signExtend 32, rest) := by
  cases data with
  | nil => exact Or.inl ⟨rfl, by simp⟩
  | cons first rest =>
      by_cases escape : (first :: rest).getD 0 0 = 0x1b ∧ (first :: rest).length ≥ 3 ∧
          (first :: rest).getD 1 0 = 0x5b
      · obtain rfl : first = 0x1b := escape.1
        obtain ⟨second, third, more, rfl⟩ : ∃ second third more, rest = second :: third :: more := by
          rcases rest with - | ⟨second, - | ⟨third, more⟩⟩
          · exact absurd escape.2.1 (by simp)
          · exact absurd escape.2.1 (by simp)
          · exact ⟨second, third, more, rfl⟩
        obtain rfl : second = 0x5b := escape.2.2
        rcases ffstdKeyparse_escape_cases third more with failed | begins
        · exact Or.inl ⟨failed, by simp⟩
        · exact Or.inr (Or.inl begins)
      · refine Or.inr (Or.inr ⟨first, rest, rfl, ?_⟩)
        unfold ffstdKeyparse
        rw [if_neg (by simp), if_neg escape]
        rfl

/-- A call that meets an arrow key takes it, and its value is negative. -/
theorem ffstdKeyparse_of_arrow {data : List Byte} (begins : BeginsWithArrow data) :
    (ffstdKeyparse data).1.toInt < 0 ∧ (ffstdKeyparse data).2 ≠ data ∧
      data.head? = some 0x1b := by
  obtain ⟨direction, modifiers, rest, rfl⟩ := begins
  rw [ffstdKeyparse_sent]
  refine ⟨code_arrow_neg direction modifiers, ?_, ?_⟩
  · intro same
    have lengths := congrArg List.length same
    have sent := List.length_pos_of_ne_nil (sent_ne_nil (.arrow direction modifiers))
    rw [List.length_append] at lengths
    dsimp only at lengths
    omega
  · rw [Key.sent]
    split <;> rfl

/-- `ffstd_keyparse` signals errors as documented if and only if the data begins neither with
an arrow key nor with a byte from 0x80 on. -/
theorem signalsErrors_iff (data : List Byte) :
    ffstdKeyparseChecked data ≠ none ∧
      (SignalsErrors data ↔ ¬BeginsWithArrow data ∧ ∀ c ∈ data.head?, c < 0x80) := by
  refine ⟨by rw [ffstdKeyparseChecked_eq]; exact Option.some_ne_none _, ?_⟩
  rcases ffstdKeyparse_cases data with ⟨failed, onlyEscape⟩ | begins | ⟨c, rest, rfl, plain⟩
  · have notArrow : ¬BeginsWithArrow data := by
      intro begins
      obtain ⟨_, taken, _⟩ := ffstdKeyparse_of_arrow begins
      rw [failed] at taken
      exact taken rfl
    apply iff_of_true
    · have negative : (-1 : BitVec 32).toInt < 0 := by decide
      rw [SignalsErrors, failed]
      exact Or.inl ⟨negative, rfl⟩
    · refine ⟨notArrow, ?_⟩
      intro c member
      rw [onlyEscape c member]
      decide
  · obtain ⟨negative, taken, _⟩ := ffstdKeyparse_of_arrow begins
    apply iff_of_false
    · rintro (⟨_, same⟩ | ⟨nonneg, _⟩)
      · exact taken same
      · exact absurd negative (Int.not_lt.mpr nonneg)
    · exact fun both => both.1 begins
  · have oneUsed : rest ≠ c :: rest := fun same => absurd (congrArg List.length same) (by simp)
    have signals : SignalsErrors (c :: rest) ↔ c < 0x80 := by
      rw [SignalsErrors, plain, ← toInt_signExtend_nonneg_iff]
      constructor
      · rintro (⟨_, same⟩ | ⟨nonneg, _⟩)
        · exact absurd same oneUsed
        · exact nonneg
      · intro nonneg
        exact Or.inr ⟨nonneg, 1, Nat.le_refl 1, by simp, rfl⟩
    rw [signals]
    constructor
    · intro ascii
      refine ⟨?_, by simpa using ascii⟩
      intro begins
      obtain ⟨negative, _, _⟩ := ffstdKeyparse_of_arrow begins
      rw [plain] at negative
      exact absurd negative (Int.not_lt.mpr ((toInt_signExtend_nonneg_iff c).mpr ascii))
    · rintro ⟨_, ascii⟩
      exact ascii c rfl

/-- The up key is taken and looks like an error, and so does the first byte of "é". -/
theorem not_signalsErrors_up :
    ffstdKeyparse [0x1b, 0x5b, 0x41] = (ffkeyUp, []) ∧ ¬SignalsErrors [0x1b, 0x5b, 0x41] ∧
      ffstdKeyparse [0xc3, 0xa9] = (-61, [0xa9]) ∧ ¬SignalsErrors [0xc3, 0xa9] := by
  have up : ffstdKeyparse [0x1b, 0x5b, 0x41] = (ffkeyUp, []) := by decide
  have accented : ffstdKeyparse [0xc3, 0xa9] = (-61, [0xa9]) := by decide
  refine ⟨up, ?_, accented, ?_⟩
  · rw [SignalsErrors, up]
    rintro (⟨_, same⟩ | ⟨nonneg, _⟩)
    · exact absurd same (by decide)
    · exact absurd nonneg (by decide)
  · rw [SignalsErrors, accented]
    rintro (⟨_, same⟩ | ⟨nonneg, _⟩)
    · exact absurd same (by decide)
    · exact absurd nonneg (by decide)

end Ffos.Std
