/-
Module: Ffos.DirScan.FilenameOrder
Purpose: `_ffdirscan_filename_cmpz` of FFOS/dirscan.h orders names: letter by letter
  without regard to case first, a small letter before its capital.
Trusted boundary: none
Main exports: Name, ffdirscanFilenameCmpz, Name.key, ffdirscanFilenameCmpz_eq
-/
import Ffos.Lib.ByteMemory
import Mathlib.Data.List.Lex
import Mathlib.Order.Lattice

namespace Ffos.DirScan

open Ffos.Lib

/-- A file name: bytes other than NUL. -/
structure Name where
  bytes : List Byte
  noNul : 0 ∉ bytes
deriving DecidableEq

@[ext] theorem Name.ext {first second : Name} (same : first.bytes = second.bytes) :
    first = second := by
  cases first
  cases second
  cases same
  rfl

/-- The name with its terminator. -/
def Name.z (name : Name) : List Byte := name.bytes ++ [0]

@[simp] theorem Name.length_z (name : Name) : name.z.length = name.bytes.length + 1 := by
  simp [Name.z]

/-- `if (c >= 'A' && c <= 'Z') c |= 0x20`. -/
def lower (c : Byte) : Byte := if 65 ≤ c ∧ c ≤ 90 then c ||| 0x20 else c

/-- `<` on `char`, which is signed on some machines. -/
def charLt (signedChar : Bool) (left right : Byte) : Bool :=
  if signedChar then left.slt right else left.ult right

/-- `_ffdirscan_filename_cmpz` on the memory from `a` on and from `b` on. It fails when
it runs past the end of either. -/
def ffdirscanFilenameCmpz (signedChar : Bool) : List Byte → List Byte → Option Int
  | cl :: a, cr :: b =>
      if cl ≠ cr then
        if lower cl < lower cr then some (-1)
        else if lower cr < lower cl then some 1
        else if charLt signedChar cl cr then some 1  -- "a" < "A"
        else some (-1)
      else if cl = 0 then some 0
      else ffdirscanFilenameCmpz signedChar a b
  | [], _ => none
  | _ :: _, [] => none

/-! ### The order behind it -/

/-- The place of a byte in the order: its small letter, and after that the byte
itself, capitals last. -/
def rank (c : Byte) : Nat := 2 * (lower c).toNat + (if 65 ≤ c ∧ c ≤ 90 then 1 else 0)

/-- Names compare as the lists of the places of their bytes. -/
def Name.key (name : Name) : List Nat := name.bytes.map rank

/-- -1, 0 or 1 as the first key is below, at or above the second. -/
def sign {Key : Type} [LinearOrder Key] (first second : Key) : Int :=
  if first < second then -1 else if second < first then 1 else 0

/-- What the comparison of two names gives. -/
def Name.order (first second : Name) : Int := sign first.key second.key

theorem lower_toNat (c : Byte) :
    (lower c).toNat = if 65 ≤ c.toNat ∧ c.toNat ≤ 90 then c.toNat + 32 else c.toNat := by
  revert c
  decide

theorem rank_eq (c : Byte) :
    rank c = if 65 ≤ c.toNat ∧ c.toNat ≤ 90 then 2 * c.toNat + 65 else 2 * c.toNat := by
  have capital : (65 ≤ c ∧ c ≤ 90) ↔ (65 ≤ c.toNat ∧ c.toNat ≤ 90) := Iff.rfl
  unfold rank
  rw [lower_toNat]
  simp only [capital]
  split <;> omega

theorem rank_injective : Function.Injective rank := by
  intro first second same
  rw [rank_eq, rank_eq] at same
  apply BitVec.eq_of_toNat_eq
  split at same <;> split at same <;> omega

/-- Below 128 the sign of `char` does not matter. -/
theorem charLt_small (signedChar : Bool) {left right : Byte} (leftSmall : left.toNat < 128)
    (rightSmall : right.toNat < 128) :
    charLt signedChar left right = decide (left.toNat < right.toNat) := by
  cases signedChar with
  | false => rfl
  | true =>
      have leftInt : left.toInt = left.toNat := BitVec.toInt_eq_toNat_of_lt (by omega)
      have rightInt : right.toInt = right.toNat := BitVec.toInt_eq_toNat_of_lt (by omega)
      simp [charLt, BitVec.slt_eq_decide, leftInt, rightInt]

/-- What the function returns at the first difference. -/
theorem cmp_byte (signedChar : Bool) {cl cr : Byte} (different : cl ≠ cr) :
    (if lower cl < lower cr then some (-1)
      else if lower cr < lower cl then some 1
      else if charLt signedChar cl cr then some 1 else some (-1)) =
      some (if rank cl < rank cr then (-1 : Int) else 1) := by
  have leftLower := lower_toNat cl
  have rightLower := lower_toNat cr
  have leftRank := rank_eq cl
  have rightRank := rank_eq cr
  have apart : cl.toNat ≠ cr.toNat := fun same => different (BitVec.eq_of_toNat_eq same)
  rcases Nat.lt_trichotomy (lower cl).toNat (lower cr).toNat with below | same | above
  · have ranks : rank cl < rank cr := by
      split at leftRank <;> split at rightRank <;> simp_all <;> omega
    rw [if_pos (show lower cl < lower cr from below), if_pos ranks]
  · -- a letter and its capital
    have small : cl.toNat < 128 ∧ cr.toNat < 128 := by
      split at leftLower <;> split at rightLower <;> omega
    have ranks : rank cl < rank cr ↔ ¬ cl.toNat < cr.toNat := by
      split at leftRank <;> split at rightRank <;> simp_all <;> omega
    rw [if_neg (show ¬ lower cl < lower cr from by rw [BitVec.lt_def]; omega),
      if_neg (show ¬ lower cr < lower cl from by rw [BitVec.lt_def]; omega),
      charLt_small signedChar small.1 small.2]
    by_cases less : cl.toNat < cr.toNat
    · simp [less, ranks]
    · simp [less, ranks]
  · have ranks : ¬ rank cl < rank cr := by
      split at leftRank <;> split at rightRank <;> simp_all <;> omega
    rw [if_neg (show ¬ lower cl < lower cr from by rw [BitVec.lt_def]; omega),
      if_pos (show lower cr < lower cl from above), if_neg ranks]

/-! ### The sign of a comparison -/

section Sign

variable {Key : Type} [LinearOrder Key] {first second third : Key}

theorem sign_self (key : Key) : sign key key = 0 := by
  simp [sign]

theorem sign_of_lt (less : first < second) : sign first second = -1 := if_pos less

theorem sign_of_gt (greater : second < first) : sign first second = 1 := by
  rw [sign, if_neg greater.not_gt, if_pos greater]

theorem sign_eq_zero_iff : sign first second = 0 ↔ first = second := by
  constructor
  · intro zero
    rcases lt_trichotomy first second with less | same | greater
    · simp [sign_of_lt less] at zero
    · exact same
    · simp [sign_of_gt greater] at zero
  · rintro rfl
    exact sign_self first

theorem sign_swap (first second : Key) : sign second first = -sign first second := by
  rcases lt_trichotomy first second with less | rfl | greater
  · rw [sign_of_lt less, sign_of_gt less, Int.neg_neg]
  · rw [sign_self, Int.neg_zero]
  · rw [sign_of_lt greater, sign_of_gt greater]

theorem sign_neg_iff : sign first second < 0 ↔ first < second := by
  rcases lt_trichotomy first second with less | rfl | greater
  · simp [sign_of_lt less, less]
  · simp [sign_self]
  · simp [sign_of_gt greater, greater.not_gt]

theorem sign_nonpos_iff : sign first second ≤ 0 ↔ first ≤ second := by
  rcases lt_trichotomy first second with less | rfl | greater
  · simp [sign_of_lt less, less.le]
  · simp [sign_self]
  · simp [sign_of_gt greater, greater]

/-- The first difference decides between lists. -/
theorem sign_cons (first second : Key) (firsts seconds : List Key) :
    sign (first :: firsts) (second :: seconds) =
      if first = second then sign firsts seconds else if first < second then -1 else 1 := by
  by_cases same : first = second
  · subst same
    rw [if_pos rfl]
    rcases lt_trichotomy firsts seconds with less | rfl | greater
    · rw [sign_of_lt less, sign_of_lt (List.cons_lt_cons_iff.mpr (Or.inr ⟨rfl, less⟩))]
    · rw [sign_self, sign_self]
    · rw [sign_of_gt greater, sign_of_gt (List.cons_lt_cons_iff.mpr (Or.inr ⟨rfl, greater⟩))]
  · rw [if_neg same]
    by_cases less : first < second
    · rw [if_pos less, sign_of_lt (List.cons_lt_cons_iff.mpr (Or.inl less))]
    · have greater : second < first := lt_of_le_of_ne (not_lt.mp less) (Ne.symm same)
      rw [if_neg less, sign_of_gt (List.cons_lt_cons_iff.mpr (Or.inl greater))]

end Sign

/-! ### The function computes the order -/

theorem cmpz_bytes (signedChar : Bool) {first second : List Byte} (firstNoNul : 0 ∉ first)
    (secondNoNul : 0 ∉ second) (firstRest secondRest : List Byte) :
    ffdirscanFilenameCmpz signedChar (first ++ 0 :: firstRest) (second ++ 0 :: secondRest) =
      some (sign (first.map rank) (second.map rank)) := by
  induction first generalizing second with
  | nil =>
      cases second with
      | nil => rfl
      | cons cr second =>
          have different : (0 : Byte) ≠ cr := by
            rintro rfl
            simp at secondNoNul
          have positive : rank 0 < rank cr := by
            have apart : cr.toNat ≠ 0 := fun zero => different (BitVec.eq_of_toNat_eq zero.symm)
            rw [rank_eq cr]
            have bottom : rank 0 = 0 := by decide
            split <;> omega
          simp only [List.nil_append, List.cons_append, ffdirscanFilenameCmpz, different,
            ne_eq, not_false_eq_true, if_true]
          rw [cmp_byte signedChar different, if_pos positive]
          rfl
  | cons cl first inductionHypothesis =>
      obtain ⟨clNotNul, firstNoNul⟩ := not_or.mp (mt List.mem_cons.mpr firstNoNul)
      cases second with
      | nil =>
          have different : cl ≠ 0 := fun same => clNotNul same.symm
          have notBelow : ¬ rank cl < rank 0 := by
            have bottom : rank 0 = 0 := by decide
            omega
          simp only [List.nil_append, List.cons_append, ffdirscanFilenameCmpz, different,
            ne_eq, not_false_eq_true, if_true]
          rw [cmp_byte signedChar different, if_neg notBelow]
          rfl
      | cons cr second =>
          obtain ⟨_, restNoNul⟩ := not_or.mp (mt List.mem_cons.mpr secondNoNul)
          rw [List.map_cons, List.map_cons, sign_cons]
          by_cases same : cl = cr
          · subst same
            have notNul : cl ≠ 0 := fun isNul => clNotNul isNul.symm
            simp only [List.cons_append, ffdirscanFilenameCmpz, ne_eq, not_true_eq_false,
              if_false, notNul, if_true]
            exact inductionHypothesis firstNoNul restNoNul
          · simp only [List.cons_append, ffdirscanFilenameCmpz, same, ne_eq, not_false_eq_true,
              if_true]
            rw [cmp_byte signedChar same, if_neg fun ranks => same (rank_injective ranks)]

/-- On two names, whatever follows them in memory. -/
theorem ffdirscanFilenameCmpz_eq (signedChar : Bool) (first second : Name)
    (firstRest secondRest : List Byte) :
    ffdirscanFilenameCmpz signedChar (first.z ++ firstRest) (second.z ++ secondRest) =
      some (first.order second) := by
  have compared := cmpz_bytes signedChar first.noNul second.noNul firstRest secondRest
  simpa [Name.z, Name.order, Name.key, List.append_assoc] using compared

theorem Name.key_injective : Function.Injective Name.key := by
  intro first second same
  exact Name.ext (List.map_injective_iff.mpr rank_injective same)

end Ffos.DirScan
