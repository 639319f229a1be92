/-
Module: Ffos.Lib.SerialNumber
Purpose: Comparison of wrapped counters by their signed difference, and when it
  agrees with the order of the unbounded counters behind them.
Trusted boundary: none
Main exports: serialDiff, Near, serialDiff_ofNat, serialDiff_ofNat_neg_iff,
  serialDiff_ofNat_pos_iff, abs_eq_ofNat_natAbs
-/
import Mathlib.Data.Int.Order.Lemmas
import Mathlib.Tactic.Ring

namespace Ffos.Lib

/-- The difference of two `w`-bit counters read as a signed number: the C
expression `(int)(a - b)` at `w = 32`. -/
def serialDiff {w : Nat} (a b : BitVec w) : Int :=
  (a - b).toInt

/-- Two unbounded counters are closer than half the range of `w`-bit counters. -/
def Near (w x y : Nat) : Prop :=
  2 * ((x : Int) - y) < 2 ^ w ∧ 2 * ((y : Int) - x) < 2 ^ w

/-- Inside half the range the signed difference of the wrapped counters is the
difference of the counters themselves, wherever the wrap falls. -/
theorem serialDiff_ofNat {w x y : Nat} (near : Near w x y) :
    serialDiff (BitVec.ofNat w x) (BitVec.ofNat w y) = (x : Int) - y := by
  have wrapped : serialDiff (BitVec.ofNat w x) (BitVec.ofNat w y) =
      ((x : Int) - y).bmod (2 ^ w) := by
    rw [serialDiff, BitVec.toInt_sub, BitVec.toInt_ofNat', BitVec.toInt_ofNat',
      Int.bmod_sub_bmod, Int.sub_bmod_bmod]
  rw [wrapped]
  obtain ⟨upper, lower⟩ := near
  apply Int.bmod_eq_of_le_mul_two
  · push_cast
    omega
  · push_cast
    omega

theorem serialDiff_ofNat_neg_iff {w x y : Nat} (near : Near w x y) :
    serialDiff (BitVec.ofNat w x) (BitVec.ofNat w y) < 0 ↔ x < y := by
  rw [serialDiff_ofNat near]
  omega

theorem serialDiff_ofNat_pos_iff {w x y : Nat} (near : Near w x y) :
    0 < serialDiff (BitVec.ofNat w x) (BitVec.ofNat w y) ↔ y < x := by
  rw [serialDiff_ofNat near]
  omega

/-- The absolute value of a signed counter, as an unsigned one. It is right for
the least negative number too, which wraps to itself. -/
theorem abs_eq_ofNat_natAbs {w : Nat} (x : BitVec w) :
    x.abs = BitVec.ofNat w x.toInt.natAbs := by
  apply BitVec.eq_of_toNat_eq
  have bound := x.isLt
  have absolute : x.abs.toNat = x.toInt.natAbs := by
    rw [BitVec.toNat_abs, BitVec.toInt_eq_msb_cond]
    split <;> omega
  rw [BitVec.toNat_ofNat, ← absolute, Nat.mod_eq_of_lt x.abs.isLt]

end Ffos.Lib
