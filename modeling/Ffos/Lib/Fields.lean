/-
Module: Ffos.Lib.Fields
Purpose: Fields of a piece of memory by offset and size, and overwriting one of them: what was
  written is read back, and the other fields stay.
Trusted boundary: none
Main exports: fieldAt, overwrite, fieldAt_append, fieldAt_overwrite, fieldAt_overwrite_of_disjoint
-/
import Mathlib.Data.List.Basic

namespace Ffos.Lib

universe u

variable {α : Type u}

/-- The `count` elements from `offset` on. -/
def fieldAt (memory : List α) (offset count : Nat) : List α := (memory.drop offset).take count

/-- The memory after the values were stored from `offset` on. -/
def overwrite (memory : List α) (offset : Nat) (values : List α) : List α :=
  memory.take offset ++ values ++ memory.drop (offset + values.length)

theorem length_fieldAt {memory : List α} {offset count : Nat}
    (inside : offset + count ≤ memory.length) : (fieldAt memory offset count).length = count := by
  rw [fieldAt, List.length_take, List.length_drop]
  omega

/-- Two fields next to each other make one. -/
theorem fieldAt_append (memory : List α) (offset first second : Nat) :
    fieldAt memory offset (first + second) =
      fieldAt memory offset first ++ fieldAt memory (offset + first) second := by
  rw [fieldAt, fieldAt, fieldAt, List.take_add, List.drop_drop]

theorem length_overwrite {memory values : List α} {offset : Nat}
    (inside : offset + values.length ≤ memory.length) :
    (overwrite memory offset values).length = memory.length := by
  simp only [overwrite, List.length_append, List.length_take, List.length_drop]
  omega

/-- What was written is read back. -/
theorem fieldAt_overwrite {memory values : List α} {offset : Nat}
    (inside : offset + values.length ≤ memory.length) :
    fieldAt (overwrite memory offset values) offset values.length = values := by
  have place : (memory.take offset).length = offset := by
    rw [List.length_take]
    omega
  rw [fieldAt, overwrite, List.append_assoc, List.drop_left' place, List.take_left]

/-- A field in front of what was written, or behind it, stays. -/
theorem fieldAt_overwrite_of_disjoint {memory values : List α} {offset other count : Nat}
    (inside : offset + values.length ≤ memory.length)
    (disjoint : other + count ≤ offset ∨ offset + values.length ≤ other) :
    fieldAt (overwrite memory offset values) other count = fieldAt memory other count := by
  have place : (memory.take offset).length = offset := by
    rw [List.length_take]
    omega
  rcases disjoint with before | behind
  · have inFront : count ≤ ((memory.take offset).drop other).length := by
      rw [List.length_drop, place]
      omega
    rw [fieldAt, overwrite, List.append_assoc, List.drop_append_of_le_length (by omega),
      List.take_append_of_le_length inFront, List.drop_take, List.take_take, Nat.min_eq_left (by omega),
      fieldAt]
  · have head : (memory.take offset ++ values).length = offset + values.length := by
      rw [List.length_append, place]
    have reached : other = (memory.take offset ++ values).length + (other - (offset + values.length)) := by
      omega
    rw [fieldAt, overwrite, reached, List.drop_length_add_append, List.drop_drop, head, fieldAt]

end Ffos.Lib
