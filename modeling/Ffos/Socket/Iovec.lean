/-
Module: Ffos.Socket.Iovec
Purpose: `ffiovec_array_shift` of FFOS/socket.h drops bytes from the concatenation of its
  buffers, and a writer that shifts after each partial write transmits each byte once.
Trusted boundary: a vectored write takes a part from the front of its buffers and tells its
  length
Main exports: flatten_ffiovecArrayShift, suffix_ffiovecArrayShift, ffiovecArrayShift_eq_zero_iff,
  ffiovecArrayShift_add, Transmission, Transmission.balanced, ffiovecArrayShift_transmits
-/
import Mathlib.Algebra.GroupWithZero.Nat
import Mathlib.Data.List.Forall2
import Ffos.Lib.Transition
import Ffos.Socket.Model

namespace Ffos.Socket

open Ffos.Lib

/-! ### One buffer of the array -/

/-- The loop stops at a buffer that has bytes left. The skip ends inside it. -/
theorem ffiovecArrayShift_cons_of_lt {first : List Byte} {rest : List (List Byte)} {skip : Nat}
    (inside : skip < first.length) :
    ffiovecArrayShift (first :: rest) skip = (1, first.drop skip :: rest) := by
  have shifted : min skip first.length = skip := Nat.min_eq_left (Nat.le_of_lt inside)
  have left : (first.drop skip).length ≠ 0 := by
    rw [List.length_drop]
    exact Nat.sub_ne_zero_of_lt inside
  simp only [ffiovecArrayShift, ffiovecShift, shifted, if_pos left]

/-- The loop goes on after a buffer that it has used up, also an empty one. -/
theorem ffiovecArrayShift_cons_of_le {first : List Byte} {rest : List (List Byte)} {skip : Nat}
    (past : first.length ≤ skip) :
    ffiovecArrayShift (first :: rest) skip =
      ((ffiovecArrayShift rest (skip - first.length)).1,
        [] :: (ffiovecArrayShift rest (skip - first.length)).2) := by
  have shifted : min skip first.length = first.length := Nat.min_eq_right past
  simp only [ffiovecArrayShift, ffiovecShift, shifted, List.drop_length, List.length_nil,
    ne_eq, not_true_eq_false, if_false]

/-! ### The whole array -/

/-- Shifting an array drops bytes from the front of its content. -/
theorem flatten_ffiovecArrayShift (iov : List (List Byte)) (skip : Nat) :
    (ffiovecArrayShift iov skip).2.flatten = iov.flatten.drop skip := by
  induction iov generalizing skip with
  | nil => simp [ffiovecArrayShift]
  | cons first rest inductionHypothesis =>
      rw [List.flatten_cons, List.drop_append]
      cases Nat.lt_or_ge skip first.length with
      | inl inside =>
          have noMore : skip - first.length = 0 := Nat.sub_eq_zero_of_le (Nat.le_of_lt inside)
          rw [ffiovecArrayShift_cons_of_lt inside, noMore, List.drop_zero, List.flatten_cons]
      | inr past =>
          rw [ffiovecArrayShift_cons_of_le past, List.drop_of_length_le past, List.flatten_cons,
            inductionHypothesis]

/-- Each buffer keeps its end. -/
theorem suffix_ffiovecArrayShift (iov : List (List Byte)) (skip : Nat) :
    List.Forall₂ (fun after before => after <:+ before) (ffiovecArrayShift iov skip).2 iov := by
  induction iov generalizing skip with
  | nil => exact List.Forall₂.nil
  | cons first rest inductionHypothesis =>
      cases Nat.lt_or_ge skip first.length with
      | inl inside =>
          rw [ffiovecArrayShift_cons_of_lt inside]
          apply List.Forall₂.cons
          · exact List.drop_suffix skip first
          · exact List.forall₂_same.mpr fun buffer _ => List.suffix_refl buffer
      | inr past =>
          rw [ffiovecArrayShift_cons_of_le past]
          apply List.Forall₂.cons
          · exact List.nil_suffix
          · exact inductionHypothesis _

/-- The result tells whether bytes are left. -/
theorem ffiovecArrayShift_eq_zero_iff (iov : List (List Byte)) (skip : Nat) :
    (ffiovecArrayShift iov skip).1 = 0 ↔ (ffiovecArrayShift iov skip).2.flatten = [] := by
  induction iov generalizing skip with
  | nil => simp [ffiovecArrayShift]
  | cons first rest inductionHypothesis =>
      cases Nat.lt_or_ge skip first.length with
      | inl inside =>
          have left : first.drop skip ≠ [] := by
            intro nothing
            exact Nat.not_le_of_lt inside (List.drop_eq_nil_iff.mp nothing)
          simp [ffiovecArrayShift_cons_of_lt inside, left]
      | inr past =>
          rw [ffiovecArrayShift_cons_of_le past, List.flatten_cons, List.nil_append]
          exact inductionHypothesis _

/-- Two shifts make one, with the same array and the same result. -/
theorem ffiovecArrayShift_add (iov : List (List Byte)) (a b : Nat) :
    ffiovecArrayShift (ffiovecArrayShift iov a).2 b = ffiovecArrayShift iov (a + b) := by
  induction iov generalizing a b with
  | nil => rfl
  | cons first rest inductionHypothesis =>
      cases Nat.lt_or_ge a first.length with
      | inl inside =>
          rw [ffiovecArrayShift_cons_of_lt inside]
          cases Nat.lt_or_ge b (first.drop a).length with
          | inl insideAgain =>
              have insideBoth : a + b < first.length := by
                rw [List.length_drop] at insideAgain
                omega
              rw [ffiovecArrayShift_cons_of_lt insideAgain, ffiovecArrayShift_cons_of_lt insideBoth,
                List.drop_drop]
          | inr pastThen =>
              have pastBoth : first.length ≤ a + b := by
                rw [List.length_drop] at pastThen
                omega
              have sameRest : b - (first.drop a).length = a + b - first.length := by
                rw [List.length_drop]
                omega
              rw [ffiovecArrayShift_cons_of_le pastThen, ffiovecArrayShift_cons_of_le pastBoth,
                sameRest]
      | inr past =>
          have pastBoth : first.length ≤ a + b := Nat.le_trans past (Nat.le_add_right a b)
          have sameRest : a - first.length + b = a + b - first.length :=
            (Nat.sub_add_comm past).symm
          rw [ffiovecArrayShift_cons_of_le past, ffiovecArrayShift_cons_of_le (Nat.zero_le b),
            ffiovecArrayShift_cons_of_le pastBoth, List.length_nil, Nat.sub_zero,
            inductionHypothesis, sameRest]

/-! ### A writer that shifts after each write -/

/-- The bytes that were written so far, and the array with the rest. -/
structure Transmission where
  sent : List Byte
  iov : List (List Byte)
deriving DecidableEq, Repr

/-- One vectored write that takes `count` bytes, and the shift after it. -/
def Transmission.write (transmission : Transmission) (count : Nat) : Option Transmission :=
  if count ≤ transmission.iov.flatten.length then
    some ⟨transmission.sent ++ transmission.iov.flatten.take count,
      (ffiovecArrayShift transmission.iov count).2⟩
  else none

/-- A write as a step of a run. -/
def Transmission.Step (before : Transmission) (count : Nat) (after : Transmission) : Prop :=
  before.write count = some after

/-- What was sent and what is left make the data, and the counts make what was sent. -/
def Transmission.Balanced (data : List Byte) (counts : List Nat)
    (transmission : Transmission) : Prop :=
  transmission.sent ++ transmission.iov.flatten = data ∧ transmission.sent.length = counts.sum

/-- One write keeps the balance. -/
theorem Transmission.Balanced.write {data : List Byte} {counts : List Nat} {count : Nat}
    {before after : Transmission} (balanced : before.Balanced data counts)
    (step : before.Step count after) : after.Balanced data (counts ++ [count]) := by
  unfold Transmission.Step Transmission.write at step
  split at step
  case isFalse _ => cases step
  case isTrue within =>
      obtain rfl := Option.some.inj step
      constructor
      · rw [flatten_ffiovecArrayShift, List.append_assoc, List.take_append_drop]
        exact balanced.1
      · rw [List.length_append, List.length_take, Nat.min_eq_left within, balanced.2,
          List.sum_append, List.sum_singleton]

/-- Any run of writes keeps the balance. -/
theorem Transmission.balanced {iov : List (List Byte)} {counts : List Nat}
    {transmission : Transmission}
    (run : Run Transmission.Step ⟨[], iov⟩ counts transmission) :
    transmission.Balanced iov.flatten counts := by
  have initial : Transmission.Balanced iov.flatten [] ⟨[], iov⟩ := ⟨rfl, rfl⟩
  apply Run.history (Transmission.Balanced iov.flatten) initial _ run
  intro past before count after balanced step
  exact balanced.write step

/-- `ffiovec_array_shift` is dropping from the concatenation: the content, each buffer and
the result, two shifts in a row, and every run of partial writes with shifts in between. -/
theorem ffiovecArrayShift_transmits (iov : List (List Byte)) (skip : Nat) :
    (ffiovecArrayShift iov skip).2.flatten =
        iov.flatten.drop (min skip iov.flatten.length) ∧
      List.Forall₂ (fun after before => after <:+ before) (ffiovecArrayShift iov skip).2 iov ∧
      ((ffiovecArrayShift iov skip).1 = 0 ↔ (ffiovecArrayShift iov skip).2.flatten = []) ∧
      (∀ a b, ffiovecArrayShift (ffiovecArrayShift iov a).2 b = ffiovecArrayShift iov (a + b)) ∧
      ∀ counts transmission, Run Transmission.Step ⟨[], iov⟩ counts transmission →
        transmission.sent ++ transmission.iov.flatten = iov.flatten ∧
          transmission.sent = iov.flatten.take counts.sum := by
  refine ⟨?_, suffix_ffiovecArrayShift iov skip, ffiovecArrayShift_eq_zero_iff iov skip,
    ffiovecArrayShift_add iov, ?_⟩
  · rw [flatten_ffiovecArrayShift]
    cases Nat.le_total skip iov.flatten.length with
    | inl within => rw [Nat.min_eq_left within]
    | inr past => rw [Nat.min_eq_right past, List.drop_length, List.drop_of_length_le past]
  · intro counts transmission run
    have balanced := Transmission.balanced run
    refine ⟨balanced.1, ?_⟩
    rw [← balanced.1, ← balanced.2, List.take_left]

/-- Three buffers, one of them empty, in two writes. -/
theorem ffiovecArrayShift_transmits_two_writes :
    (ffiovecArrayShift [[1, 2], [], [3, 4]] 3).2 = [[], [], [4]] ∧
      ([1, 2, 3] : List Byte) = [[1, 2], [], [3, 4]].flatten.take [2, 1].sum := by
  refine ⟨by decide, ?_⟩
  have run : Run Transmission.Step ⟨[], [[1, 2], [], [3, 4]]⟩ [2, 1] ⟨[1, 2, 3], [[], [], [4]]⟩ :=
    Run.of_fireAll (fun _ _ _ fired => fired) (by decide)
  exact ((ffiovecArrayShift_transmits [[1, 2], [], [3, 4]] 3).2.2.2.2 _ _ run).2

end Ffos.Socket
