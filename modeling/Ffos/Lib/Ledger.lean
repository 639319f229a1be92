/-
Module: Ffos.Lib.Ledger
Purpose: A writer that hands items to a channel and is told later how many were taken.
  A background write may be ahead of what was acknowledged; the ledger stays balanced.
Trusted boundary: none
Main exports: Ledger, Ledger.handed, Ledger.Step, Ledger.Balanced, Ledger.Step.balanced,
  Ledger.Balanced.handed_eq
-/
import Mathlib.Data.List.Infix

namespace Ffos.Lib

universe u

/-- A background write: under way with its items, or finished with the number of items that
were taken. -/
inductive Background (Item : Type u) where
  | running (items : List Item)
  | finished (sent : Nat)

/-- The items that the channel has taken for good, and the background write. -/
structure Ledger (Item : Type u) where
  taken : List Item
  background : Option (Background Item)

namespace Ledger

variable {Item : Type u}

/-- All items that the channel has been given. -/
def handed (ledger : Ledger Item) : List Item :=
  match ledger.background with
  | some (.running items) => ledger.taken ++ items
  | _ => ledger.taken

/-- One call with `rest` to write, and the number of items that it acknowledges. A
background write has at most `limit` items, the next ones. -/
inductive Step (limit : Nat) (rest : List Item) :
    Ledger Item → Option Nat → Ledger Item → Prop where
  | accept {taken : List Item} (sent : Nat) (within : sent ≤ rest.length) :
      Step limit rest ⟨taken, none⟩ (some sent) ⟨taken ++ rest.take sent, none⟩
  | refuse {taken : List Item} : Step limit rest ⟨taken, none⟩ none ⟨taken, none⟩
  | start {taken : List Item} :
      Step limit rest ⟨taken, none⟩ none ⟨taken, some (.running (rest.take limit))⟩
  | startFinished {taken : List Item} (sent : Nat) (within : sent ≤ (rest.take limit).length) :
      Step limit rest ⟨taken, none⟩ none
        ⟨taken ++ (rest.take limit).take sent, some (.finished sent)⟩
  | wait (ledger : Ledger Item) : Step limit rest ledger none ledger
  | finish {taken items : List Item} (sent : Nat) (within : sent ≤ items.length) :
      Step limit rest ⟨taken, some (.running items)⟩ (some sent) ⟨taken ++ items.take sent, none⟩
  | collect {taken : List Item} (sent : Nat) :
      Step limit rest ⟨taken, some (.finished sent)⟩ (some sent) ⟨taken, none⟩
  | lose {taken items : List Item} :
      Step limit rest ⟨taken, some (.running items)⟩ none ⟨taken, none⟩

/-- What was taken is what was acknowledged, but for a background write that has finished;
a background write under way has the next items. -/
def Balanced (limit : Nat) (data : List Item) (acked : Nat) (ledger : Ledger Item) : Prop :=
  match ledger.background with
  | none => acked ≤ data.length ∧ ledger.taken = data.take acked
  | some (.running items) =>
      acked ≤ data.length ∧ ledger.taken = data.take acked ∧ items.length ≤ limit ∧
        items <+: data.drop acked
  | some (.finished sent) =>
      sent ≤ limit ∧ acked + sent ≤ data.length ∧ ledger.taken = data.take (acked + sent)

/-- Writing on from what was acknowledged keeps the ledger balanced. -/
theorem Step.balanced {limit : Nat} {data : List Item} {acked : Nat} {before after : Ledger Item}
    {acknowledged : Option Nat} (balanced : before.Balanced limit data acked)
    (step : Step limit (data.drop acked) before acknowledged after) :
    after.Balanced limit data (acked + acknowledged.getD 0) := by
  cases step with
  | accept sent within =>
      obtain ⟨bound, taken⟩ := balanced
      rw [List.length_drop] at within
      refine ⟨by simp only [Option.getD_some]; omega, ?_⟩
      simp only at taken ⊢
      rw [taken, Option.getD_some, List.take_add]
  | refuse => exact balanced
  | start =>
      obtain ⟨bound, taken⟩ := balanced
      exact ⟨bound, taken, List.length_take_le _ _, List.take_prefix _ _⟩
  | startFinished sent within =>
      obtain ⟨bound, taken⟩ := balanced
      rw [List.length_take, List.length_drop] at within
      refine ⟨by omega, by simp only [Option.getD_none]; omega, ?_⟩
      simp only at taken ⊢
      rw [taken, Option.getD_none, List.take_take, Nat.min_eq_left (by omega), List.take_add]
      rfl
  | wait => exact balanced
  | finish sent within =>
      obtain ⟨bound, taken, _, next⟩ := balanced
      have fits := next.length_le
      rw [List.length_drop] at fits
      refine ⟨by simp only [Option.getD_some]; omega, ?_⟩
      obtain ⟨more, split⟩ := next
      simp only at taken ⊢
      rw [taken, Option.getD_some, List.take_add, ← split, List.take_append_of_le_length within]
  | collect sent =>
      obtain ⟨_, bound, taken⟩ := balanced
      exact ⟨bound, taken⟩
  | lose =>
      obtain ⟨bound, taken, _, _⟩ := balanced
      exact ⟨bound, taken⟩

/-- What was handed over is the acknowledged part of the data and, only with a background
write, at most `limit` of the next items. -/
theorem Balanced.handed_eq {limit : Nat} {data : List Item} {acked : Nat} {ledger : Ledger Item}
    (balanced : ledger.Balanced limit data acked) :
    ∃ ahead, ahead ≤ limit ∧ acked + ahead ≤ data.length ∧
      ledger.handed = data.take (acked + ahead) ∧ (ledger.background = none → ahead = 0) := by
  rcases ledger with ⟨taken, _ | ⟨items⟩ | ⟨sent⟩⟩
  · obtain ⟨bound, same⟩ := balanced
    exact ⟨0, Nat.zero_le _, bound, same, fun _ => rfl⟩
  · obtain ⟨bound, same, few, next⟩ := balanced
    have fits := next.length_le
    rw [List.length_drop] at fits
    refine ⟨items.length, few, by omega, ?_, fun none => by cases none⟩
    simp only [handed] at same ⊢
    rw [same, List.take_add, ← List.prefix_iff_eq_take.mp next]
  · obtain ⟨few, bound, same⟩ := balanced
    exact ⟨sent, few, bound, same, fun none => by cases none⟩

end Ledger

end Ffos.Lib
