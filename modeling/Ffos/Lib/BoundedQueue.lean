/-
Module: Ffos.Lib.BoundedQueue
Purpose: First-in first-out queues of bounded capacity; the bound is part of the
  value, so a queue that is over its capacity cannot be built.
Trusted boundary: none
Main exports: BoundedQueue, BoundedQueue.push, BoundedQueue.pop
-/
import Mathlib.Data.List.Basic

namespace Ffos.Lib

universe u

/-- A queue holds at most `cap` items, the oldest first. -/
structure BoundedQueue (α : Type u) where
  cap : Nat
  items : List α
  bounded : items.length ≤ cap

namespace BoundedQueue

variable {α : Type u}

/-- A queue without items. -/
def empty (cap : Nat) : BoundedQueue α :=
  { cap := cap, items := [], bounded := Nat.zero_le cap }

/-- Add an item at the end, unless the queue is full. -/
def push (queue : BoundedQueue α) (item : α) : Option (BoundedQueue α) :=
  if room : queue.items.length < queue.cap then
    some
      { queue with
        items := queue.items ++ [item]
        bounded := by
          rw [List.length_append]
          exact room }
  else none

/-- Take the oldest item, unless the queue is empty. -/
def pop (queue : BoundedQueue α) : Option (α × BoundedQueue α) :=
  match shape : queue.items with
  | [] => none
  | item :: rest =>
      some (item,
        { queue with
          items := rest
          bounded := by
            have bounded := queue.bounded
            rw [shape, List.length_cons] at bounded
            exact Nat.le_of_succ_le bounded })

@[simp] theorem empty_items (cap : Nat) : (empty cap : BoundedQueue α).items = [] := rfl

@[simp] theorem empty_cap (cap : Nat) : (empty cap : BoundedQueue α).cap = cap := rfl

/-- What a successful `push` does. -/
theorem push_some {queue after : BoundedQueue α} {item : α}
    (pushed : queue.push item = some after) :
    queue.items.length < queue.cap ∧ after.items = queue.items ++ [item] ∧
      after.cap = queue.cap := by
  unfold push at pushed
  split at pushed
  · rename_i room
    obtain rfl := Option.some.inj pushed
    exact ⟨room, rfl, rfl⟩
  · simp at pushed

/-- `push` fails exactly on a full queue. -/
theorem push_none_iff {queue : BoundedQueue α} {item : α} :
    queue.push item = none ↔ queue.items.length = queue.cap := by
  have bounded := queue.bounded
  unfold push
  split
  · rename_i room
    simp only [reduceCtorEq, false_iff]
    omega
  · rename_i full
    simp only [true_iff]
    omega

/-- What a successful `pop` does. -/
theorem pop_some {queue after : BoundedQueue α} {item : α}
    (popped : queue.pop = some (item, after)) :
    queue.items = item :: after.items ∧ after.cap = queue.cap := by
  unfold pop at popped
  split at popped
  · simp at popped
  · rename_i shape
    obtain ⟨rfl, rfl⟩ := Prod.mk.inj (Option.some.inj popped)
    exact ⟨shape, rfl⟩

/-- `pop` fails exactly on an empty queue. -/
theorem pop_none_iff {queue : BoundedQueue α} : queue.pop = none ↔ queue.items = [] := by
  unfold pop
  split
  · rename_i shape
    simp [shape]
  · rename_i shape
    simp [shape]

end BoundedQueue

end Ffos.Lib
