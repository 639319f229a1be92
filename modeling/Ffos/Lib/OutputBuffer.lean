/-
Module: Ffos.Lib.OutputBuffer
Purpose: A buffer of fixed size that a program fills from the front, with stores that
  fail outside of it.
Trusted boundary: none
Main exports: store, storeAll, slice, length_of_storeAll, storeAll_middle, store_middle, Filled, Filled.store,
  Filled.storeAll, Filled.truncate
-/
import Mathlib.Data.List.Basic

namespace Ffos.Lib

universe u

variable {α : Type u}

/-- `buffer[k] = value`, which fails outside of the buffer. -/
def store (buffer : List α) (k : Nat) (value : α) : Option (List α) :=
  if k < buffer.length then some (buffer.set k value) else none

/-- Consecutive values from `buffer[k]` on. -/
def storeAll (buffer : List α) (k : Nat) (values : List α) : Option (List α) :=
  if k + values.length ≤ buffer.length then
    some (buffer.take k ++ values ++ buffer.drop (k + values.length))
  else none

/-- The elements from `buffer[start]` up to `buffer[upto]`, which must be in the buffer. -/
def slice (buffer : List α) (start upto : Nat) : Option (List α) :=
  if start ≤ upto ∧ upto ≤ buffer.length then some ((buffer.take upto).drop start) else none

/-- A store does not change the size of the buffer. -/
theorem length_of_storeAll {buffer values after : List α} {k : Nat}
    (stored : storeAll buffer k values = some after) : after.length = buffer.length := by
  unfold storeAll at stored
  split at stored
  · obtain rfl := Option.some.inj stored
    simp only [List.length_append, List.length_take, List.length_drop]
    omega
  · cases stored

/-- Values stored in the place of as many others. -/
theorem storeAll_middle (before old after values : List α) (same : old.length = values.length) :
    storeAll (before ++ old ++ after) before.length values = some (before ++ values ++ after) := by
  have inside : before.length + values.length ≤ (before ++ old ++ after).length := by
    simp only [List.length_append]
    omega
  rw [storeAll, if_pos inside, ← same, ← List.length_append, List.drop_left,
    List.append_assoc before old, List.take_left]

theorem store_middle (before after : List α) (old value : α) :
    store (before ++ old :: after) before.length value = some (before ++ value :: after) := by
  have inside : before.length < (before ++ old :: after).length := by simp
  rw [store, if_pos inside, List.set_append_right _ _ (Nat.le_refl _), Nat.sub_self, List.set_cons_zero]

/-- The first `k` elements of the buffer are the content written so far. -/
structure Filled (buffer : List α) (k : Nat) (content : List α) : Prop where
  length : content.length = k
  leads : content <+: buffer

namespace Filled

variable {buffer content before middle after : List α} {k : Nat}

theorem empty (buffer : List α) : Filled buffer 0 [] :=
  ⟨rfl, buffer, rfl⟩

theorem take (filled : Filled buffer k content) : buffer.take k = content := by
  obtain ⟨rest, rfl⟩ := filled.leads
  rw [← filled.length, List.take_left]

/-- Going back in the buffer drops the end of the content. -/
theorem truncate (filled : Filled buffer k content) {back : Nat} (le : back ≤ k) :
    Filled buffer back (content.take back) := by
  obtain ⟨rest, rfl⟩ := filled.leads
  refine ⟨?_, content.drop back ++ rest, ?_⟩
  · rw [List.length_take, filled.length]
    omega
  · rw [← List.append_assoc, List.take_append_drop]

theorem length_le (filled : Filled buffer k content) : k ≤ buffer.length := by
  rw [← filled.length]
  exact filled.leads.length_le

/-- What is read of the content. -/
theorem slice (filled : Filled buffer k (before ++ middle ++ after)) :
    Lib.slice buffer before.length (before ++ middle).length = some middle := by
  have inside := filled.length_le
  rw [← filled.length] at inside
  obtain ⟨rest, rfl⟩ := filled.leads
  rw [Lib.slice, if_pos, List.append_assoc, List.take_left, List.drop_left]
  simp only [List.length_append] at inside ⊢
  omega

/-- What is read of the content does not depend on the rest of the buffer. -/
theorem slice_eq (filled : Filled buffer k content) (start : Nat) {upto : Nat} (le : upto ≤ k) :
    Lib.slice buffer start upto = Lib.slice content start upto := by
  obtain ⟨rest, rfl⟩ := filled.leads
  have inside : upto ≤ content.length := filled.length ▸ le
  have insideAll : upto ≤ (content ++ rest).length := by
    rw [List.length_append]
    omega
  rw [Lib.slice, Lib.slice, List.take_append_of_le_length inside]
  simp only [inside, insideAll]

/-- Values stored behind the content are added to it, also if `k` is moved over only
some of them. -/
theorem storeAll (filled : Filled buffer k content) (values : List α) (more : List α)
    (fits : k + (values ++ more).length ≤ buffer.length) :
    ∃ after, Lib.storeAll buffer k (values ++ more) = some after ∧
      Filled after (k + values.length) (content ++ values) ∧ after.length = buffer.length := by
  refine ⟨_, if_pos fits, ⟨?_, ?_⟩, ?_⟩
  · rw [List.length_append, filled.length]
  · rw [filled.take]
    exact ⟨more ++ buffer.drop (k + (values ++ more).length), by simp only [List.append_assoc]⟩
  · simp only [List.length_append, List.length_take, List.length_drop] at fits ⊢
    omega

/-- One value stored behind the content. -/
theorem store (filled : Filled buffer k content) (value : α) (fits : k < buffer.length) :
    ∃ after, Lib.store buffer k value = some after ∧ Filled after (k + 1) (content ++ [value]) ∧
      after.length = buffer.length := by
  refine ⟨_, if_pos fits, ⟨?_, ?_⟩, List.length_set⟩
  · rw [List.length_append, filled.length, List.length_singleton]
  · rw [List.set_eq_take_append_cons_drop, if_pos fits, filled.take]
    exact ⟨buffer.drop (k + 1), by simp only [List.append_assoc, List.singleton_append]⟩

end Filled

end Ffos.Lib
