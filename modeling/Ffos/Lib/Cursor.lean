/-
Module: Ffos.Lib.Cursor
Purpose: A function that gives one item a call, and the loop that calls it until its result is
  not 0.
Trusted boundary: none
Main exports: Cursor, drain, Walks, drain_walks, drain_maps
-/
import Mathlib.Data.List.Forall2

namespace Ffos.Lib

variable {State Entry Item : Type}

/-- The result of a call, the item that it gives, and the state after it. None is a call that
does not return. -/
abbrev Cursor (State Item : Type) := State → Option (Int × Option Item × State)

/-- The calls until one does not return 0, if there are few enough of them: the items, the last
result and the last state. -/
def drain (next : Cursor State Item) : Nat → State → Option (List Item × Int × State)
  | 0, _ => none
  | calls + 1, state =>
      match next state with
      | some (0, some item, after) =>
          (drain next calls after).map fun (items, r, last) => (item :: items, r, last)
      | some (r, _, after) => some ([], r, after)
      | none => none

/-- The cursor shows these entries one after the other, and returns `code` behind the last one.
`At i` are the states where `i` entries have been shown, and `Ended` those behind the end. -/
structure Walks (next : Cursor State Item) (entries : List Entry) (Shows : Entry → Item → Prop)
    (At : Nat → State → Prop) (code : Int) (Ended : State → Prop) : Prop where
  shows : ∀ i state entry, At i state → entries[i]? = some entry →
    ∃ item after, next state = some (0, some item, after) ∧ Shows entry item ∧ At (i + 1) after
  ends : ∀ state, At entries.length state →
    ∃ after, next state = some (code, none, after) ∧ Ended after

section Drain

variable {next : Cursor State Item} {entries : List Entry} {Shows : Entry → Item → Prop}
  {At : Nat → State → Prop} {code : Int} {Ended : State → Prop}

theorem drain_from (walks : Walks next entries Shows At code Ended) {rest : List Entry} {i : Nat}
    (here : entries.drop i = rest) {state : State} (position : At i state)
    (inside : i ≤ entries.length) :
    ∃ items after, drain next (rest.length + 1) state = some (items, code, after) ∧
      List.Forall₂ Shows rest items ∧ Ended after := by
  induction rest generalizing i state with
  | nil =>
      have whole : i = entries.length :=
        Nat.le_antisymm inside (List.drop_eq_nil_iff.mp here)
      rw [whole] at position
      obtain ⟨after, ended, stays⟩ := walks.ends state position
      refine ⟨[], after, ?_, List.Forall₂.nil, stays⟩
      simp only [drain, ended]
  | cons entry rest inductionHypothesis =>
      have isEntry : entries[i]? = some entry := by
        rw [← List.head?_drop, here]
        rfl
      obtain ⟨item, after, shown, shows, further⟩ := walks.shows i state entry position isEntry
      have later : entries.drop (i + 1) = rest := by
        rw [← List.tail_drop, here]
        rfl
      have more : i + 1 ≤ entries.length := (List.getElem?_eq_some_iff.mp isEntry).1
      obtain ⟨items, last, drained, all, stays⟩ := inductionHypothesis later further more
      refine ⟨item :: items, last, ?_, List.Forall₂.cons shows all, stays⟩
      rw [List.length_cons, drain, shown]
      simp only [drained, Option.map_some]

/-- All entries are shown, each of them once and in their order, and then the end. -/
theorem drain_walks (walks : Walks next entries Shows At code Ended) {state : State}
    (position : At 0 state) :
    ∃ items after, drain next (entries.length + 1) state = some (items, code, after) ∧
      List.Forall₂ Shows entries items ∧ Ended after :=
  drain_from walks List.drop_zero position (Nat.zero_le _)

/-- The items that are shown are determined by the entries. -/
theorem drain_maps {show_ : Entry → Item}
    (walks : Walks next entries (fun entry item => show_ entry = item) At code Ended)
    {state : State} (position : At 0 state) :
    ∃ after, drain next (entries.length + 1) state = some (entries.map show_, code, after) ∧
      Ended after := by
  obtain ⟨items, after, drained, all, ended⟩ := drain_walks walks position
  have same : entries.map show_ = items := by
    rw [← List.forall₂_eq_eq_eq]
    exact List.forall₂_map_left_iff.mpr all
  rw [same]
  exact ⟨after, drained, ended⟩

end Drain

end Ffos.Lib
