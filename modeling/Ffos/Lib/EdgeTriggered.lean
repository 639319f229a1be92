/-
Module: Ffos.Lib.EdgeTriggered
Purpose: A queue that reports a source once when something comes to it. A consumer that takes from
  a source until nothing is left never sleeps while something waits.
Trusted boundary: none
Main exports: EdgeQueue, EdgeQueue.Waits, EdgeQueue.Covered, Covered.arrive, Covered.finish,
  Covered.watch, Covered.report, Covered.take, Covered.empty, Covered.unwatch, Covered.quiet
-/
import Mathlib.Logic.Function.Basic

namespace Ffos.Lib

variable {Source Item : Type}

/-- What waits in each source and whether the source has ended, the sources that the queue
watches, and those that it has yet to report. -/
structure EdgeQueue (Source Item : Type) where
  waiting : Source → List Item
  ended : Source → Bool
  watched : Source → Bool
  edge : Source → Bool

namespace EdgeQueue

/-- There is something to be seen: items, or the end. -/
def Waits (q : EdgeQueue Source Item) (s : Source) : Prop :=
  q.waiting s ≠ [] ∨ q.ended s = true

instance (q : EdgeQueue Source Item) (s : Source) : Decidable (q.Waits s) :=
  inferInstanceAs (Decidable (q.waiting s ≠ [] ∨ q.ended s = true))

/-- Nothing has come yet. -/
def idle : EdgeQueue Source Item := ⟨fun _ => [], fun _ => false, fun _ => false, fun _ => false⟩

/-- A watched source with something to be seen is reported, or the consumer is at it. -/
def Covered (q : EdgeQueue Source Item) (busy : Option Source) : Prop :=
  ∀ s, q.watched s = true → q.Waits s → q.edge s = true ∨ busy = some s

theorem idle_covered (busy : Option Source) : (idle : EdgeQueue Source Item).Covered busy :=
  fun _ watched => absurd watched Bool.false_ne_true

/-- The consumer may leave a source where there is nothing to be seen. -/
theorem Covered.empty {q : EdgeQueue Source Item} {s : Source}
    (covered : q.Covered (some s)) (nothing : ¬ q.Waits s) : q.Covered none := by
  intro other watched waits
  rcases covered other watched waits with edge | same
  · exact Or.inl edge
  · obtain rfl := Option.some.inj same
    exact absurd waits nothing

/-- A consumer without a report has seen everything. -/
theorem Covered.quiet {q : EdgeQueue Source Item} {s : Source} (covered : q.Covered none)
    (watched : q.watched s = true) (silent : q.edge s = false) :
    q.waiting s = [] ∧ q.ended s = false := by
  have nothing : ¬ q.Waits s := by
    intro waits
    rcases covered s watched waits with edge | same
    · rw [silent] at edge
      cases edge
    · cases same
  rw [Waits, not_or, not_not] at nothing
  exact ⟨nothing.1, Bool.eq_false_iff.mpr nothing.2⟩

variable [DecidableEq Source]

/-- Items come to a source. -/
def arrive (q : EdgeQueue Source Item) (s : Source) (items : List Item) : EdgeQueue Source Item :=
  { q with
    waiting := Function.update q.waiting s (q.waiting s ++ items)
    edge := Function.update q.edge s (q.edge s || q.watched s) }

/-- The source ends. -/
def finish (q : EdgeQueue Source Item) (s : Source) : EdgeQueue Source Item :=
  { q with
    ended := Function.update q.ended s true
    edge := Function.update q.edge s (q.edge s || q.watched s) }

/-- The queue is told to watch a source. What waits there already is reported. -/
def watch (q : EdgeQueue Source Item) (s : Source) : EdgeQueue Source Item :=
  { q with
    watched := Function.update q.watched s true
    edge := Function.update q.edge s (q.edge s || decide (q.Waits s)) }

/-- A watched source is reported without a reason. -/
def signal (q : EdgeQueue Source Item) (s : Source) : EdgeQueue Source Item :=
  { q with edge := Function.update q.edge s true }

/-- The queue reports a source. -/
def report (q : EdgeQueue Source Item) (s : Source) : EdgeQueue Source Item :=
  { q with edge := Function.update q.edge s false }

/-- Items are taken from the front of a source. -/
def take (q : EdgeQueue Source Item) (s : Source) (count : Nat) : EdgeQueue Source Item :=
  { q with waiting := Function.update q.waiting s ((q.waiting s).drop count) }

/-- The source is closed. -/
def unwatch (q : EdgeQueue Source Item) (s : Source) : EdgeQueue Source Item :=
  { q with
    watched := Function.update q.watched s false
    edge := Function.update q.edge s false }

section Rules

variable {q : EdgeQueue Source Item} {busy : Option Source} {s : Source}

/-- After a change of one source that is reported by it, the others are as before. -/
theorem Covered.of_update {after : EdgeQueue Source Item} (covered : q.Covered busy)
    (others : ∀ other, other ≠ s → after.watched other = q.watched other ∧
      (after.Waits other → q.Waits other) ∧ after.edge other = q.edge other)
    (here : after.watched s = true → after.Waits s → after.edge s = true ∨ busy = some s) :
    after.Covered busy := by
  intro other watched waits
  by_cases same : other = s
  · rw [same] at watched waits ⊢
    exact here watched waits
  · obtain ⟨watchedSame, waitsBefore, edgeSame⟩ := others other same
    rw [edgeSame]
    exact covered other (watchedSame ▸ watched) (waitsBefore waits)

theorem Covered.arrive (covered : q.Covered busy) (items : List Item) :
    (q.arrive s items).Covered busy := by
  apply covered.of_update (s := s)
  · intro other different
    simp only [EdgeQueue.arrive, Waits, Function.update_of_ne different]
    exact ⟨trivial, id, trivial⟩
  · intro watched _
    have edge : (q.arrive s items).edge s = (q.edge s || q.watched s) := Function.update_self ..
    rw [edge, show q.watched s = true from watched, Bool.or_true]
    exact Or.inl rfl

theorem Covered.finish (covered : q.Covered busy) : (q.finish s).Covered busy := by
  apply covered.of_update (s := s)
  · intro other different
    simp only [EdgeQueue.finish, Waits, Function.update_of_ne different]
    exact ⟨trivial, id, trivial⟩
  · intro watched _
    have edge : (q.finish s).edge s = (q.edge s || q.watched s) := Function.update_self ..
    rw [edge, show q.watched s = true from watched, Bool.or_true]
    exact Or.inl rfl

theorem Covered.watch (covered : q.Covered busy) : (q.watch s).Covered busy := by
  apply covered.of_update (s := s)
  · intro other different
    simp only [EdgeQueue.watch, Waits, Function.update_of_ne different]
    exact ⟨trivial, id, trivial⟩
  · intro _ waits
    have edge : (q.watch s).edge s = (q.edge s || decide (q.Waits s)) := Function.update_self ..
    rw [edge, decide_eq_true (show q.Waits s from waits), Bool.or_true]
    exact Or.inl rfl

theorem Covered.signal (covered : q.Covered busy) : (q.signal s).Covered busy := by
  apply covered.of_update (s := s)
  · intro other different
    simp only [EdgeQueue.signal, Waits, Function.update_of_ne different]
    exact ⟨trivial, id, trivial⟩
  · intro _ _
    have edge : (q.signal s).edge s = true := Function.update_self ..
    exact Or.inl edge

/-- Where a source is reported the consumer goes to it. -/
theorem Covered.report (covered : q.Covered none) : (q.report s).Covered (some s) := by
  have weaker : q.Covered (some s) := by
    intro other watched waits
    exact Or.inl ((covered other watched waits).resolve_right nofun)
  apply weaker.of_update (s := s)
  · intro other different
    simp only [EdgeQueue.report, Waits, Function.update_of_ne different]
    exact ⟨trivial, id, trivial⟩
  · exact fun _ _ => Or.inr rfl

theorem Covered.take (covered : q.Covered (some s)) (count : Nat) :
    (q.take s count).Covered (some s) := by
  apply covered.of_update (s := s)
  · intro other different
    simp only [EdgeQueue.take, Waits, Function.update_of_ne different]
    exact ⟨trivial, id, trivial⟩
  · exact fun _ _ => Or.inr rfl

/-- The consumer may leave a source that it has closed. -/
theorem Covered.unwatch (covered : q.Covered (some s)) : (q.unwatch s).Covered none := by
  intro other watched waits
  by_cases same : other = s
  · have gone : (q.unwatch s).watched s = false := Function.update_self ..
    rw [same, gone] at watched
    cases watched
  · simp only [EdgeQueue.unwatch, Waits, Function.update_of_ne same] at watched waits ⊢
    rcases covered other watched waits with edge | here
    · exact Or.inl edge
    · exact absurd (Option.some.inj here).symm same

end Rules

end EdgeQueue

end Ffos.Lib
