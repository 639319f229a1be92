/-
Module: Ffos.Lib.Transition
Purpose: Labelled runs of a step relation, with the invariant rule, the history
  rule and the forward-simulation rule that the machine models use.
Trusted boundary: none
Main exports: Run, Run.invariant, Run.history, Run.split, Run.unique, Run.simulation,
  fireAll, Run.of_fireAll
-/
import Mathlib.Logic.Basic

namespace Ffos.Lib

universe u v w x

/-- A finite run: the list of events, in the order they happened, that leads
from `start` to the final state. Runs grow at the end, so an invariant is
carried from `start` to the last state by induction. -/
inductive Run {State : Type u} {Event : Type v}
    (step : State → Event → State → Prop) (start : State) :
    List Event → State → Prop where
  | refl : Run step start [] start
  | snoc {trace : List Event} {before : State} {event : Event} {after : State}
      (run : Run step start trace before) (next : step before event after) :
      Run step start (trace ++ [event]) after

namespace Run

variable {State : Type u} {Event : Type v}
  {step : State → Event → State → Prop} {start final : State} {trace : List Event}

/-- One step is a run. -/
theorem single {event : Event} (next : step start event final) :
    Run step start [event] final :=
  snoc refl next

/-- What holds at the start and is kept by every step holds at the end. -/
theorem invariant (Inv : State → Prop) (initial : Inv start)
    (preserved : ∀ before event after, Inv before → step before event after → Inv after)
    (run : Run step start trace final) : Inv final := by
  induction run with
  | refl => exact initial
  | snoc _ next inductionHypothesis => exact preserved _ _ _ inductionHypothesis next

/-- The invariant rule with the events seen so far as part of the invariant. -/
theorem history (Inv : List Event → State → Prop) (initial : Inv [] start)
    (preserved : ∀ past before event after, Inv past before →
      step before event after → Inv (past ++ [event]) after)
    (run : Run step start trace final) : Inv trace final := by
  induction run with
  | refl => exact initial
  | snoc _ next inductionHypothesis => exact preserved _ _ _ _ inductionHypothesis next

/-- Runs compose. -/
theorem append {middle : State} {past future : List Event}
    (first : Run step start past middle) (second : Run step middle future final) :
    Run step start (past ++ future) final := by
  induction second with
  | refl => simpa using first
  | snoc _ next inductionHypothesis =>
      rw [← List.append_assoc]
      exact snoc inductionHypothesis next

/-- A run over a concatenation passes through a state between the two parts. -/
theorem split {past future : List Event}
    (run : Run step start (past ++ future) final) :
    ∃ middle, Run step start past middle ∧ Run step middle future final := by
  generalize whole : past ++ future = events at run
  induction run generalizing future with
  | refl =>
      obtain ⟨rfl, rfl⟩ := List.append_eq_nil_iff.mp whole
      exact ⟨start, refl, refl⟩
  | snoc run next inductionHypothesis =>
      rcases List.eq_nil_or_concat future with rfl | ⟨init, last, rfl⟩
      · rw [List.append_nil] at whole
        subst whole
        exact ⟨_, snoc run next, refl⟩
      · rw [List.concat_eq_append, ← List.append_assoc] at whole
        obtain ⟨initEq, lastEq⟩ := List.append_inj' whole rfl
        obtain ⟨middle, first, second⟩ := inductionHypothesis initEq
        cases lastEq
        exact ⟨middle, first, by rw [List.concat_eq_append]; exact snoc second next⟩

/-- The last event of a run is a step from the state the others lead to. -/
theorem snoc_inv {event : Event} (run : Run step start (trace ++ [event]) final) :
    ∃ before, Run step start trace before ∧ step before event final := by
  generalize whole : trace ++ [event] = events at run
  cases run with
  | refl => simp at whole
  | snoc run next =>
      obtain ⟨rfl, lastEq⟩ := List.append_inj' whole rfl
      cases lastEq
      exact ⟨_, run, next⟩

/-- Where a step leads to one state only, so does a trace. -/
theorem unique {other : State}
    (deterministic : ∀ before event after after', step before event after →
      step before event after' → after = after')
    (run : Run step start trace final) (again : Run step start trace other) : final = other := by
  induction run generalizing other with
  | refl =>
      generalize whole : ([] : List Event) = events at again
      cases again with
      | refl => rfl
      | snoc _ _ => simp at whole
  | snoc _ next inductionHypothesis =>
      obtain ⟨before, earlier, nextAgain⟩ := again.snoc_inv
      rw [← inductionHypothesis earlier] at nextAgain
      exact deterministic _ _ _ _ next nextAgain

/-- The step taken at a given event of the trace. -/
theorem step_at {past future : List Event} {event : Event}
    (run : Run step start (past ++ event :: future) final) :
    ∃ before after, Run step start past before ∧ step before event after ∧
      Run step after future final := by
  have regrouped : Run step start ((past ++ [event]) ++ future) final := by
    simpa using run
  obtain ⟨after, first, rest⟩ := regrouped.split
  obtain ⟨before, earlier, next⟩ := first.snoc_inv
  exact ⟨before, after, earlier, next, rest⟩

/-- Steps that another relation also allows make a run of that relation. -/
theorem mono {other : State → Event → State → Prop}
    (weaker : ∀ before event after, step before event after → other before event after)
    (run : Run step start trace final) : Run other start trace final := by
  induction run with
  | refl => exact refl
  | snoc _ next inductionHypothesis => exact snoc inductionHypothesis (weaker _ _ _ next)

/-- Forward simulation: if related states take related steps under the same
event, the abstract system has a run with the same trace that ends in a state
related to the concrete one. -/
theorem simulation {Abstract : Type w} {spec : Abstract → Event → Abstract → Prop}
    (Related : State → Abstract → Prop) {origin : Abstract}
    (initial : Related start origin)
    (matched : ∀ before event after abstractBefore, Related before abstractBefore →
      step before event after →
        ∃ abstractAfter, spec abstractBefore event abstractAfter ∧ Related after abstractAfter)
    (run : Run step start trace final) :
    ∃ abstractFinal, Run spec origin trace abstractFinal ∧ Related final abstractFinal := by
  induction run with
  | refl => exact ⟨origin, refl, initial⟩
  | snoc _ next inductionHypothesis =>
      obtain ⟨abstractBefore, abstractRun, related⟩ := inductionHypothesis
      obtain ⟨abstractAfter, abstractNext, relatedAfter⟩ := matched _ _ _ _ related next
      exact ⟨abstractAfter, snoc abstractRun abstractNext, relatedAfter⟩

end Run

section Execution

variable {State : Type u} {Event : Type v}

/-- The state after a list of events, if they can happen in this order. -/
def fireAll (fire : State → Event → Option State) : State → List Event → Option State
  | state, [] => some state
  | state, event :: rest =>
      match fire state event with
      | some next => fireAll fire next rest
      | none => none

/-- A function that makes only steps of a relation makes runs of it. -/
theorem Run.of_fireAll {fire : State → Event → Option State}
    {step : State → Event → State → Prop}
    (sound : ∀ before event after, fire before event = some after → step before event after)
    {start final : State} {trace : List Event} (fired : fireAll fire start trace = some final) :
    Run step start trace final := by
  induction trace generalizing start with
  | nil =>
      obtain rfl := Option.some.inj fired
      exact .refl
  | cons event rest inductionHypothesis =>
      simp only [fireAll] at fired
      split at fired
      · exact (Run.single (sound _ _ _ ‹_›)).append (inductionHypothesis fired)
      · cases fired

end Execution

end Ffos.Lib
