/-
Module: Ffos.Kcall.Execution
Purpose: The step relation of the kernel-call queue as a function, so that a trace
  can be run.
Trusted boundary: none
Main exports: Sys.fire, Sys.fireAll, run_of_fireAll
-/
import Ffos.Kcall.Model

namespace Ffos.Kcall

open Ffos.Lib

variable {Obj Worker : Type} [DecidableEq Obj] [DecidableEq Worker]

instance (op : KcallOp) (value : Value) : Decidable (op.Returns value) :=
  match op, value with
  | .fileOpen, .int _ | .fileInfo, .int _ | .fileRead, .word _ | .fileWrite, .word _
  | .netResolve, .word _ => isTrue trivial
  | .fileOpen, .word _ | .fileInfo, .word _ | .fileRead, .int _ | .fileWrite, .int _
  | .netResolve, .int _ => isFalse id

/-- The state after an event, if the event can happen. -/
def Sys.fire (sys : Sys Obj Worker) : Event Obj Worker → Option (Sys Obj Worker)
  | .call obj request reply =>
      if (request.async reply sys obj).1 = reply then some (request.async reply sys obj).2
      else none
  | .cancel obj => some (ffkcallCancel sys obj)
  | .fetch worker obj =>
      match sys.sq.pop with
      | some (head, sq) =>
          if sys.workers worker = .idle ∧ head = obj then
            some { sys.move worker (.fetched obj) with sq := sq }
          else none
      | none => none
  | .exec worker obj request outcome =>
      match (sys.objs obj).op with
      | some op =>
          if sys.workers worker = .fetched obj ∧ op.load (sys.objs obj).words = request ∧
              op.Returns outcome.value then
            some ((sys.write obj fun kc => { ffkcallExec outcome kc with state := 2 }).move worker
              (.executed obj))
          else none
      | none => none
  | .skip worker obj =>
      if sys.workers worker = .fetched obj ∧ (sys.objs obj).op = none then
        some ((sys.write obj fun kc => { kc with state := 0 }).move worker .idle)
      else none
  | .complete worker obj used =>
      match sys.cq.push obj with
      | some cq =>
          if sys.workers worker = .executed obj ∧ sys.cq.items.length = used then
            some { sys.move worker
              (if sys.cq.items.length = 0 ∧ sys.kqpost = true then .added else .idle) with cq := cq }
          else none
      | none => none
  | .overflow worker obj =>
      if sys.workers worker = .executed obj ∧ (sys.cq.push obj).isNone then
        some (sys.move worker .idle)
      else none
  | .post worker =>
      if sys.workers worker = .added then some { sys.move worker .idle with pending := true }
      else none
  | .poll => if sys.reader = .waiting then some { sys with reader := .draining } else none
  | .receive =>
      if sys.reader = .waiting ∧ sys.pending = true then some { sys with reader := .received }
      else none
  | .consume =>
      if sys.reader = .received then some { sys with reader := .draining, pending := false }
      else none
  | .fetchCompletion obj =>
      match sys.cq.pop with
      | some (head, cq) =>
          if sys.reader = .draining ∧ head = obj then
            some { sys.write obj fun kc => { kc with state := 0 } with
              cq := cq
              reader := .handling obj }
          else none
      | none => none
  | .noCompletion =>
      if sys.reader = .draining ∧ sys.cq.pop.isNone then some { sys with reader := .waiting }
      else none
  | .handler obj =>
      if sys.reader = .handling obj ∧ (sys.objs obj).op ≠ none then
        some { sys with reader := .draining }
      else none
  | .discard obj =>
      if sys.reader = .handling obj ∧ (sys.objs obj).op = none then
        some { sys with reader := .draining }
      else none

/-- The function makes only steps of the relation. -/
theorem step_of_fire {sys after : Sys Obj Worker} {event : Event Obj Worker}
    (fired : sys.fire event = some after) : Step sys event after := by
  cases event with
  | call obj request reply =>
      simp only [Sys.fire, Option.ite_none_right_eq_some, Option.some.injEq] at fired
      obtain ⟨returned, rfl⟩ := fired
      have step : Step sys _ _ := Step.call obj request reply
      rwa [returned] at step
  | cancel obj =>
      obtain rfl := Option.some.inj fired
      exact .cancel obj
  | fetch worker obj =>
      simp only [Sys.fire] at fired
      split at fired
      · simp only [Option.ite_none_right_eq_some, Option.some.injEq] at fired
        obtain ⟨⟨idle, rfl⟩, rfl⟩ := fired
        exact .fetch idle ‹_›
      · cases fired
  | exec worker obj request outcome =>
      simp only [Sys.fire] at fired
      split at fired
      · simp only [Option.ite_none_right_eq_some, Option.some.injEq] at fired
        obtain ⟨⟨fetched, rfl, typed⟩, rfl⟩ := fired
        exact .exec fetched ‹_› typed
      · cases fired
  | skip worker obj =>
      simp only [Sys.fire, Option.ite_none_right_eq_some, Option.some.injEq] at fired
      obtain ⟨⟨fetched, cancelled⟩, rfl⟩ := fired
      exact .skip fetched cancelled
  | complete worker obj used =>
      simp only [Sys.fire] at fired
      split at fired
      · simp only [Option.ite_none_right_eq_some, Option.some.injEq] at fired
        obtain ⟨⟨executed, rfl⟩, rfl⟩ := fired
        exact .complete executed ‹_›
      · cases fired
  | overflow worker obj =>
      simp only [Sys.fire, Option.ite_none_right_eq_some, Option.some.injEq] at fired
      obtain ⟨⟨executed, full⟩, rfl⟩ := fired
      exact .overflow executed (Option.isNone_iff_eq_none.mp full)
  | post worker =>
      simp only [Sys.fire, Option.ite_none_right_eq_some, Option.some.injEq] at fired
      obtain ⟨added, rfl⟩ := fired
      exact .post added
  | poll =>
      simp only [Sys.fire, Option.ite_none_right_eq_some, Option.some.injEq] at fired
      obtain ⟨waiting, rfl⟩ := fired
      exact .poll waiting
  | receive =>
      simp only [Sys.fire, Option.ite_none_right_eq_some, Option.some.injEq] at fired
      obtain ⟨⟨waiting, posted⟩, rfl⟩ := fired
      exact .receive waiting posted
  | consume =>
      simp only [Sys.fire, Option.ite_none_right_eq_some, Option.some.injEq] at fired
      obtain ⟨received, rfl⟩ := fired
      exact .consume received
  | fetchCompletion obj =>
      simp only [Sys.fire] at fired
      split at fired
      · simp only [Option.ite_none_right_eq_some, Option.some.injEq] at fired
        obtain ⟨⟨draining, rfl⟩, rfl⟩ := fired
        exact .fetchCompletion draining ‹_›
      · cases fired
  | noCompletion =>
      simp only [Sys.fire, Option.ite_none_right_eq_some, Option.some.injEq] at fired
      obtain ⟨⟨draining, empty⟩, rfl⟩ := fired
      exact .noCompletion draining (Option.isNone_iff_eq_none.mp empty)
  | handler obj =>
      simp only [Sys.fire, Option.ite_none_right_eq_some, Option.some.injEq] at fired
      obtain ⟨⟨handling, active⟩, rfl⟩ := fired
      exact .handler handling active
  | discard obj =>
      simp only [Sys.fire, Option.ite_none_right_eq_some, Option.some.injEq] at fired
      obtain ⟨⟨handling, cancelled⟩, rfl⟩ := fired
      exact .discard handling cancelled

/-- The state after a trace, if its events can happen in this order. -/
def Sys.fireAll (sys : Sys Obj Worker) (trace : List (Event Obj Worker)) :
    Option (Sys Obj Worker) :=
  Lib.fireAll Sys.fire sys trace

theorem run_of_fireAll {sys after : Sys Obj Worker} {trace : List (Event Obj Worker)}
    (fired : sys.fireAll trace = some after) : Run Step sys trace after :=
  Run.of_fireAll (fun _ _ _ => step_of_fire) fired

end Ffos.Kcall
