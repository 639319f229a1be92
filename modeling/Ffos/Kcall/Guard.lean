/-
Module: Ffos.Kcall.Guard
Purpose: `kc->state` as the guard of an object in flight. `_ffkcall_add` does not
  set it, so the guard is kept exactly by the runs that never queue a request.
Trusted boundary: none
Main exports: InFlight, Guarded, Accepts, guarded_iff_nothing_queued
-/
import Ffos.Kcall.Execution

namespace Ffos.Kcall

open Ffos.Lib

variable {Obj Worker : Type} [DecidableEq Obj] [DecidableEq Worker]

/-- The object is in the submission queue, being executed, or in the completion
queue. -/
def InFlight (sys : Sys Obj Worker) (obj : Obj) : Prop :=
  obj ∈ sys.sq.items ∨
    (∃ worker, sys.workers worker = .fetched obj ∨ sys.workers worker = .executed obj) ∨
    obj ∈ sys.cq.items

/-- What the comment on `state` promises: `0, 1: in SQ, 2: in CQ`. -/
structure Guarded (sys : Sys Obj Worker) : Prop where
  once : ∀ obj, (sys.sq.items ++ sys.cq.items).count obj ≤ 1
  state_iff : ∀ obj, (sys.objs obj).state ≠ 0 ↔ InFlight sys obj

/-- A call on an object in flight fails with `FFKCALL_EBUSY` and leaves the object
as it was. -/
def BusyRefused (before : Sys Obj Worker) (event : Event Obj Worker)
    (after : Sys Obj Worker) : Prop :=
  ∀ obj request reply, event = .call obj request reply → InFlight before obj →
    reply = ⟨request.op.failure, ebusy⟩ ∧ after.objs obj = before.objs obj

/-- A step into a guarded state that refuses calls on objects in flight. -/
def GuardedStep (before : Sys Obj Worker) (event : Event Obj Worker)
    (after : Sys Obj Worker) : Prop :=
  Step before event after ∧ Guarded after ∧ BusyRefused before event after

/-- The event is a call that is about to put its object in the submission queue. -/
def Accepts (before : Sys Obj Worker) (event : Event Obj Worker) : Prop :=
  ∃ obj request reply, event = .call obj request reply ∧
    (before.objs obj).attached = true ∧ (before.objs obj).state = 0 ∧
    (before.objs obj).op = none ∧ before.sq.items.length < before.sq.cap

/-- A step that queues nothing. -/
def QuietStep (before : Sys Obj Worker) (event : Event Obj Worker)
    (after : Sys Obj Worker) : Prop :=
  Step before event after ∧ ¬ Accepts before event

/-- Nothing was ever queued. -/
structure Unused (sys : Sys Obj Worker) : Prop where
  op : ∀ obj, (sys.objs obj).op = none
  state : ∀ obj, (sys.objs obj).state = 0
  sq : sys.sq.items = []
  cq : sys.cq.items = []
  workers : ∀ worker, sys.workers worker = .idle

omit [DecidableEq Obj] [DecidableEq Worker] in
theorem Unused.not_inFlight {sys : Sys Obj Worker} (unused : Unused sys) (obj : Obj) :
    ¬ InFlight sys obj := by
  rintro (inSq | ⟨worker, fetched | executed⟩ | inCq)
  · simp [unused.sq] at inSq
  · simp [unused.workers] at fetched
  · simp [unused.workers] at executed
  · simp [unused.cq] at inCq

omit [DecidableEq Worker] in
theorem Unused.guarded {sys : Sys Obj Worker} (unused : Unused sys) : Guarded sys := by
  constructor
  · intro obj
    simp [unused.sq, unused.cq]
  · intro obj
    simp [unused.state, unused.not_inFlight]

omit [DecidableEq Worker] in
/-- A write that leaves `op` and `state` at zero leaves everything unused. -/
theorem Unused.write {sys : Sys Obj Worker} (unused : Unused sys) (obj : Obj)
    {change : Ffkcall → Ffkcall} (op : (change (sys.objs obj)).op = none)
    (state : (change (sys.objs obj)).state = 0) : Unused (sys.write obj change) := by
  refine ⟨fun other => ?_, fun other => ?_, unused.sq, unused.cq, unused.workers⟩
  all_goals
    by_cases same : other = obj
    · subst same
      simpa
    · rw [Sys.write_objs_of_ne _ _ _ same]
      first | exact unused.op other | exact unused.state other

/-- Without a queued request no worker and no reader ever gets an object. -/
theorem Unused.step {before after : Sys Obj Worker} {event : Event Obj Worker}
    (unused : Unused before) (next : QuietStep before event after) : Unused after := by
  obtain ⟨step, quiet⟩ := next
  cases step with
  | call obj request direct =>
      have called := request.async_called direct before obj
      generalize request.async direct before obj = outcome at called quiet ⊢
      obtain ⟨reply, after⟩ := outcome
      dsimp only at called quiet ⊢
      cases called with
      | direct => exact unused
      | busy => exact unused
      | result => exact unused.write obj rfl (unused.state obj)
      | again => exact unused.write obj rfl (unused.state obj)
      | queued attached inactive free pushed =>
          have room := (BoundedQueue.push_some pushed).1
          exact absurd ⟨obj, request, _, rfl, attached, inactive, free, room⟩ quiet
  | cancel obj => exact unused.write obj rfl (unused.state obj)
  | fetch idle popped =>
      have shape := (BoundedQueue.pop_some popped).1
      simp [unused.sq] at shape
  | exec fetched => simp [unused.workers] at fetched
  | skip fetched => simp [unused.workers] at fetched
  | complete executed => simp [unused.workers] at executed
  | overflow executed => simp [unused.workers] at executed
  | post added => simp [unused.workers] at added
  | fetchCompletion draining popped =>
      have shape := (BoundedQueue.pop_some popped).1
      simp [unused.cq] at shape
  | poll | receive | consume | noCompletion | handler | discard =>
      exact ⟨unused.op, unused.state, unused.sq, unused.cq, unused.workers⟩

/-- A request that is queued leaves `state` at 0 with the object in the queue. -/
theorem Accepts.not_guarded {before after : Sys Obj Worker} {event : Event Obj Worker}
    (accepts : Accepts before event) (next : Step before event after) : ¬ Guarded after := by
  obtain ⟨obj, request, reply, isCall, attached, inactive, free, room⟩ := accepts
  intro guarded
  cases next with
  | call callee request direct =>
      obtain ⟨rfl, rfl, -⟩ := Event.call.inj isCall
      have called := request.async_called direct before callee
      generalize request.async direct before callee = outcome at called guarded
      obtain ⟨reply, after⟩ := outcome
      dsimp only at called guarded
      cases called with
      | direct detached => simp [attached] at detached
      | busy _ active => exact active inactive
      | result _ _ done => exact done free
      | again _ _ _ full =>
          have full := BoundedQueue.push_none_iff.mp full
          omega
      | @queued _ _ _ sq pushed =>
          have queued : callee ∈ sq.items := by simp [(BoundedQueue.push_some pushed).2.1]
          have active := (guarded.state_iff callee).mpr (Or.inl queued)
          exact active (by simpa using inactive)
  | _ => simp at isCall

/-- The guard is kept, from the first step to the last, exactly by the runs in
which no request is ever queued. -/
theorem guarded_iff_nothing_queued {start final : Sys Obj Worker} (initial : start.Initial)
    (trace : List (Event Obj Worker)) :
    Run GuardedStep start trace final ↔ Run QuietStep start trace final := by
  constructor
  · intro run
    apply run.mono
    intro before event after next
    exact ⟨next.1, fun accepts => accepts.not_guarded next.1 next.2.1⟩
  · intro run
    have tracked : Run GuardedStep start trace final ∧ Unused final := by
      induction run with
      | refl =>
          exact ⟨Run.refl, initial.op, initial.state, initial.sq, initial.cq, initial.workers⟩
      | snoc _ next inductionHypothesis =>
          obtain ⟨earlier, unused⟩ := inductionHypothesis
          have unusedAfter := unused.step next
          refine ⟨earlier.snoc ⟨next.1, unusedAfter.guarded, ?_⟩, unusedAfter⟩
          intro obj request reply _ inFlight
          exact absurd inFlight (unused.not_inFlight obj)
    exact tracked.1

/-- A call that the full submission queue refuses keeps the guard. -/
theorem guarded_when_queue_full :
    ∃ final : Sys Unit Unit, Run GuardedStep (Sys.fresh 0 1 true)
      [.call () (.fileInfo 3 0x1000) ⟨.int (-1), eagain⟩] final := by
  have start : (Sys.fresh 0 1 true : Sys Unit Unit).Initial := Sys.fresh_initial 0 1 true
  have step : Step (Sys.fresh 0 1 true : Sys Unit Unit) _ _ :=
    Step.call () (.fileInfo 3 0x1000) ⟨.int 0, 0⟩
  have quiet : QuietStep _ _ _ := ⟨step, by
    rintro ⟨_, _, _, _, _, _, _, room⟩
    simp [Sys.fresh] at room⟩
  have run : Run QuietStep _ _ _ := Run.single quiet
  exact ⟨_, (guarded_iff_nothing_queued start _).mpr run⟩

/-- One object, three calls of `fffile_open_async` with no other step between
them: the first is queued with `state` still 0, the second returns the name and
the flags of the first as its result, the third queues the object again. -/
theorem queued_object_unguarded :
    ∃ (trace : List (Event Unit Unit)) (final : Sys Unit Unit),
      trace =
        [.call () (.fileOpen 0x1000 0x42) ⟨.int (-1), einprogress⟩,
          .call () (.fileOpen 0x1000 0x42) ⟨.int 0x1000, 0x42⟩,
          .call () (.fileOpen 0x1000 0x42) ⟨.int (-1), einprogress⟩] ∧
      Run Step (Sys.fresh 2 2 true) trace final ∧
      final.sq.items = [(), ()] ∧ (final.objs ()).state = 0 ∧
      ¬ Run GuardedStep (Sys.fresh 2 2 true) trace final := by
  let trace : List (Event Unit Unit) :=
    [.call () (.fileOpen 0x1000 0x42) ⟨.int (-1), einprogress⟩,
      .call () (.fileOpen 0x1000 0x42) ⟨.int 0x1000, 0x42⟩,
      .call () (.fileOpen 0x1000 0x42) ⟨.int (-1), einprogress⟩]
  have possible : ((Sys.fresh 2 2 true).fireAll trace).map (fun final =>
      (final.sq.items, (final.objs ()).state)) = some ([(), ()], 0) := by decide
  obtain ⟨final, fired, shape⟩ := Option.map_eq_some_iff.mp possible
  simp only [Prod.mk.injEq] at shape
  refine ⟨trace, final, rfl, run_of_fireAll fired, shape.1, shape.2, ?_⟩
  intro run
  have initial : Guarded (Sys.fresh 2 2 true : Sys Unit Unit) :=
    ⟨fun _ => Nat.zero_le 1, fun _ => by simp [Sys.fresh, InFlight]⟩
  have guarded : Guarded final := run.invariant Guarded initial fun _ _ _ _ next => next.2.1
  have once := guarded.once ()
  simp [shape.1] at once

end Ffos.Kcall
