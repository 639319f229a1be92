/-
Module: Ffos.Kcall.Drain
Purpose: Workers and the reader can always finish what is in the queues: from any
  state they reach one in which nothing is left to do.
Trusted boundary: none
Main exports: Sys.Quiescent, ServiceStep, exists_drain
-/
import Ffos.Kcall.Model
import Mathlib.Algebra.BigOperators.Group.Finset.Basic

namespace Ffos.Kcall

open Ffos.Lib

variable {Obj Worker : Type} [DecidableEq Obj] [DecidableEq Worker]

/-- Both queues are empty and neither a worker nor the reader has an object. -/
structure Sys.Quiescent (sys : Sys Obj Worker) : Prop where
  sq : sys.sq.items = []
  cq : sys.cq.items = []
  workers : ∀ worker, sys.workers worker = .idle
  reader : sys.reader = .waiting

/-- The event is caused by a client. -/
def Event.ofClient : Event Obj Worker → Bool
  | .call .. => true
  | .cancel _ => true
  | _ => false

/-- A step of a worker or of the reader. -/
def ServiceStep (before : Sys Obj Worker) (event : Event Obj Worker)
    (after : Sys Obj Worker) : Prop :=
  Step before event after ∧ event.ofClient = false

/-! ### A measure of the work left -/

def WorkerPosition.work : WorkerPosition Obj → Nat
  | .idle => 0
  | .fetched _ => 6
  | .executed _ => 5
  | .added => 1

def ReaderPosition.work : ReaderPosition Obj → Nat
  | .waiting => 0
  | .received => 2
  | .draining => 1
  | .handling _ => 2

section Progress

variable [Fintype Worker]

def workersWork (workers : Worker → WorkerPosition Obj) : Nat :=
  ∑ worker, (workers worker).work

/-- An object in the submission queue is worth more than one with a worker, and
that one more than a completion. -/
def Sys.work (sys : Sys Obj Worker) : Nat :=
  7 * sys.sq.items.length + workersWork sys.workers + 3 * sys.cq.items.length +
    sys.reader.work

omit [DecidableEq Obj] in
/-- Moving one worker changes the sum by that worker's part. -/
theorem workersWork_update (workers : Worker → WorkerPosition Obj) (worker : Worker)
    (position : WorkerPosition Obj) :
    workersWork (Function.update workers worker position) + (workers worker).work =
      workersWork workers + position.work := by
  unfold workersWork
  have split := Finset.add_sum_erase Finset.univ (fun other => (workers other).work)
    (Finset.mem_univ worker)
  have splitMoved := Finset.add_sum_erase Finset.univ
    (fun other => (Function.update workers worker position other).work) (Finset.mem_univ worker)
  have others : ∑ other ∈ Finset.univ.erase worker,
      (Function.update workers worker position other).work =
      ∑ other ∈ Finset.univ.erase worker, (workers other).work := by
    apply Finset.sum_congr rfl
    intro other member
    rw [Function.update_of_ne (Finset.ne_of_mem_erase member)]
  simp only [Function.update_self] at splitMoved
  omega

omit [DecidableEq Obj] in
/-- A worker that goes on to a position with less work leaves less of it. -/
theorem Sys.work_move_lt {sys : Sys Obj Worker} {worker : Worker} {position : WorkerPosition Obj}
    (less : position.work < (sys.workers worker).work) :
    (sys.move worker position).work < sys.work := by
  have moved := workersWork_update sys.workers worker position
  simp only [Sys.work, Sys.move]
  omega

/-- The value that a failed call returns has the type of the function. -/
theorem KcallOp.returns_failure (op : KcallOp) : op.Returns op.failure := by
  cases op <;> trivial

/-! ### Progress -/

/-- A worker that is not idle has a step that leaves less work. -/
theorem exists_worker_progress {sys : Sys Obj Worker} {worker : Worker}
    (active : sys.workers worker ≠ .idle) :
    ∃ event after, ServiceStep sys event after ∧ after.work < sys.work := by
  cases position : sys.workers worker with
  | idle => exact absurd position active
  | fetched obj =>
      have six : (sys.workers worker).work = 6 := by rw [position]; rfl
      cases present : (sys.objs obj).op with
      | none =>
          refine ⟨_, _, ⟨Step.skip position present, rfl⟩, ?_⟩
          apply Sys.work_move_lt
          exact Nat.lt_of_lt_of_eq (by decide : 0 < 6) six.symm
      | some op =>
          have typed : op.Returns (⟨op.failure, 0⟩ : Reply).value := op.returns_failure
          refine ⟨_, _, ⟨Step.exec position present typed, rfl⟩, ?_⟩
          apply Sys.work_move_lt
          exact Nat.lt_of_lt_of_eq (by decide : 5 < 6) six.symm
  | executed obj =>
      have five : (sys.workers worker).work = 5 := by rw [position]; rfl
      cases pushed : sys.cq.push obj with
      | none =>
          refine ⟨_, _, ⟨Step.overflow position pushed, rfl⟩, ?_⟩
          apply Sys.work_move_lt
          exact Nat.lt_of_lt_of_eq (by decide : 0 < 5) five.symm
      | some cq =>
          refine ⟨_, _, ⟨Step.complete position pushed, rfl⟩, ?_⟩
          -- The object is in the completion queue now, where less is left to do with it.
          have items := (BoundedQueue.push_some pushed).2.1
          have added := workersWork_update sys.workers worker
            (if sys.cq.items.length = 0 ∧ sys.kqpost = true then .added else .idle)
          have little : (if sys.cq.items.length = 0 ∧ sys.kqpost = true then
              .added else .idle : WorkerPosition Obj).work ≤ 1 := by
            split <;> simp [WorkerPosition.work]
          simp only [Sys.work, Sys.move, items, List.length_append, List.length_singleton]
          omega
  | added =>
      have one : (sys.workers worker).work = 1 := by rw [position]; rfl
      have less : (sys.move worker .idle).work < sys.work :=
        Sys.work_move_lt (Nat.lt_of_lt_of_eq Nat.zero_lt_one one.symm)
      exact ⟨_, _, ⟨Step.post position, rfl⟩, less⟩

/-- So does a reader that has something to look at. -/
theorem exists_reader_progress {sys : Sys Obj Worker}
    (active : sys.reader ≠ .waiting ∨ sys.cq.items ≠ []) :
    ∃ trace after, Run ServiceStep sys trace after ∧ after.work < sys.work := by
  have single : ∀ {event after}, Step sys event after → event.ofClient = false →
      after.work < sys.work →
      ∃ trace after, Run ServiceStep sys trace after ∧ after.work < sys.work :=
    fun step service less => ⟨_, _, Run.single ⟨step, service⟩, less⟩
  cases position : sys.reader with
  | waiting =>
      have nonempty : sys.cq.items ≠ [] := by simpa [position] using active
      have polled : ServiceStep sys .poll { sys with reader := .draining } :=
        ⟨Step.poll position, rfl⟩
      cases popped : sys.cq.pop with
      | none => exact absurd (BoundedQueue.pop_none_iff.mp popped) nonempty
      | some item =>
          obtain ⟨obj, cq⟩ := item
          have items := (BoundedQueue.pop_some popped).1
          have fetched : Step { sys with reader := .draining } _ _ :=
            Step.fetchCompletion rfl popped
          refine ⟨_, _, (Run.single polled).snoc ⟨fetched, rfl⟩, ?_⟩
          simp only [Sys.work, Sys.write, position, items, List.length_cons,
            ReaderPosition.work]
          omega
  | received =>
      refine single (Step.consume position) rfl ?_
      simp [Sys.work, position, ReaderPosition.work]
  | draining =>
      cases popped : sys.cq.pop with
      | none =>
          refine single (Step.noCompletion position popped) rfl ?_
          simp [Sys.work, position, ReaderPosition.work]
      | some item =>
          obtain ⟨obj, cq⟩ := item
          have items := (BoundedQueue.pop_some popped).1
          refine single (Step.fetchCompletion position popped) rfl ?_
          simp only [Sys.work, Sys.write, position, items, List.length_cons,
            ReaderPosition.work]
          omega
  | handling obj =>
      by_cases present : (sys.objs obj).op = none
      · refine single (Step.discard position present) rfl ?_
        simp [Sys.work, position, ReaderPosition.work]
      · refine single (Step.handler position present) rfl ?_
        simp [Sys.work, position, ReaderPosition.work]

/-- If something is left to do, some worker or the reader can do a part of it. -/
theorem exists_progress [Nonempty Worker] {sys : Sys Obj Worker} (busy : ¬ sys.Quiescent) :
    ∃ trace after, Run ServiceStep sys trace after ∧ after.work < sys.work := by
  by_cases active : ∃ worker, sys.workers worker ≠ .idle
  · obtain ⟨worker, active⟩ := active
    obtain ⟨event, after, step, less⟩ := exists_worker_progress active
    exact ⟨_, after, Run.single step, less⟩
  have idle : ∀ worker, sys.workers worker = .idle := by simpa using active
  cases popped : sys.sq.pop with
  | some item =>
      obtain ⟨obj, sq⟩ := item
      obtain ⟨worker⟩ := ‹Nonempty Worker›
      have items := (BoundedQueue.pop_some popped).1
      refine ⟨_, _, Run.single ⟨Step.fetch (idle worker) popped, rfl⟩, ?_⟩
      have fetched := workersWork_update sys.workers worker (.fetched obj)
      simp only [idle worker, WorkerPosition.work] at fetched
      simp only [Sys.work, Sys.move, items, List.length_cons]
      omega
  | none =>
      apply exists_reader_progress
      by_contra nothing
      push Not at nothing
      exact busy ⟨BoundedQueue.pop_none_iff.mp popped, nothing.2, idle, nothing.1⟩

/-- Workers and the reader can always bring the system to rest. -/
theorem exists_drain [Nonempty Worker] (sys : Sys Obj Worker) :
    ∃ trace after, Run ServiceStep sys trace after ∧ after.Quiescent := by
  induction size : sys.work using Nat.strongRecOn generalizing sys with
  | ind size inductionHypothesis =>
      subst size
      by_cases quiescent : sys.Quiescent
      · exact ⟨[], sys, Run.refl, quiescent⟩
      obtain ⟨first, middle, firstRun, less⟩ := exists_progress quiescent
      obtain ⟨rest, after, restRun, quiescent⟩ := inductionHypothesis _ less middle rfl
      exact ⟨_, after, firstRun.append restRun, quiescent⟩

end Progress

end Ffos.Kcall
