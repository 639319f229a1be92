/-
Module: Ffos.Kcall.Places
Purpose: One object seen on its own. Between submission and completion it is at
  one place, and every step of the system is a step of each object's own cell.
Trusted boundary: none
Main exports: Place, At, CellStep, Step.cell
-/
import Ffos.Kcall.Model

namespace Ffos.Kcall

open Ffos.Lib

variable {Obj Worker : Type} [DecidableEq Obj] [DecidableEq Worker]

/-- Where an object is. `dropped` is the object whose completion found the
completion queue full. -/
inductive Place (Worker : Type) where
  | out
  | queued
  | fetched (worker : Worker)
  | executed (worker : Worker)
  | completed
  | handling
  | dropped
deriving DecidableEq

/-- The queues, the workers and the reader have the object at this place and at no
other. -/
structure At (sys : Sys Obj Worker) (obj : Obj) (place : Place Worker) : Prop where
  sq : sys.sq.items.count obj = if place = .queued then 1 else 0
  cq : sys.cq.items.count obj = if place = .completed then 1 else 0
  fetched : ∀ worker, sys.workers worker = .fetched obj ↔ place = .fetched worker
  executed : ∀ worker, sys.workers worker = .executed obj ↔ place = .executed worker
  reader : sys.reader = .handling obj ↔ place = .handling

/-- The object an event is about. -/
def Event.subject : Event Obj Worker → Option Obj
  | .call obj .. => some obj
  | .cancel obj => some obj
  | .fetch _ obj => some obj
  | .exec _ obj .. => some obj
  | .skip _ obj => some obj
  | .complete _ obj _ => some obj
  | .overflow _ obj => some obj
  | .post _ => none
  | .poll => none
  | .receive => none
  | .consume => none
  | .fetchCompletion obj => some obj
  | .noCompletion => none
  | .handler obj => some obj
  | .discard obj => some obj

/-- The steps of one attached object. -/
inductive CellStep (obj : Obj) :
    Ffkcall → Place Worker → Event Obj Worker → Ffkcall → Place Worker → Prop where
  | other {kc : Ffkcall} {place : Place Worker} {event : Event Obj Worker}
      (unrelated : event.subject ≠ some obj) : CellStep obj kc place event kc place
  | busy {kc : Ffkcall} {place : Place Worker} (request : Request) (active : kc.state ≠ 0) :
      CellStep obj kc place (.call obj request ⟨request.op.failure, ebusy⟩) kc place
  | result {kc : Ffkcall} {place : Place Worker} (request : Request) (inactive : kc.state = 0)
      (done : kc.op ≠ none) :
      CellStep obj kc place
        (.call obj request ⟨request.op.fromResult kc.words.at8, kc.words.at0⟩)
        { kc with op := none } place
  | again {kc : Ffkcall} {place : Place Worker} (request : Request) (inactive : kc.state = 0)
      (free : kc.op = none) :
      CellStep obj kc place (.call obj request ⟨request.op.failure, eagain⟩)
        { kc with words := request.store kc.words, op := none } place
  | queued {kc : Ffkcall} (request : Request) (inactive : kc.state = 0) (free : kc.op = none) :
      CellStep obj kc .out (.call obj request ⟨request.op.failure, einprogress⟩)
        { kc with words := request.store kc.words, op := some request.op } .queued
  | cancel {kc : Ffkcall} {place : Place Worker} :
      CellStep obj kc place (.cancel obj) { kc with op := none } place
  | fetch {kc : Ffkcall} {worker : Worker} :
      CellStep obj kc .queued (.fetch worker obj) kc (.fetched worker)
  | exec {kc : Ffkcall} {worker : Worker} {op : KcallOp} {outcome : Reply}
      (active : kc.op = some op) (typed : op.Returns outcome.value) :
      CellStep obj kc (.fetched worker) (.exec worker obj (op.load kc.words) outcome)
        { ffkcallExec outcome kc with state := 2 } (.executed worker)
  | skip {kc : Ffkcall} {worker : Worker} (cancelled : kc.op = none) :
      CellStep obj kc (.fetched worker) (.skip worker obj) { kc with state := 0 } .out
  | complete {kc : Ffkcall} {worker : Worker} {used : Nat} :
      CellStep obj kc (.executed worker) (.complete worker obj used) kc .completed
  | overflow {kc : Ffkcall} {worker : Worker} :
      CellStep obj kc (.executed worker) (.overflow worker obj) kc .dropped
  | fetchCompletion {kc : Ffkcall} :
      CellStep obj kc .completed (.fetchCompletion obj) { kc with state := 0 } .handling
  | handler {kc : Ffkcall} (active : kc.op ≠ none) :
      CellStep obj kc .handling (.handler obj) kc .out
  | discard {kc : Ffkcall} (cancelled : kc.op = none) :
      CellStep obj kc .handling (.discard obj) kc .out

namespace At

variable {sys after : Sys Obj Worker} {obj : Obj} {place : Place Worker}

theorem mem_sq_iff (here : At sys obj place) :
    obj ∈ sys.sq.items ↔ place = .queued := by
  have counted := here.sq
  rw [← List.count_pos_iff, counted]
  split <;> simp_all

theorem mem_cq_iff (here : At sys obj place) :
    obj ∈ sys.cq.items ↔ place = .completed := by
  have counted := here.cq
  rw [← List.count_pos_iff, counted]
  split <;> simp_all

/-- A worker that did not have the object and does not get it. -/
theorem move (here : At sys obj place) {worker : Worker} {position : WorkerPosition Obj}
    (hadNot : sys.workers worker ≠ .fetched obj ∧ sys.workers worker ≠ .executed obj)
    (getsNot : position ≠ .fetched obj ∧ position ≠ .executed obj) :
    At (sys.move worker position) obj place := by
  refine ⟨here.sq, here.cq, fun other => ?_, fun other => ?_, here.reader⟩
  · rw [← here.fetched other]
    by_cases same : other = worker
    · subst same
      simp [hadNot, getsNot]
    · rw [Sys.move_workers_of_ne _ _ _ same]
  · rw [← here.executed other]
    by_cases same : other = worker
    · subst same
      simp [hadNot, getsNot]
    · rw [Sys.move_workers_of_ne _ _ _ same]

/-- Only the counts, the workers and the reader matter. -/
theorem congr (here : At sys obj place)
    (sq : after.sq.items.count obj = sys.sq.items.count obj)
    (cq : after.cq.items.count obj = sys.cq.items.count obj)
    (workers : after.workers = sys.workers)
    (reader : after.reader = .handling obj ↔ sys.reader = .handling obj) :
    At after obj place := by
  refine ⟨sq.trans here.sq, cq.trans here.cq, ?_, ?_, reader.trans here.reader⟩
  · rw [workers]
    exact here.fetched
  · rw [workers]
    exact here.executed

/-- The one worker that may have the object moves, and the object goes with it or
leaves it. -/
theorem relocate (here : At sys obj place) {worker : Worker} {position : WorkerPosition Obj}
    {next : Place Worker}
    (sole : ∀ other, other ≠ worker → place ≠ .fetched other ∧ place ≠ .executed other)
    (workers : after.workers = (sys.move worker position).workers)
    (fetched : ∀ other, next = .fetched other ↔ other = worker ∧ position = .fetched obj)
    (executed : ∀ other, next = .executed other ↔ other = worker ∧ position = .executed obj)
    (sq : after.sq.items.count obj = if next = .queued then 1 else 0)
    (cq : after.cq.items.count obj = if next = .completed then 1 else 0)
    (reader : after.reader = .handling obj ↔ next = .handling) : At after obj next := by
  refine ⟨sq, cq, fun other => ?_, fun other => ?_, reader⟩
  · rw [workers, fetched other]
    by_cases same : other = worker
    · subst same
      simp
    · rw [Sys.move_workers_of_ne _ _ _ same, here.fetched other]
      simp [same, sole other same]
  · rw [workers, executed other]
    by_cases same : other = worker
    · subst same
      simp
    · rw [Sys.move_workers_of_ne _ _ _ same, here.executed other]
      simp [same, sole other same]

/-- When the reader is done with a completion, its object is out. -/
theorem handled {sys : Sys Obj Worker} {obj : Obj} (here : At sys obj .handling) :
    At { sys with reader := .draining } obj .out := by
  refine ⟨?_, ?_, ?_, ?_, by simp⟩
  · simpa using here.sq
  · simpa using here.cq
  · simpa using here.fetched
  · simpa using here.executed

end At

/-! ### Steps of the system and steps of a cell -/

section Cell

variable {before after : Sys Obj Worker} {obj : Obj} {place : Place Worker}

/-- A call on one object leaves every other object where it is. -/
theorem Called.frame {callee : Obj} {request : Request} {direct reply : Reply}
    (called : Called request direct before callee reply after) (apart : obj ≠ callee)
    (here : At before obj place) :
    after.objs obj = before.objs obj ∧ At after obj place := by
  cases called with
  | direct => exact ⟨rfl, here⟩
  | busy => exact ⟨rfl, here⟩
  | result =>
      exact ⟨Sys.write_objs_of_ne _ _ _ apart, here.congr rfl rfl rfl Iff.rfl⟩
  | again =>
      exact ⟨Sys.write_objs_of_ne _ _ _ apart, here.congr rfl rfl rfl Iff.rfl⟩
  | queued _ _ _ pushed =>
      refine ⟨Function.update_of_ne apart .., here.congr ?_ rfl rfl Iff.rfl⟩
      simp [(BoundedQueue.push_some pushed).2.1, List.count_append, apart.symm]

/-- A call on an attached object is a step of its cell, provided that the object is
out when it is queued. -/
theorem Called.cell {request : Request} {direct reply : Reply}
    (called : Called request direct before obj reply after) (here : At before obj place)
    (attached : (before.objs obj).attached = true)
    (queuedOut : (before.objs obj).state = 0 → (before.objs obj).op = none → place = .out) :
    ∃ placeAfter, At after obj placeAfter ∧
      CellStep obj (before.objs obj) place (.call obj request reply) (after.objs obj)
        placeAfter := by
  cases called with
  | direct detached => simp [attached] at detached
  | busy _ active => exact ⟨place, here, .busy request active⟩
  | result _ inactive done =>
      refine ⟨place, here.congr rfl rfl rfl Iff.rfl, ?_⟩
      rw [Sys.write_objs_self]
      exact .result request inactive done
  | again _ inactive free full =>
      refine ⟨place, here.congr rfl rfl rfl Iff.rfl, ?_⟩
      rw [Sys.write_objs_self]
      exact .again request inactive free
  | queued _ inactive free pushed =>
      obtain rfl := queuedOut inactive free
      refine ⟨.queued, ⟨?_, here.cq, ?_, ?_, ?_⟩, ?_⟩
      · have counted := here.sq
        simp [(BoundedQueue.push_some pushed).2.1, counted]
      · intro worker
        simpa using here.fetched worker
      · intro worker
        simpa using here.executed worker
      · simpa using here.reader
      · have written := Sys.write_objs_self before obj
          fun kc => { kc with words := request.store kc.words, op := some request.op }
        dsimp only at written ⊢
        rw [written]
        exact .queued request inactive free

/-- An event about something else leaves the object where it is. -/
theorem Step.frame {event : Event Obj Worker} (next : Step before event after)
    (unrelated : event.subject ≠ some obj) (here : At before obj place) :
    after.objs obj = before.objs obj ∧ At after obj place := by
  have subjectApart : ∀ other, event.subject = some other → other ≠ obj := by
    rintro other isSubject rfl
    exact unrelated isSubject
  cases next with
  | call callee request direct =>
      have apart := subjectApart callee rfl
      exact (request.async_called direct before callee).frame apart.symm here
  | cancel callee =>
      have apart := subjectApart callee rfl
      exact ⟨Sys.write_objs_of_ne _ _ _ apart.symm, here.congr rfl rfl rfl Iff.rfl⟩
  | @fetch worker other sq idle popped =>
      have apart := subjectApart other rfl
      have moved : At (before.move worker (.fetched other)) obj place :=
        here.move (by simp [idle]) (by simpa using apart)
      refine ⟨rfl, moved.congr ?_ rfl rfl Iff.rfl⟩
      simp [(BoundedQueue.pop_some popped).1, apart]
  | @exec worker other op outcome fetched active typed =>
      have apart := subjectApart other rfl
      have moved : At (before.move worker (.executed other)) obj place :=
        here.move (by simpa [fetched] using apart) (by simpa using apart)
      exact ⟨Function.update_of_ne apart.symm .., moved.congr rfl rfl rfl Iff.rfl⟩
  | @skip worker other fetched cancelled =>
      have apart := subjectApart other rfl
      have moved : At (before.move worker .idle) obj place :=
        here.move (by simpa [fetched] using apart) (by simp)
      exact ⟨Function.update_of_ne apart.symm .., moved.congr rfl rfl rfl Iff.rfl⟩
  | @complete worker other cq executed pushed =>
      have apart := subjectApart other rfl
      refine ⟨rfl, (here.move (by simpa [executed] using apart) ?_).congr rfl ?_ rfl Iff.rfl⟩
      · split <;> simp
      · simp [(BoundedQueue.push_some pushed).2.1, List.count_append, apart]
  | @overflow worker other executed full =>
      have apart := subjectApart other rfl
      exact ⟨rfl, here.move (by simpa [executed] using apart) (by simp)⟩
  | @post worker added =>
      have moved : At (before.move worker .idle) obj place :=
        here.move (by simp [added]) (by simp)
      exact ⟨rfl, moved.congr rfl rfl rfl Iff.rfl⟩
  | poll waiting => exact ⟨rfl, here.congr rfl rfl rfl (by simp [waiting])⟩
  | receive waiting posted => exact ⟨rfl, here.congr rfl rfl rfl (by simp [waiting])⟩
  | consume received => exact ⟨rfl, here.congr rfl rfl rfl (by simp [received])⟩
  | @fetchCompletion other cq draining popped =>
      have apart := subjectApart other rfl
      refine ⟨Function.update_of_ne apart.symm .., here.congr rfl ?_ rfl ?_⟩
      · simp [(BoundedQueue.pop_some popped).1, apart]
      · simp [draining, apart]
  | noCompletion draining empty => exact ⟨rfl, here.congr rfl rfl rfl (by simp [draining])⟩
  | @handler other handling active =>
      have apart := subjectApart other rfl
      exact ⟨rfl, here.congr rfl rfl rfl (by simp [handling, apart])⟩
  | @discard other handling cancelled =>
      have apart := subjectApart other rfl
      exact ⟨rfl, here.congr rfl rfl rfl (by simp [handling, apart])⟩

/-- A step of the system is a step of every attached object's cell, provided that an
object is out when it is queued. -/
theorem Step.cell {event : Event Obj Worker} (next : Step before event after)
    (here : At before obj place) (attached : (before.objs obj).attached = true)
    (queuedOut : ∀ request reply, event = .call obj request reply →
      (before.objs obj).state = 0 → (before.objs obj).op = none → place = .out) :
    ∃ placeAfter, At after obj placeAfter ∧
      CellStep obj (before.objs obj) place event (after.objs obj) placeAfter := by
  by_cases related : event.subject = some obj
  swap
  · obtain ⟨unchanged, stays⟩ := next.frame related here
    rw [unchanged]
    exact ⟨place, stays, .other related⟩
  cases next with
  | call callee request direct =>
      obtain rfl : callee = obj := Option.some.inj related
      exact (request.async_called direct before callee).cell here attached
        (queuedOut request _ rfl)
  | cancel callee =>
      obtain rfl : callee = obj := Option.some.inj related
      refine ⟨place, here.congr rfl rfl rfl Iff.rfl, ?_⟩
      unfold ffkcallCancel
      rw [Sys.write_objs_self]
      exact .cancel
  | @fetch worker other sq idle popped =>
      obtain rfl : other = obj := Option.some.inj related
      have shape := (BoundedQueue.pop_some popped).1
      obtain rfl : place = .queued := here.mem_sq_iff.mp (by simp [shape])
      have counted := here.sq
      rw [shape, List.count_cons_self] at counted
      refine ⟨.fetched worker, ?_, .fetch⟩
      refine here.relocate (fun _ _ => by simp) rfl (fun v => by simp [eq_comm])
        (fun v => by simp) ?_ ?_ ?_
      · simpa using counted
      · simpa using here.cq
      · simpa using here.reader
  | @exec worker other op outcome fetched active typed =>
      obtain rfl : other = obj := Option.some.inj related
      obtain rfl : place = .fetched worker := (here.fetched worker).mp fetched
      refine ⟨.executed worker, ?_, ?_⟩
      · refine here.relocate (fun v apart => by simpa using apart.symm) rfl (fun v => by simp)
          (fun v => by simp [eq_comm]) ?_ ?_ ?_
        · simpa using here.sq
        · simpa using here.cq
        · simpa using here.reader
      · rw [Sys.move_objs, Sys.write_objs_self]
        exact .exec active typed
  | @skip worker other fetched cancelled =>
      obtain rfl : other = obj := Option.some.inj related
      obtain rfl : place = .fetched worker := (here.fetched worker).mp fetched
      refine ⟨.out, ?_, ?_⟩
      · refine here.relocate (fun v apart => by simpa using apart.symm) rfl (fun v => by simp)
          (fun v => by simp) ?_ ?_ ?_
        · simpa using here.sq
        · simpa using here.cq
        · simpa using here.reader
      · rw [Sys.move_objs, Sys.write_objs_self]
        exact .skip cancelled
  | @complete worker other cq executed pushed =>
      obtain rfl : other = obj := Option.some.inj related
      obtain rfl : place = .executed worker := (here.executed worker).mp executed
      refine ⟨.completed, ?_, .complete⟩
      refine here.relocate (fun v apart => by simpa using apart.symm) rfl (fun v => ?_)
        (fun v => ?_) ?_ ?_ ?_
      · split <;> simp
      · split <;> simp
      · simpa using here.sq
      · have counted := here.cq
        simp [(BoundedQueue.push_some pushed).2.1, counted]
      · simpa using here.reader
  | @overflow worker other executed full =>
      obtain rfl : other = obj := Option.some.inj related
      obtain rfl : place = .executed worker := (here.executed worker).mp executed
      refine ⟨.dropped, ?_, .overflow⟩
      refine here.relocate (fun v apart => by simpa using apart.symm) rfl (fun v => by simp)
        (fun v => by simp) ?_ ?_ ?_
      · simpa using here.sq
      · simpa using here.cq
      · simpa using here.reader
  | @fetchCompletion other cq draining popped =>
      obtain rfl : other = obj := Option.some.inj related
      have shape := (BoundedQueue.pop_some popped).1
      obtain rfl : place = .completed := here.mem_cq_iff.mp (by simp [shape])
      have counted := here.cq
      rw [shape, List.count_cons_self] at counted
      refine ⟨.handling, ⟨?_, ?_, ?_, ?_, by simp⟩, ?_⟩
      · simpa using here.sq
      · simpa using counted
      · simpa using here.fetched
      · simpa using here.executed
      · have written := Sys.write_objs_self before other fun kc => { kc with state := 0 }
        dsimp only at written ⊢
        rw [written]
        exact .fetchCompletion
  | @handler other handling active =>
      obtain rfl : other = obj := Option.some.inj related
      obtain rfl : place = .handling := here.reader.mp handling
      exact ⟨.out, here.handled, .handler active⟩
  | @discard other handling cancelled =>
      obtain rfl : other = obj := Option.some.inj related
      obtain rfl : place = .handling := here.reader.mp handling
      exact ⟨.out, here.handled, .discard cancelled⟩
  | post | poll | receive | consume | noCompletion => cases related

end Cell

end Ffos.Kcall
