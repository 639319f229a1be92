/-
Module: Ffos.Kcall.Wakeup
Purpose: The reader is never left asleep while a completion waits for it: the
  post on the empty-to-non-empty edge is enough for any number of workers.
Trusted boundary: none
Main exports: Awake, Step.awake, no_lost_wakeup
-/
import Ffos.Kcall.Model

namespace Ffos.Kcall

open Ffos.Lib

variable {Obj Worker : Type} [DecidableEq Obj] [DecidableEq Worker]

/-- The reader has consumed the event and will fetch before it waits again. -/
def ReaderPosition.BeforeFetch (reader : ReaderPosition Obj) : Prop :=
  reader = .draining ∨ ∃ obj, reader = .handling obj

/-- Something will make the reader look at the completion queue: an event is
pending, a worker is about to post one, or the reader is about to fetch. -/
def Awake (sys : Sys Obj Worker) : Prop :=
  sys.pending = true ∨ (∃ worker, sys.workers worker = .added) ∨ sys.reader.BeforeFetch

/-- If the completion queue is not empty, the reader will look at it. -/
structure WakeInvariant (sys : Sys Obj Worker) : Prop where
  posts : sys.kqpost = true
  awake : sys.cq.items ≠ [] → Awake sys

omit [DecidableEq Obj] in
/-- Moving a worker that has nothing to post keeps every other one in place. -/
theorem added_of_move {sys : Sys Obj Worker} {worker : Worker}
    (notAdded : sys.workers worker ≠ .added) (position : WorkerPosition Obj)
    (added : ∃ other, sys.workers other = .added) :
    ∃ other, (sys.move worker position).workers other = .added := by
  obtain ⟨other, there⟩ := added
  refine ⟨other, ?_⟩
  have different : other ≠ worker := by
    rintro rfl
    exact notAdded there
  rw [Sys.move_workers_of_ne _ _ _ different]
  exact there

omit [DecidableEq Obj] in
/-- The same for everything that keeps the reader awake. -/
theorem Awake.move {sys : Sys Obj Worker} {worker : Worker} (awake : Awake sys)
    (notAdded : sys.workers worker ≠ .added) (position : WorkerPosition Obj) :
    Awake (sys.move worker position) := by
  rcases awake with pending | added | fetching
  · exact Or.inl pending
  · exact Or.inr (Or.inl (added_of_move notAdded position added))
  · exact Or.inr (Or.inr fetching)

/-- Every step but an unprompted `poll` keeps the invariant. -/
theorem Step.awake {before after : Sys Obj Worker} {event : Event Obj Worker}
    (invariant : WakeInvariant before) (next : Step before event after)
    (prompted : event ≠ .poll) : WakeInvariant after := by
  obtain ⟨posts, awake⟩ := invariant
  cases next with
  | call obj request direct =>
      obtain ⟨sameCq, samePosts, sameWorkers, samePending, sameReader⟩ :=
        request.async_frame direct before obj
      refine ⟨by rw [samePosts]; exact posts, ?_⟩
      unfold Awake
      rw [sameCq, sameWorkers, samePending, sameReader]
      exact awake
  | cancel obj => exact ⟨posts, awake⟩
  | fetch idle popped =>
      refine ⟨posts, fun nonempty => ?_⟩
      exact (awake nonempty).move (by simp [idle]) _
  | @exec worker obj _ _ fetched active typed =>
      refine ⟨posts, fun nonempty => ?_⟩
      have notAdded : before.workers worker ≠ .added := by simp [fetched]
      exact (awake nonempty).move notAdded (.executed obj)
  | @skip worker obj fetched cancelled =>
      refine ⟨posts, fun nonempty => ?_⟩
      have notAdded : before.workers worker ≠ .added := by simp [fetched]
      exact (awake nonempty).move notAdded .idle
  | @complete worker obj cq executed pushed =>
      refine ⟨posts, fun _ => ?_⟩
      by_cases first : before.cq.items.length = 0
      · -- the edge from empty to non-empty: this worker posts
        right
        left
        refine ⟨worker, ?_⟩
        simp [Sys.move, first, posts]
      · have nonempty : before.cq.items ≠ [] := by
          intro empty
          simp [empty] at first
        exact (awake nonempty).move (by simp [executed]) _
  | overflow executed full =>
      refine ⟨posts, fun nonempty => ?_⟩
      exact (awake nonempty).move (by simp [executed]) _
  | post added => exact ⟨posts, fun _ => Or.inl rfl⟩
  | poll waiting => exact absurd rfl prompted
  | receive waiting posted => exact ⟨posts, fun _ => Or.inl posted⟩
  | consume received => exact ⟨posts, fun _ => Or.inr (Or.inr (Or.inl rfl))⟩
  | fetchCompletion draining popped =>
      exact ⟨posts, fun _ => Or.inr (Or.inr (Or.inr ⟨_, rfl⟩))⟩
  | noCompletion draining empty =>
      refine ⟨posts, fun nonempty => ?_⟩
      exact absurd (BoundedQueue.pop_none_iff.mp empty) nonempty
  | handler handling active => exact ⟨posts, fun _ => Or.inr (Or.inr (Or.inl rfl))⟩
  | discard handling cancelled => exact ⟨posts, fun _ => Or.inr (Or.inr (Or.inl rfl))⟩

/-- In every reachable state in which the completion queue is not empty, an event
is pending, or a worker has added to the empty queue and not posted yet, or the
reader is between consuming the event and its next fetch. -/
theorem no_lost_wakeup {start final : Sys Obj Worker} (initial : start.Initial)
    (posts : start.kqpost = true) {trace : List (Event Obj Worker)}
    (run : Run Step start trace final) (prompted : .poll ∉ trace)
    (nonempty : final.cq.items ≠ []) :
    final.pending = true ∨ (∃ worker, final.workers worker = .added) ∨
      final.reader.BeforeFetch := by
  have invariant : .poll ∉ trace → WakeInvariant final := by
    apply run.history fun past state => .poll ∉ past → WakeInvariant state
    · intro _
      exact ⟨posts, fun nonempty => absurd initial.cq nonempty⟩
    · intro past before event after earlier next notPoll
      simp only [List.mem_append, List.mem_singleton, not_or] at notPoll
      exact next.awake (earlier notPoll.1) fun isPoll => notPoll.2 isPoll.symm
  exact (invariant prompted).awake nonempty

/-- One object, one worker: just after its completion was added, the worker still
has to post. -/
theorem no_lost_wakeup_before_post :
    ∃ (trace : List (Event Unit Unit)) (final : Sys Unit Unit),
      Run Step (Sys.fresh 1 1 true) trace final ∧ final.cq.items ≠ [] ∧
        (final.pending = true ∨ (∃ worker, final.workers worker = .added) ∨
          final.reader.BeforeFetch) := by
  have start : Run Step (Sys.fresh 1 1 true : Sys Unit Unit) [] _ := Run.refl
  have called := start.snoc (Step.call () (.fileInfo 3 0x1000) ⟨.int 0, 0⟩)
  have fetched := called.snoc
    (Step.fetch rfl rfl : Step _ (.fetch () ()) _)
  have executed := fetched.snoc
    (Step.exec rfl (show _ = some KcallOp.fileInfo from rfl) trivial :
      Step _ (.exec () () _ ⟨.int 0, 0⟩) _)
  have added := executed.snoc (Step.complete rfl rfl : Step _ (.complete () () _) _)
  exact ⟨_, _, added, by decide,
    no_lost_wakeup (Sys.fresh_initial 1 1 true) rfl added (by simp) (by decide)⟩

end Ffos.Kcall
