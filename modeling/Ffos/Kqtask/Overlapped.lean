/-
Module: Ffos.Kqtask.Overlapped
Purpose: The one shape that the asynchronous functions of FFOS/socket.h, FFOS/pipe.h and
  FFOS/filemon.h have on Windows, over the `ffkq_task` of FFOS/kqtask.h: collect what an
  operation under way has come to, or try at once, or begin an operation. What it does
  with a task in every run: nobody waits for a packet that does not come, and each
  operation is collected once.
Trusted boundary: GetOverlappedResult, and the one packet that the completion port gets for
  an operation that was begun
Main exports: Overlapped, FfkqTask, TaskCode, TaskSys, TaskCode.call, TaskEvent, Step,
  Tracked, tracked
-/
import Ffos.Lib.Transition

namespace Ffos.Kqtask

open Ffos.Lib

def errorIoIncomplete : Nat := 996
def errorIoPending : Nat := 997

/-! ### The task -/

/-- How an operation ended: with a number of bytes, or with an error. -/
inductive IoResult where
  | finished (read : Nat)
  | failed (error : Nat)
deriving DecidableEq, Repr

/-- The state behind `OVERLAPPED`; an operation under way knows what it was begun with. -/
inductive Overlapped (Arg : Type) where
  | zero
  | running (arg : Arg)
  | ended (outcome : IoResult)
deriving DecidableEq, Repr

/-- `ffkq_task`. -/
structure FfkqTask (Arg : Type) where
  overlapped : Overlapped Arg
  active : Nat
deriving DecidableEq, Repr

/-- `GetOverlappedResult` without waiting: the number of bytes, or the error. An object
that is zeroed counts as finished with no bytes. -/
def Overlapped.result {Arg : Type} : Overlapped Arg → IoResult
  | .zero => .finished 0
  | .running _ => .failed errorIoIncomplete
  | .ended outcome => outcome

/-! ### The functions -/

/-- What a function does before it begins an operation: it returns, maybe with an error
set, or it goes on. -/
inductive Attempt (Env : Type) where
  | returns (r : Int) (error : Option Nat) (env : Env)
  | goesOn (env : Env)

/-- How the system call that begins an operation ends: it is done already, it is under
way, it has failed, or the function returns something else at once. -/
inductive Began where
  | done (read : Nat)
  | pending
  | failed (error : Nat)
  | returns (r : Int)
deriving DecidableEq, Repr

/-- What sets one of the functions apart. `finish` is its result for an operation that
has finished; without one it goes on to `attempt`. `doneError` is the error it sets when
an operation is done as soon as it is begun. -/
structure TaskCode (Env Arg Os : Type) where
  finish : Arg → Nat → Option Int
  attempt : Os → Arg → Env → Attempt Env
  begin : Os → Arg → Env → Began × Env
  doneError : Option Nat

/-- The task, what the function works on, the last error, the packets in the completion
port, and whether the owner, told that the operation is in progress, waits for one. -/
structure TaskSys (Env Arg : Type) where
  task : FfkqTask Arg
  env : Env
  lastError : Nat
  packets : Nat
  waiting : Bool
deriving DecidableEq, Repr

/-- One call: the outcome of an earlier operation that it collected, the outcome of an
operation that was done as soon as it was begun, the result and the state after it. -/
structure Called (Env Arg : Type) where
  collected : Option IoResult
  done : Option IoResult
  r : Int
  after : TaskSys Env Arg

namespace TaskCode

variable {Env Arg Os : Type} (code : TaskCode Env Arg Os)

/-- The second half of a function: nothing is under way. -/
def start (os : Os) (arg : Arg) (collected : Option IoResult) (sys : TaskSys Env Arg) :
    Called Env Arg :=
  match code.attempt os arg sys.env with
  | .returns r error env =>
      ⟨collected, none, r, { sys with env := env, lastError := error.getD sys.lastError }⟩
  | .goesOn env =>
      let task := { sys.task with overlapped := .zero }
      match code.begin os arg env with
      | (.done read, env) =>
          ⟨collected, some (.finished read), -1, { sys with
            env := env, task := { overlapped := .ended (.finished read), active := 1 }
            lastError := code.doneError.getD sys.lastError, packets := sys.packets + 1 }⟩
      | (.pending, env) =>
          ⟨collected, none, -1, { sys with
            env := env, task := { overlapped := .running arg, active := 1 }
            lastError := errorIoPending }⟩
      | (.failed error, env) =>
          ⟨collected, none, -1, { sys with env := env, task := task, lastError := error }⟩
      | (.returns r, env) => ⟨collected, none, r, { sys with env := env, task := task }⟩

/-- A function on its task. -/
def call (os : Os) (arg : Arg) (sys : TaskSys Env Arg) : Called Env Arg :=
  if sys.task.active ≠ 0 then
    let inactive := { sys with task := { sys.task with active := 0 } }
    match sys.task.overlapped.result with
    | .failed error =>
        if error = errorIoIncomplete then ⟨none, none, -1, { sys with lastError := errorIoPending }⟩
        else ⟨some (.failed error), none, -1, { inactive with lastError := error }⟩
    | .finished read =>
        match code.finish arg read with
        | some r => ⟨some (.finished read), none, r, inactive⟩
        | none => code.start os arg (some (.finished read)) inactive
  else code.start os arg none sys

/-! One equation for each way through a function. -/

section Ways

variable {code} {os : Os} {arg : Arg} {collected : Option IoResult} {sys : TaskSys Env Arg}
  {env after : Env}

theorem start_returns {r : Int} {error : Option Nat}
    (attempt : code.attempt os arg sys.env = .returns r error env) :
    code.start os arg collected sys =
      ⟨collected, none, r, { sys with env := env, lastError := error.getD sys.lastError }⟩ := by
  unfold start
  rw [attempt]

theorem start_done {read : Nat} (attempt : code.attempt os arg sys.env = .goesOn env)
    (begin : code.begin os arg env = (.done read, after)) :
    code.start os arg collected sys =
      ⟨collected, some (.finished read), -1, { sys with
        env := after, task := { overlapped := .ended (.finished read), active := 1 }
        lastError := code.doneError.getD sys.lastError, packets := sys.packets + 1 }⟩ := by
  unfold start
  simp only [attempt, begin]

theorem start_pending (attempt : code.attempt os arg sys.env = .goesOn env)
    (begin : code.begin os arg env = (.pending, after)) :
    code.start os arg collected sys =
      ⟨collected, none, -1, { sys with
        env := after, task := { overlapped := .running arg, active := 1 }
        lastError := errorIoPending }⟩ := by
  unfold start
  simp only [attempt, begin]

theorem start_failed {error : Nat} (attempt : code.attempt os arg sys.env = .goesOn env)
    (begin : code.begin os arg env = (.failed error, after)) :
    code.start os arg collected sys =
      ⟨collected, none, -1, { sys with
        env := after, task := { sys.task with overlapped := .zero }, lastError := error }⟩ := by
  unfold start
  simp only [attempt, begin]

theorem call_idle (active : sys.task.active = 0) :
    code.call os arg sys = code.start os arg none sys := by
  unfold call
  rw [if_neg (not_not_intro active)]

theorem call_running {begunWith : Arg} (active : sys.task.active = 1)
    (overlapped : sys.task.overlapped = .running begunWith) :
    code.call os arg sys = ⟨none, none, -1, { sys with lastError := errorIoPending }⟩ := by
  unfold call
  rw [if_pos (by rw [active]; decide), overlapped]
  rfl

theorem call_failed {error : Nat} (active : sys.task.active = 1)
    (overlapped : sys.task.overlapped = .ended (.failed error))
    (notIncomplete : error ≠ errorIoIncomplete) :
    code.call os arg sys = ⟨some (.failed error), none, -1,
      { sys with task := { sys.task with active := 0 }, lastError := error }⟩ := by
  unfold call
  rw [if_pos (by rw [active]; decide), overlapped]
  exact if_neg notIncomplete

theorem call_finished {read : Nat} {r : Int} (active : sys.task.active = 1)
    (overlapped : sys.task.overlapped = .ended (.finished read))
    (finish : code.finish arg read = some r) :
    code.call os arg sys = ⟨some (.finished read), none, r,
      { sys with task := { sys.task with active := 0 } }⟩ := by
  unfold call
  rw [if_pos (by rw [active]; decide), overlapped]
  simp only [Overlapped.result, finish]

theorem call_goesOn {read : Nat} (active : sys.task.active = 1)
    (overlapped : sys.task.overlapped = .ended (.finished read))
    (finish : code.finish arg read = none) :
    code.call os arg sys = code.start os arg (some (.finished read))
      { sys with task := { sys.task with active := 0 } } := by
  unfold call
  rw [if_pos (by rw [active]; decide), overlapped]
  simp only [Overlapped.result, finish]

end Ways

end TaskCode

/-! ### Runs -/

/-- What happens to a task. `Change` is what the world may do to the rest. -/
inductive TaskEvent (Env Arg Change : Type) where
  | call (arg : Arg) (called : Called Env Arg)
  | complete (outcome : IoResult)
  | packet
  | world (change : Change)

/-- The system around a function: which calls are proper, with what the system answers in
them, how it ends an operation under way, and what may happen to the rest meanwhile. -/
structure World (Env Arg Os Change : Type) where
  proper : Os → Arg → Prop
  completes : Arg → Env → IoResult → Env → Prop
  changes : Change → Env → Env → Prop

variable {Env Arg Os Change : Type}

/-- The owner waits for a packet when it is told that the operation is in progress. -/
def Called.waits (called : Called Env Arg) : Bool :=
  decide (called.r < 0 ∧ called.after.lastError = errorIoPending)

/-- One step: a call, the end of an operation, a packet that the owner takes out of the
port, or something that happens outside. -/
inductive Step (code : TaskCode Env Arg Os) (world : World Env Arg Os Change) :
    TaskSys Env Arg → TaskEvent Env Arg Change → TaskSys Env Arg → Prop where
  | call {sys : TaskSys Env Arg} (os : Os) (arg : Arg) (proper : world.proper os arg) :
      Step code world sys (.call arg (code.call os arg sys))
        { (code.call os arg sys).after with waiting := (code.call os arg sys).waits }
  | complete {sys : TaskSys Env Arg} {arg : Arg} {outcome : IoResult} {env : Env}
      (running : sys.task.overlapped = .running arg)
      (completes : world.completes arg sys.env outcome env) :
      Step code world sys (.complete outcome)
        { sys with
          task := { sys.task with overlapped := .ended outcome }
          env := env
          packets := sys.packets + 1 }
  | packet {sys : TaskSys Env Arg} (posted : 0 < sys.packets) :
      Step code world sys .packet { sys with packets := sys.packets - 1, waiting := false }
  | world {sys : TaskSys Env Arg} {change : Change} {env : Env}
      (changes : world.changes change sys.env env) :
      Step code world sys (.world change) { sys with env := env }

/-- A task that is not in use, and an owner that waits for nothing. -/
structure TaskSys.Fresh (sys : TaskSys Env Arg) : Prop where
  inactive : sys.task.active = 0
  notRunning : ∀ arg, sys.task.overlapped ≠ .running arg
  notWaiting : sys.waiting = false

/-- What the system and the code keep to: an operation does not end with the error of one
under way, and a function that returns without an operation under way does not say that
there is one. -/
structure Honest (code : TaskCode Env Arg Os) (world : World Env Arg Os Change) : Prop where
  finish : ∀ os arg read r, world.proper os arg → code.finish arg read = some r → 0 ≤ r
  attempt : ∀ os arg env r error after, world.proper os arg →
    code.attempt os arg env = .returns r error after →
    0 ≤ r ∨ ∃ code, error = some code ∧ code ≠ errorIoPending
  failed : ∀ os arg env error after, world.proper os arg →
    code.begin os arg env = (.failed error, after) → error ≠ errorIoPending
  returns : ∀ os arg env r after, world.proper os arg →
    code.begin os arg env = (.returns r, after) → 0 ≤ r
  completes : ∀ arg env outcome after, world.completes arg env outcome after →
    outcome ≠ .failed errorIoIncomplete ∧ outcome ≠ .failed errorIoPending

/-! ### What holds in every run -/

/-- The outcomes of operations that a step ends. -/
def TaskEvent.ends : TaskEvent Env Arg Change → List IoResult
  | .call _ called => called.done.toList
  | .complete outcome => [outcome]
  | _ => []

/-- The outcome that a call hands to the owner. -/
def TaskEvent.collects : TaskEvent Env Arg Change → List IoResult
  | .call _ called => called.collected.toList
  | _ => []

/-- The outcomes of the operations that have ended in a run. -/
def ended (trace : List (TaskEvent Env Arg Change)) : List IoResult := trace.flatMap TaskEvent.ends

/-- The outcomes that were handed to the owner. -/
def collected (trace : List (TaskEvent Env Arg Change)) : List IoResult :=
  trace.flatMap TaskEvent.collects

/-- The task in a state, with the outcome that is not collected: not in use, under way, or
ended. An owner that waits has a packet to come. -/
inductive Tracked (sys : TaskSys Env Arg) : List IoResult → Prop where
  | unused (active : sys.task.active = 0) (still : ∀ arg, sys.task.overlapped ≠ .running arg)
      (waiting : sys.waiting = true → 0 < sys.packets) :
      Tracked sys []
  | running {arg : Arg} (active : sys.task.active = 1)
      (overlapped : sys.task.overlapped = .running arg) :
      Tracked sys []
  | ended {outcome : IoResult} (active : sys.task.active = 1)
      (overlapped : sys.task.overlapped = .ended outcome)
      (proper : outcome ≠ .failed errorIoIncomplete ∧ outcome ≠ .failed errorIoPending)
      (waiting : sys.waiting = true → 0 < sys.packets) :
      Tracked sys [outcome]

/-- A waiting owner is never forgotten. -/
theorem Tracked.awaited {sys : TaskSys Env Arg} {held : List IoResult} (tracked : Tracked sys held)
    (waiting : sys.waiting = true) :
    (∃ arg, sys.task.overlapped = .running arg) ∨ 0 < sys.packets := by
  cases tracked with
  | unused _ _ packets => exact .inr (packets waiting)
  | running _ overlapped => exact .inl ⟨_, overlapped⟩
  | ended _ _ _ packets => exact .inr (packets waiting)

/-- What the second half of a function leaves. -/
theorem TaskCode.start_tracked {code : TaskCode Env Arg Os} {world : World Env Arg Os Change}
    (honest : Honest code world) {os : Os} {arg : Arg} (proper : world.proper os arg)
    (collected : Option IoResult) {sys : TaskSys Env Arg} (active : sys.task.active = 0)
    (still : ∀ arg, sys.task.overlapped ≠ .running arg) :
    (code.start os arg collected sys).collected = collected ∧
      Tracked { (code.start os arg collected sys).after with
        waiting := (code.start os arg collected sys).waits }
        (code.start os arg collected sys).done.toList := by
  unfold TaskCode.start
  split
  case h_1 r error env attempt =>
    refine ⟨rfl, .unused active still ?_⟩
    intro waits
    obtain ⟨negative, pending⟩ := of_decide_eq_true waits
    rcases honest.attempt _ _ _ _ _ _ proper attempt with nonneg | ⟨code, rfl, notPending⟩
    · exact absurd negative (Int.not_lt.mpr nonneg)
    · exact absurd pending notPending
  case h_2 env attempt =>
    dsimp only
    split
    case h_1 outcome env begin =>
      exact ⟨rfl, .ended rfl rfl ⟨nofun, nofun⟩ fun _ => Nat.succ_pos _⟩
    case h_2 => exact ⟨rfl, .running rfl rfl⟩
    case h_3 error env begin =>
      refine ⟨rfl, .unused active (fun _ => nofun) ?_⟩
      intro waits
      obtain ⟨_, pending⟩ := of_decide_eq_true waits
      exact absurd pending (honest.failed _ _ _ _ _ proper begin)
    case h_4 r env begin =>
      refine ⟨rfl, .unused active (fun _ => nofun) ?_⟩
      intro waits
      obtain ⟨negative, _⟩ := of_decide_eq_true waits
      exact absurd negative (Int.not_lt.mpr (honest.returns _ _ _ _ _ proper begin))

/-- A call keeps the task tracked: what it collects was held, what it leaves is held. -/
theorem Tracked.call {code : TaskCode Env Arg Os} {world : World Env Arg Os Change}
    (honest : Honest code world) {sys : TaskSys Env Arg} {held : List IoResult}
    (tracked : Tracked sys held) {os : Os} {arg : Arg} (proper : world.proper os arg) :
    ∃ after, Tracked { (code.call os arg sys).after with waiting := (code.call os arg sys).waits }
        after ∧
      (code.call os arg sys).collected.toList ++ after =
        held ++ (code.call os arg sys).done.toList := by
  cases tracked with
  | unused active still =>
      obtain ⟨collected, after⟩ := TaskCode.start_tracked honest proper none active still
      rw [TaskCode.call_idle active]
      exact ⟨_, after, by rw [collected]; rfl⟩
  | running active overlapped =>
      rw [TaskCode.call_running active overlapped]
      exact ⟨[], .running active overlapped, rfl⟩
  | @ended outcome active overlapped notRunning waiting =>
      have still : ∀ arg, sys.task.overlapped ≠ .running arg := by
        rw [overlapped]
        exact fun _ => nofun
      cases outcome with
      | failed error =>
          have notIncomplete : error ≠ errorIoIncomplete := fun same => notRunning.1 (same ▸ rfl)
          rw [TaskCode.call_failed active overlapped notIncomplete]
          refine ⟨[], .unused rfl still ?_, rfl⟩
          intro waits
          obtain ⟨_, pending⟩ := of_decide_eq_true waits
          exact absurd (congrArg IoResult.failed pending) notRunning.2
      | finished read =>
          cases finish : code.finish arg read with
          | some r =>
              rw [TaskCode.call_finished active overlapped finish]
              refine ⟨[], .unused rfl still ?_, rfl⟩
              intro waits
              obtain ⟨negative, _⟩ := of_decide_eq_true waits
              exact absurd negative (Int.not_lt.mpr (honest.finish _ _ _ _ proper finish))
          | none =>
              have begun := @TaskCode.start_tracked _ _ _ _ _ _ honest _ _ proper
                (some (.finished read)) { sys with task := { sys.task with active := 0 } } rfl still
              rw [TaskCode.call_goesOn active overlapped finish]
              exact ⟨_, begun.2, by rw [begun.1]; rfl⟩

/-- So does every step. -/
theorem Tracked.step {code : TaskCode Env Arg Os} {world : World Env Arg Os Change}
    (honest : Honest code world) {before after : TaskSys Env Arg} {event : TaskEvent Env Arg Change}
    {held : List IoResult} (tracked : Tracked before held)
    (next : Step code world before event after) :
    ∃ heldAfter, Tracked after heldAfter ∧ event.collects ++ heldAfter = held ++ event.ends := by
  cases next with
  | call os arg proper => exact tracked.call honest proper
  | complete running completes =>
      cases tracked with
      | unused _ still => exact absurd running (still _)
      | running active overlapped =>
          refine ⟨_, .ended active rfl ?_ fun _ => Nat.succ_pos _, rfl⟩
          exact honest.completes _ _ _ _ completes
      | ended _ overlapped => exact absurd (overlapped.symm.trans running) nofun
  | packet =>
      refine ⟨held, ?_, (List.append_nil _).symm⟩
      cases tracked with
      | unused active still => exact .unused active still nofun
      | running active overlapped => exact .running active overlapped
      | ended active overlapped proper => exact .ended active overlapped proper nofun
  | world =>
      refine ⟨held, ?_, (List.append_nil _).symm⟩
      cases tracked with
      | unused active still waiting => exact .unused active still waiting
      | running active overlapped => exact .running active overlapped
      | ended active overlapped proper waiting => exact .ended active overlapped proper waiting

/-- A task that serves its owner: the outcomes that were handed over are those of the
operations that have ended, in order, but for one at most that is still held; and an
owner that waits has an operation under way or a packet in the port. -/
structure Serves (trace : List (TaskEvent Env Arg Change)) (sys : TaskSys Env Arg) : Prop where
  once : ∃ held, ended trace = collected trace ++ held ∧ held.length ≤ 1
  awaited : sys.waiting = true →
    (∃ arg, sys.task.overlapped = .running arg) ∨ 0 < sys.packets

/-- The task is tracked in every run of an honest function. -/
theorem Honest.tracked {code : TaskCode Env Arg Os} {world : World Env Arg Os Change}
    (honest : Honest code world) {start final : TaskSys Env Arg}
    {trace : List (TaskEvent Env Arg Change)} (fresh : start.Fresh)
    (run : Run (Step code world) start trace final) :
    ∃ held, Tracked final held ∧ ended trace = collected trace ++ held := by
  induction run with
  | refl =>
      refine ⟨[], .unused fresh.inactive fresh.notRunning ?_, rfl⟩
      rw [fresh.notWaiting]
      exact nofun
  | snoc _ next inductionHypothesis =>
      obtain ⟨held, tracked, same⟩ := inductionHypothesis
      obtain ⟨heldAfter, trackedAfter, moved⟩ := tracked.step honest next
      refine ⟨heldAfter, trackedAfter, ?_⟩
      unfold ended collected at same ⊢
      rw [List.flatMap_append, List.flatMap_append, List.flatMap_singleton,
        List.flatMap_singleton, same, List.append_assoc, List.append_assoc, moved]

/-- So it serves its owner. -/
theorem Honest.serves {code : TaskCode Env Arg Os} {world : World Env Arg Os Change}
    (honest : Honest code world) {start final : TaskSys Env Arg}
    {trace : List (TaskEvent Env Arg Change)} (fresh : start.Fresh)
    (run : Run (Step code world) start trace final) : Serves trace final := by
  obtain ⟨held, tracked, same⟩ := honest.tracked fresh run
  refine ⟨⟨held, same, ?_⟩, tracked.awaited⟩
  cases tracked <;> simp

end Ffos.Kqtask
