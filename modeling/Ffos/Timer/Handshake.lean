/-
Module: Ffos.Timer.Handshake
Purpose: What the two events of a Windows timer say in every reachable state: a command
  is with its owner, on its way, in execution or answered, and there is one at a time.
Trusted boundary: none
Main exports: issued, executed, answered, Handshake, Handshake.step, Handshaken,
  handshaken, commands_answered_in_order
-/
import Ffos.Timer.Thread

namespace Ffos.Timer

open Ffos.Lib

/-! ### What a run did -/

/-- The command that a step hands over to the timer thread. -/
def TimerEvent.issues : TimerEvent → Option Command
  | .setEvent cmd true => some cmd
  | _ => none

/-- The command that a step executes, with its result. -/
def TimerEvent.executes : TimerEvent → Option (Command × BitVec 32)
  | .execute cmd timerError => some (cmd, timerError.getD 0)
  | _ => none

/-- The command that a step returns from, with what `_fftimer_cmd` returns after a wait. -/
def TimerEvent.answers : TimerEvent → Option (Command × BitVec 32)
  | .answer cmd r => some (cmd, r)
  | _ => none

/-- The commands handed over in a run. -/
def issued (trace : List TimerEvent) : List Command := trace.filterMap TimerEvent.issues

/-- The commands executed in a run, with their results. -/
def executed (trace : List TimerEvent) : List (Command × BitVec 32) :=
  trace.filterMap TimerEvent.executes

/-- The commands returned from in a run, with what their callers got. -/
def answered (trace : List TimerEvent) : List (Command × BitVec 32) :=
  trace.filterMap TimerEvent.answers

theorem issued_append (past future : List TimerEvent) :
    issued (past ++ future) = issued past ++ issued future := List.filterMap_append

theorem executed_append (past future : List TimerEvent) :
    executed (past ++ future) = executed past ++ executed future := List.filterMap_append

theorem filterMap_snoc {Event Item : Type} (see : Event → Option Item) (past : List Event)
    (event : Event) :
    (past ++ [event]).filterMap see = past.filterMap see ++ (see event).toList := by
  rw [List.filterMap_append]
  cases seen : see event <;> simp [seen]

/-! ### Where the one command is -/

/-- The thread has no command: it waits, runs the timer function, or is gone. -/
def ThreadPosition.Resting : ThreadPosition → Prop
  | .waiting | .firing _ | .exited => True
  | _ => False

/-- The owner expects nothing from the thread, or has failed to reach it. -/
def ClientPosition.Quiet : ClientPosition → Prop
  | .awaiting _ | .awaited _ => False
  | _ => True

/-- The owner has handed over a command that is not executed. -/
def ClientPosition.Pending (cmd : Command) : ClientPosition → Prop
  | .awaiting sent => sent = cmd ∧ cmd ≠ .exit
  | .joining | .freed => cmd = .exit
  | _ => False

/-- The commands executed and not returned from, and those handed over and not
executed, in a state. There is one at most. -/
inductive Handshake (sys : TimerSys) : List (Command × BitVec 32) → List Command → Prop where
  | quiet (client : sys.client.Quiet)
      (ctl : ∀ cmd, sys.client = .signalling cmd → sys.tmr.ctl = cmd)
      (thread : sys.thread.Resting) (evt : sys.evt = false) (evtResult : sys.evtResult = false) :
      Handshake sys [] []
  | requested {cmd : Command} (client : sys.client.Pending cmd) (ctl : sys.tmr.ctl = cmd)
      (thread : sys.thread.Resting) (evt : sys.evt = true) (evtResult : sys.evtResult = false) :
      Handshake sys [] [cmd]
  | received {cmd : Command} (client : sys.client.Pending cmd) (ctl : sys.tmr.ctl = cmd)
      (thread : sys.thread = .woken) (evt : sys.evt = false) (evtResult : sys.evtResult = false) :
      Handshake sys [] [cmd]
  | commanded {cmd : Command} (client : sys.client.Pending cmd) (proper : cmd ≠ .exit)
      (thread : sys.thread = .commanded cmd) (evt : sys.evt = false)
      (evtResult : sys.evtResult = false) :
      Handshake sys [] [cmd]
  | ended (client : sys.client.Pending .exit) (thread : sys.thread = .exited)
      (evt : sys.evt = false) (evtResult : sys.evtResult = false) :
      Handshake sys [] [.exit]
  | executed {cmd : Command} {r : BitVec 32} (client : sys.client = .awaiting cmd)
      (thread : sys.thread = .executed r) (evt : sys.evt = false)
      (evtResult : sys.evtResult = false) :
      Handshake sys [(cmd, r)] []
  | stored {cmd : Command} {r : BitVec 32} (client : sys.client = .awaiting cmd)
      (thread : sys.thread = .stored) (result : sys.tmr.result = r) (evt : sys.evt = false)
      (evtResult : sys.evtResult = false) :
      Handshake sys [(cmd, r)] []
  | replied {cmd : Command} {r : BitVec 32} (client : sys.client = .awaiting cmd)
      (thread : sys.thread.Resting) (result : sys.tmr.result = r) (evt : sys.evt = false)
      (evtResult : sys.evtResult = true) :
      Handshake sys [(cmd, r)] []
  | taken {cmd : Command} {r : BitVec 32} (client : sys.client = .awaited cmd)
      (thread : sys.thread.Resting) (result : sys.tmr.result = r) (evt : sys.evt = false)
      (evtResult : sys.evtResult = false) :
      Handshake sys [(cmd, r)] []
  | lost {cmd : Command} {r : BitVec 32} (client : sys.client = .awaiting cmd)
      (thread : sys.thread.Resting) (evt : sys.evt = false) (evtResult : sys.evtResult = false) :
      Handshake sys [(cmd, r)] []

namespace Handshake

variable {sys : TimerSys} {unanswered : List (Command × BitVec 32)} {unexecuted : List Command}

theorem fresh : Handshake fftimerCreate [] [] :=
  .quiet trivial (fun _ signalling => nomatch signalling) trivial rfl rfl

/-- At most one command is under way. -/
theorem length_le (handshake : Handshake sys unanswered unexecuted) :
    unanswered.length + unexecuted.length ≤ 1 := by
  cases handshake <;> simp

/-- What depends on the owner, the thread at rest and the shared fields alone. -/
theorem rest {after : TimerSys} (handshake : Handshake sys unanswered unexecuted)
    (thread : sys.thread.Resting) (threadAfter : after.thread.Resting)
    (notEnded : after.thread = .exited ∨ sys.thread ≠ .exited)
    (tmr : after.tmr = sys.tmr) (client : after.client = sys.client)
    (evt : after.evt = sys.evt) (evtResult : after.evtResult = sys.evtResult) :
    Handshake after unanswered unexecuted := by
  cases handshake with
  | quiet quiet ctl _ evtOff resultOff =>
      exact .quiet (client ▸ quiet) (by simpa only [client, tmr] using ctl) threadAfter
        (evt.trans evtOff) (evtResult.trans resultOff)
  | requested pending ctl _ evtOn resultOff =>
      exact .requested (client ▸ pending) (tmr ▸ ctl) threadAfter (evt.trans evtOn)
        (evtResult.trans resultOff)
  | ended pending gone evtOff resultOff =>
      have goneAfter : after.thread = .exited := notEnded.resolve_right (not_not_intro gone)
      exact .ended (client ▸ pending) goneAfter (evt.trans evtOff) (evtResult.trans resultOff)
  | replied awaiting _ result evtOff resultOn =>
      exact .replied (client.trans awaiting) threadAfter (tmr ▸ result) (evt.trans evtOff)
        (evtResult.trans resultOn)
  | taken awaited _ result evtOff resultOff =>
      exact .taken (client.trans awaited) threadAfter (tmr ▸ result) (evt.trans evtOff)
        (evtResult.trans resultOff)
  | lost awaiting _ evtOff resultOff =>
      exact .lost (client.trans awaiting) threadAfter (evt.trans evtOff)
        (evtResult.trans resultOff)
  | received _ _ woken => rw [woken] at thread; cases thread
  | commanded _ _ commanded => rw [commanded] at thread; cases thread
  | executed _ executed => rw [executed] at thread; cases thread
  | stored _ stored => rw [stored] at thread; cases thread

/-- An owner outside `_fftimer_cmd`, or before its `SetEvent`, has left nothing behind. -/
theorem outside (handshake : Handshake sys unanswered unexecuted) (quiet : sys.client.Quiet)
    (notPending : ¬ sys.client.Pending .exit) :
    sys.thread.Resting ∧ sys.evt = false ∧ sys.evtResult = false ∧ unanswered = [] ∧
      unexecuted = [] ∧ ∀ cmd, sys.client = .signalling cmd → sys.tmr.ctl = cmd := by
  cases handshake with
  | quiet _ ctl thread evt evtResult => exact ⟨thread, evt, evtResult, rfl, rfl, ctl⟩
  | requested client | received client | commanded client =>
      cases position : sys.client <;>
        simp_all [ClientPosition.Quiet, ClientPosition.Pending]
  | ended client => exact absurd client notPending
  | executed client | stored client | replied client | taken client | lost client =>
      rw [client] at quiet
      cases quiet

/-- A command that is executed later is in the hands of the thread. -/
theorem of_woken (handshake : Handshake sys unanswered unexecuted)
    (position : sys.thread = .woken) :
    sys.client.Pending sys.tmr.ctl ∧ sys.evt = false ∧ sys.evtResult = false ∧
      unanswered = [] ∧ unexecuted = [sys.tmr.ctl] := by
  cases handshake with
  | received client ctl _ evt evtResult =>
      subst ctl
      exact ⟨client, evt, evtResult, rfl, rfl⟩
  | quiet _ _ thread | requested _ _ thread | commanded _ _ thread | ended _ thread
  | executed _ thread | stored _ thread | replied _ thread | taken _ thread | lost _ thread =>
      rw [position] at thread
      cases thread

theorem of_commanded {cmd : Command} (handshake : Handshake sys unanswered unexecuted)
    (position : sys.thread = .commanded cmd) :
    sys.client = .awaiting cmd ∧ cmd ≠ .exit ∧ sys.evt = false ∧ sys.evtResult = false ∧
      unanswered = [] ∧ unexecuted = [cmd] := by
  cases handshake with
  | commanded client proper thread evt evtResult =>
      rw [position] at thread
      cases thread
      refine ⟨?_, proper, evt, evtResult, rfl, rfl⟩
      cases at' : sys.client <;> simp_all [ClientPosition.Pending]
  | quiet _ _ thread | requested _ _ thread | received _ _ thread | ended _ thread
  | executed _ thread | stored _ thread | replied _ thread | taken _ thread | lost _ thread =>
      rw [position] at thread
      cases thread

theorem of_executed {r : BitVec 32} (handshake : Handshake sys unanswered unexecuted)
    (position : sys.thread = .executed r) :
    ∃ cmd, sys.client = .awaiting cmd ∧ sys.evt = false ∧ sys.evtResult = false ∧
      unanswered = [(cmd, r)] ∧ unexecuted = [] := by
  cases handshake with
  | executed client thread evt evtResult =>
      rw [position] at thread
      cases thread
      exact ⟨_, client, evt, evtResult, rfl, rfl⟩
  | quiet _ _ thread | requested _ _ thread | received _ _ thread | commanded _ _ thread
  | ended _ thread | stored _ thread | replied _ thread | taken _ thread | lost _ thread =>
      rw [position] at thread
      cases thread

theorem of_stored (handshake : Handshake sys unanswered unexecuted)
    (position : sys.thread = .stored) :
    ∃ cmd, sys.client = .awaiting cmd ∧ sys.evt = false ∧ sys.evtResult = false ∧
      unanswered = [(cmd, sys.tmr.result)] ∧ unexecuted = [] := by
  cases handshake with
  | stored client _ result evt evtResult =>
      exact ⟨_, client, evt, evtResult, by rw [result], rfl⟩
  | quiet _ _ thread | requested _ _ thread | received _ _ thread | commanded _ _ thread
  | ended _ thread | executed _ thread | replied _ thread | taken _ thread | lost _ thread =>
      rw [position] at thread
      cases thread

/-- The result of a command is there when its owner is told so. -/
theorem of_replied {cmd : Command} (handshake : Handshake sys unanswered unexecuted)
    (position : sys.client = .awaiting cmd) (signalled : sys.evtResult = true) :
    sys.thread.Resting ∧ sys.evt = false ∧ unanswered = [(cmd, sys.tmr.result)] ∧
      unexecuted = [] := by
  cases handshake with
  | replied client thread result evt =>
      rw [position] at client
      cases client
      exact ⟨thread, evt, by rw [result], rfl⟩
  | quiet client =>
      rw [position] at client
      cases client
  | taken client =>
      rw [position] at client
      cases client
  | requested _ _ _ _ off | received _ _ _ _ off | commanded _ _ _ _ off | ended _ _ _ off
  | executed _ _ _ off | stored _ _ _ _ off | lost _ _ _ off =>
      rw [signalled] at off
      cases off

theorem of_taken {cmd : Command} (handshake : Handshake sys unanswered unexecuted)
    (position : sys.client = .awaited cmd) :
    sys.thread.Resting ∧ sys.evt = false ∧ sys.evtResult = false ∧
      unanswered = [(cmd, sys.tmr.result)] ∧ unexecuted = [] := by
  cases handshake with
  | taken client thread result evt evtResult =>
      rw [position] at client
      cases client
      exact ⟨thread, evt, evtResult, by rw [result], rfl⟩
  | quiet client | requested client | received client | commanded client | ended client
  | executed client | stored client | replied client | lost client =>
      rw [position] at client
      cases client

/-- The event of the thread is set only for a command that is on its way. -/
theorem of_signalled (handshake : Handshake sys unanswered unexecuted)
    (signalled : sys.evt = true) :
    sys.client.Pending sys.tmr.ctl ∧ sys.thread.Resting ∧ sys.evtResult = false ∧
      unanswered = [] ∧ unexecuted = [sys.tmr.ctl] := by
  cases handshake with
  | requested client ctl thread _ evtResult =>
      subst ctl
      exact ⟨client, thread, evtResult, rfl, rfl⟩
  | quiet _ _ _ off | received _ _ _ off | commanded _ _ _ off | ended _ _ off
  | executed _ _ off | stored _ _ _ off | replied _ _ _ off | taken _ _ _ off | lost _ _ off =>
      rw [signalled] at off
      cases off

/-- Nor does it depend on the waitable timer. -/
theorem of_timer (handshake : Handshake sys unanswered unexecuted) (htmr : Option WaitableTimer)
    (apc : Bool) : Handshake { sys with htmr := htmr, apc := apc } unanswered unexecuted := by
  cases handshake with
  | quiet client ctl thread evt evtResult => exact .quiet client ctl thread evt evtResult
  | requested client ctl thread evt evtResult => exact .requested client ctl thread evt evtResult
  | received client ctl thread evt evtResult => exact .received client ctl thread evt evtResult
  | commanded client proper thread evt evtResult =>
      exact .commanded client proper thread evt evtResult
  | ended client thread evt evtResult => exact .ended client thread evt evtResult
  | executed client thread evt evtResult => exact .executed client thread evt evtResult
  | stored client thread result evt evtResult => exact .stored client thread result evt evtResult
  | replied client thread result evt evtResult => exact .replied client thread result evt evtResult
  | taken client thread result evt evtResult => exact .taken client thread result evt evtResult
  | lost client thread evt evtResult => exact .lost client thread evt evtResult

end Handshake

/-! ### One step -/

/-- What the switch of `_fftimer_thread` leaves. -/
theorem executeCommand_eq {cmd : Command} (proper : cmd ≠ .exit) (sys : TimerSys)
    (timerError : Option (BitVec 32)) :
    (sys.executeCommand cmd timerError).tmr = sys.tmr ∧
      (sys.executeCommand cmd timerError).client = sys.client ∧
      (sys.executeCommand cmd timerError).evt = sys.evt ∧
      (sys.executeCommand cmd timerError).evtResult = sys.evtResult ∧
      (sys.executeCommand cmd timerError).thread = .executed (timerError.getD 0) := by
  cases cmd with
  | exit => exact absurd rfl proper
  | start | stop => cases timerError <;> exact ⟨rfl, rfl, rfl, rfl, rfl⟩

/-- A step moves the command along: what was under way is what still is, and what the
step returned from, executed and handed over. -/
def Moved (event : TimerEvent) (unanswered : List (Command × BitVec 32))
    (unexecuted : List Command) (after : TimerSys) : Prop :=
  ∃ unansweredAfter unexecutedAfter, Handshake after unansweredAfter unexecutedAfter ∧
    event.answers.toList ++ unansweredAfter = unanswered ++ event.executes.toList ∧
    event.executes.toList.map Prod.fst ++ unexecutedAfter = unexecuted ++ event.issues.toList

/-- Steps that hand over, execute and return nothing. -/
theorem Moved.silent {event : TimerEvent} {after : TimerSys}
    {unanswered : List (Command × BitVec 32)} {unexecuted : List Command}
    (answers : event.answers = none) (executes : event.executes = none)
    (issues : event.issues = none) (handshake : Handshake after unanswered unexecuted) :
    Moved event unanswered unexecuted after := by
  refine ⟨unanswered, unexecuted, handshake, ?_, ?_⟩
  · simp [answers, executes]
  · simp [executes, issues]

/-- Every step keeps the handshake, unless the wait of the owner fails. -/
theorem Handshake.step {before after : TimerSys} {event : TimerEvent}
    {unanswered : List (Command × BitVec 32)} {unexecuted : List Command}
    (handshake : Handshake before unanswered unexecuted) (next : Step before event after)
    (waits : event ≠ .wait false) : Moved event unanswered unexecuted after := by
  cases next with
  | call request idle =>
      obtain ⟨thread, evt, evtResult, rfl, rfl, _⟩ :=
        handshake.outside (by rw [idle]; trivial) (by rw [idle]; exact id)
      apply Moved.silent rfl rfl rfl
      cases request <;>
        exact .quiet trivial (fun _ signalling => nomatch signalling) thread evt evtResult
  | storeKq position | storeData position | storePeriod position | refuse position =>
      obtain ⟨thread, evt, evtResult, rfl, rfl, _⟩ :=
        handshake.outside (by rw [position]; trivial) (by rw [position]; exact id)
      apply Moved.silent rfl rfl rfl
      exact .quiet trivial (fun _ signalling => nomatch signalling) thread evt evtResult
  | storeCtl position =>
      obtain ⟨thread, evt, evtResult, rfl, rfl, _⟩ :=
        handshake.outside (by rw [position]; trivial) (by rw [position]; exact id)
      apply Moved.silent rfl rfl rfl
      refine .quiet trivial ?_ thread evt evtResult
      intro cmd signalling
      exact ClientPosition.signalling.inj signalling
  | @setEvent cmd ok position =>
      obtain ⟨thread, evt, evtResult, rfl, rfl, ctl⟩ :=
        handshake.outside (by rw [position]; trivial) (by rw [position]; exact id)
      cases ok with
      | true =>
          refine ⟨[], [cmd], ?_, rfl, rfl⟩
          refine .requested ?_ (ctl cmd position) thread ?_ evtResult
          · cases cmd <;> simp [afterSetEvent, ClientPosition.Pending]
          · exact Bool.or_true _
      | false =>
          apply Moved.silent rfl rfl rfl
          refine .quiet ?_ ?_ thread (by rw [evt]; rfl) evtResult
          · cases cmd <;> trivial
          · intro other signalling
            cases cmd <;> cases signalling
  | wait position signalled =>
      obtain ⟨thread, evt, rfl, rfl⟩ := handshake.of_replied position signalled
      exact Moved.silent rfl rfl rfl (.taken rfl thread rfl evt rfl)
  | waitError => exact absurd rfl waits
  | answer position =>
      obtain ⟨thread, evt, evtResult, rfl, rfl⟩ := handshake.of_taken position
      refine ⟨[], [], ?_, rfl, rfl⟩
      exact .quiet trivial (fun _ signalling => nomatch signalling) thread evt evtResult
  | join position gone =>
      apply Moved.silent rfl rfl rfl
      cases handshake with
      | quiet client ctl thread evt evtResult =>
          exact .quiet trivial (fun _ signalling => nomatch signalling) thread evt evtResult
      | requested client ctl thread evt evtResult =>
          rw [position] at client
          exact .requested client ctl thread evt evtResult
      | ended client thread evt evtResult => exact .ended rfl thread evt evtResult
      | received _ _ thread | commanded _ _ thread =>
          rw [gone] at thread
          cases thread
      | executed client | stored client | replied client | taken client | lost client =>
          rw [position] at client
          cases client
  | wake position signalled =>
      obtain ⟨client, _, evtResult, rfl, rfl⟩ := handshake.of_signalled signalled
      exact Moved.silent rfl rfl rfl (.received client rfl rfl rfl evtResult)
  | readCtl position =>
      obtain ⟨client, evt, evtResult, rfl, rfl⟩ := handshake.of_woken position
      apply Moved.silent rfl rfl rfl
      by_cases exit : before.tmr.ctl = .exit
      · rw [exit] at client ⊢
        exact .ended client rfl evt evtResult
      · rw [if_neg exit]
        exact .commanded client exit rfl evt evtResult
  | @execute cmd timerError position =>
      obtain ⟨client, proper, evt, evtResult, rfl, rfl⟩ := handshake.of_commanded position
      obtain ⟨_, clientSame, evtSame, resultSame, thread⟩ :=
        executeCommand_eq proper before timerError
      refine ⟨[(cmd, timerError.getD 0)], [], ?_, rfl, rfl⟩
      exact .executed (clientSame.trans client) thread (evtSame.trans evt)
        (resultSame.trans evtResult)
  | storeResult position =>
      obtain ⟨cmd, client, evt, evtResult, rfl, rfl⟩ := handshake.of_executed position
      exact Moved.silent rfl rfl rfl (.stored client rfl rfl evt evtResult)
  | setEventResult ok position =>
      obtain ⟨cmd, client, evt, evtResult, rfl, rfl⟩ := handshake.of_stored position
      apply Moved.silent rfl rfl rfl
      cases ok with
      | true => exact .replied client trivial rfl evt (Bool.or_true _)
      | false => exact .lost client trivial evt (by rw [evtResult]; rfl)
  | waitFailed position =>
      apply Moved.silent rfl rfl rfl
      exact handshake.rest (by rw [position]; trivial) trivial (.inl rfl) rfl rfl rfl rfl
  | expire => exact Moved.silent rfl rfl rfl (handshake.of_timer _ _)
  | fire position =>
      apply Moved.silent rfl rfl rfl
      refine handshake.rest (by rw [position]; trivial) trivial (.inr ?_) rfl rfl rfl rfl
      rw [position]
      exact nofun
  | post position =>
      apply Moved.silent rfl rfl rfl
      refine handshake.rest (by rw [position]; trivial) trivial (.inr ?_) rfl rfl rfl rfl
      rw [position]
      exact nofun

/-! ### A whole run -/

/-- The commands of a run, where each of them is, and the handshake of the state. -/
structure Handshaken (trace : List TimerEvent) (sys : TimerSys)
    (unanswered : List (Command × BitVec 32)) (unexecuted : List Command) : Prop where
  handshake : Handshake sys unanswered unexecuted
  executed : executed trace = answered trace ++ unanswered
  issued : issued trace = (Timer.executed trace).map Prod.fst ++ unexecuted

/-- Every run in which the waits of the owner succeed is balanced. -/
theorem handshaken {trace : List TimerEvent} {sys : TimerSys}
    (run : Run Step fftimerCreate trace sys) (waits : .wait false ∉ trace) :
    ∃ unanswered unexecuted, Handshaken trace sys unanswered unexecuted := by
  induction run with
  | refl => exact ⟨[], [], .fresh, rfl, rfl⟩
  | @snoc past before event after _ next inductionHypothesis =>
      rw [List.mem_append, List.mem_singleton, not_or] at waits
      obtain ⟨unanswered, unexecuted, handshake, executedSame, issuedSame⟩ :=
        inductionHypothesis waits.1
      obtain ⟨unansweredAfter, unexecutedAfter, handshakeAfter, answers, executes⟩ :=
        handshake.step next (Ne.symm waits.2)
      refine ⟨unansweredAfter, unexecutedAfter, handshakeAfter, ?_, ?_⟩
      · unfold executed answered at executedSame ⊢
        rw [filterMap_snoc, filterMap_snoc, executedSame, List.append_assoc, ← answers,
          List.append_assoc]
      · unfold issued executed at issuedSame ⊢
        rw [filterMap_snoc, filterMap_snoc, issuedSame, List.map_append, List.append_assoc,
          ← executes, List.append_assoc]

/-- Whatever the two threads and the timer do in between, the thread executes exactly
the commands that were handed over, in their order, and a caller gets the result of its
own command: the commands executed are those returned from, with the same results, and
at most one that is still under way. -/
theorem commands_answered_in_order {trace : List TimerEvent} {sys : TimerSys}
    (run : Run Step fftimerCreate trace sys) (waits : .wait false ∉ trace) :
    ∃ unanswered unexecuted,
      executed trace = answered trace ++ unanswered ∧
      issued trace = (executed trace).map Prod.fst ++ unexecuted ∧
      unanswered.length + unexecuted.length ≤ 1 := by
  obtain ⟨unanswered, unexecuted, handshake, executedSame, issuedSame⟩ := handshaken run waits
  exact ⟨unanswered, unexecuted, executedSame, issuedSame, handshake.length_le⟩

/-- A timer that is started with the queue 5, the data 7 and 200 ms. -/
def startedTrace : List TimerEvent :=
  [.call (.start 5 7 200), .storeKq, .storeData, .storePeriod, .storeCtl, .setEvent .start true,
    .wake, .readCtl, .execute .start none, .storeResult, .setEventResult true, .wait true,
    .answer .start 0]

/-- A timer that is stopped. -/
def stoppedTrace : List TimerEvent :=
  [.call .stop, .storeCtl, .setEvent .stop true, .wake, .readCtl, .execute .stop none,
    .storeResult, .setEventResult true, .wait true, .answer .stop 0]

/-- A timer that is started and on its way to be stopped. -/
theorem commands_answered_start :
    ∃ sys, Run Step fftimerCreate (startedTrace ++ stoppedTrace.take 3) sys ∧
      ∃ unanswered unexecuted,
        executed (startedTrace ++ stoppedTrace.take 3) =
          answered (startedTrace ++ stoppedTrace.take 3) ++ unanswered ∧
        issued (startedTrace ++ stoppedTrace.take 3) =
          (executed (startedTrace ++ stoppedTrace.take 3)).map Prod.fst ++ unexecuted ∧
        unanswered.length + unexecuted.length ≤ 1 :=
  ⟨_, run_of_fireAll rfl, commands_answered_in_order (run_of_fireAll rfl) (by decide)⟩

end Ffos.Timer
