/-
Module: Ffos.Timer.Thread
Purpose: The timer of FFOS/timer.h on Windows as two threads: the one that calls
  `fftimer_start`, `fftimer_stop` and `fftimer_close`, and `_fftimer_thread`, which
  executes their commands and runs `_fftimer_onfire`. One step is one access to
  memory that both share, or one system call.
Trusted boundary: auto-reset events, waitable timers with their queued procedure, and
  the order of the accesses, which the fences of the source keep
Main exports: Request, ClientPosition, ThreadPosition, TimerSys, TimerEvent, Step,
  TimerSys.fire, run_of_fireAll
-/
import Ffos.Lib.Transition
import Ffos.Timer.Start

namespace Ffos.Timer

open Ffos.Lib

/-! ### The two threads -/

/-- A call of the timer by its owner. -/
inductive Request where
  | start (kq data : BitVec 64) (periodMs : BitVec 32)
  | stop
  | close
deriving DecidableEq, Repr

/-- Where the owner is. `storing…` are the three writes of `fftimer_start`;
`commanding` to `failed` are the points of `_fftimer_cmd`: before `ctl` is written,
before `SetEvent`, in `WaitForSingleObject`, before `result` is read, and before it
returns -1. -/
inductive ClientPosition where
  | idle
  | storingKq (kq data : BitVec 64) (periodMs : BitVec 32)
  | storingData (data : BitVec 64) (periodMs : BitVec 32)
  | storingPeriod (periodMs : BitVec 32)
  | commanding (cmd : Command)
  | signalling (cmd : Command)
  | awaiting (cmd : Command)
  | awaited (cmd : Command)
  | failed (cmd : Command)
  | joining
  | freed
deriving DecidableEq, Repr

/-- Where `_fftimer_thread` is: in `WaitForSingleObjectEx`, inside `_fftimer_onfire` with
`tmr->kq` read, before `ctl` is read, before the call on the timer, before `result` is
written, before `SetEvent`, or gone. -/
inductive ThreadPosition where
  | waiting
  | firing (kq : BitVec 64)
  | woken
  | commanded (cmd : Command)
  | executed (r : BitVec 32)
  | stored
  | exited
deriving DecidableEq, Repr

/-- `struct _fftimer`, its two events, the waitable timer with its queued procedure, and
the two threads. -/
structure TimerSys where
  tmr : Fftimer
  evt : Bool
  evtResult : Bool
  htmr : Option WaitableTimer
  apc : Bool
  thread : ThreadPosition
  client : ClientPosition
deriving DecidableEq, Repr

/-- What `fftimer_create` returns: a zeroed object, two events that are not set, a timer
that is not armed and a thread that waits. -/
def fftimerCreate : TimerSys where
  tmr := { kq := 0, data := 0, periodMs := 0, ctl := .exit, result := 0 }
  evt := false
  evtResult := false
  htmr := none
  apc := false
  thread := .waiting
  client := .idle

/-- A step, with what can be seen of it. -/
inductive TimerEvent where
  | call (request : Request)
  | storeKq
  | storeData
  | storePeriod
  | storeCtl
  | setEvent (cmd : Command) (ok : Bool)
  | wait (ok : Bool)
  | answer (cmd : Command) (r : BitVec 32)
  | refuse (cmd : Command)
  | join
  | wake
  | readCtl
  | execute (cmd : Command) (timerError : Option (BitVec 32))
  | storeResult
  | setEventResult (ok : Bool)
  | waitFailed
  | expire
  | fire
  | post (kq data : BitVec 64)
deriving DecidableEq, Repr

/-! ### Its steps -/

/-- The outcome of the call that `_fftimer_thread` makes. -/
def threadOutcome (timerError : Option (BitVec 32)) : WindowsOutcome where
  setEvent := true
  wait := true
  timerError := timerError

/-- What a call does to the waitable timer: arming and cancelling it also take back a
procedure that is queued. -/
def TimerSys.applyCall (sys : TimerSys) : Option TimerCall → TimerSys
  | some (.set timer) => { sys with htmr := some timer, apc := false }
  | some .cancel => { sys with htmr := none, apc := false }
  | none => sys

/-- The switch of `_fftimer_thread`. A call that fails leaves the timer as it was. -/
def TimerSys.executeCommand (sys : TimerSys) (cmd : Command) (timerError : Option (BitVec 32)) :
    TimerSys :=
  let (call, tmr) := fftimerThread (threadOutcome timerError) { sys.tmr with ctl := cmd }
  let applied := if timerError = none then sys.applyCall call else sys
  { applied with thread := .executed tmr.result }

/-- Where the owner goes after a call is entered. `fftimer_close` closes the timer
first. -/
def TimerSys.enter (sys : TimerSys) : Request → TimerSys
  | .start kq data periodMs => { sys with client := .storingKq kq data periodMs }
  | .stop => { sys with client := .commanding .stop }
  | .close => { sys with client := .commanding .exit, htmr := none, apc := false }

/-- Where `_fftimer_cmd` goes on after `SetEvent`. `fftimer_close` ignores its result. -/
def afterSetEvent (cmd : Command) (ok : Bool) : ClientPosition :=
  if cmd = .exit then .joining else if ok then .awaiting cmd else .failed cmd

/-- One step of the owner, of the timer thread, or of the waitable timer. -/
inductive Step : TimerSys → TimerEvent → TimerSys → Prop where
  | call {sys : TimerSys} (request : Request) (idle : sys.client = .idle) :
      Step sys (.call request) (sys.enter request)
  | storeKq {sys : TimerSys} {kq data : BitVec 64} {periodMs : BitVec 32}
      (position : sys.client = .storingKq kq data periodMs) :
      Step sys .storeKq
        { sys with tmr := { sys.tmr with kq := kq }, client := .storingData data periodMs }
  | storeData {sys : TimerSys} {data : BitVec 64} {periodMs : BitVec 32}
      (position : sys.client = .storingData data periodMs) :
      Step sys .storeData
        { sys with tmr := { sys.tmr with data := data }, client := .storingPeriod periodMs }
  | storePeriod {sys : TimerSys} {periodMs : BitVec 32}
      (position : sys.client = .storingPeriod periodMs) :
      Step sys .storePeriod
        { sys with tmr := { sys.tmr with periodMs := periodMs }, client := .commanding .start }
  | storeCtl {sys : TimerSys} {cmd : Command} (position : sys.client = .commanding cmd) :
      Step sys .storeCtl
        { sys with tmr := { sys.tmr with ctl := cmd }, client := .signalling cmd }
  | setEvent {sys : TimerSys} {cmd : Command} (ok : Bool)
      (position : sys.client = .signalling cmd) :
      Step sys (.setEvent cmd ok)
        { sys with evt := sys.evt || ok, client := afterSetEvent cmd ok }
  | wait {sys : TimerSys} {cmd : Command} (position : sys.client = .awaiting cmd)
      (signalled : sys.evtResult = true) :
      Step sys (.wait true) { sys with evtResult := false, client := .awaited cmd }
  | waitError {sys : TimerSys} {cmd : Command} (position : sys.client = .awaiting cmd) :
      Step sys (.wait false) { sys with client := .failed cmd }
  | answer {sys : TimerSys} {cmd : Command} (position : sys.client = .awaited cmd) :
      Step sys (.answer cmd sys.tmr.result) { sys with client := .idle }
  | refuse {sys : TimerSys} {cmd : Command} (position : sys.client = .failed cmd) :
      Step sys (.refuse cmd) { sys with client := .idle }
  | join {sys : TimerSys} (position : sys.client = .joining) (gone : sys.thread = .exited) :
      Step sys .join { sys with client := .freed }
  | wake {sys : TimerSys} (position : sys.thread = .waiting) (signalled : sys.evt = true) :
      Step sys .wake { sys with evt := false, thread := .woken }
  | readCtl {sys : TimerSys} (position : sys.thread = .woken) :
      Step sys .readCtl
        { sys with thread := if sys.tmr.ctl = .exit then .exited else .commanded sys.tmr.ctl }
  | execute {sys : TimerSys} {cmd : Command} (timerError : Option (BitVec 32))
      (position : sys.thread = .commanded cmd) (code : timerError ≠ some 0) :
      Step sys (.execute cmd timerError) (sys.executeCommand cmd timerError)
  | storeResult {sys : TimerSys} {r : BitVec 32} (position : sys.thread = .executed r) :
      Step sys .storeResult
        { sys with tmr := { sys.tmr with result := r }, thread := .stored }
  | setEventResult {sys : TimerSys} (ok : Bool) (position : sys.thread = .stored) :
      Step sys (.setEventResult ok)
        { sys with evtResult := sys.evtResult || ok, thread := .waiting }
  | waitFailed {sys : TimerSys} (position : sys.thread = .waiting) :
      Step sys .waitFailed { sys with thread := .exited }
  | expire {sys : TimerSys} {timer : WaitableTimer} (armed : sys.htmr = some timer) :
      Step sys .expire
        { sys with htmr := if timer.periodMs = 0 then none else some timer, apc := true }
  | fire {sys : TimerSys} (position : sys.thread = .waiting) (queued : sys.apc = true) :
      Step sys .fire { sys with apc := false, thread := .firing sys.tmr.kq }
  | post {sys : TimerSys} {kq : BitVec 64} (position : sys.thread = .firing kq) :
      Step sys (.post kq sys.tmr.data) { sys with thread := .waiting }

/-- The state after an event, if the event can happen. -/
def TimerSys.fire (sys : TimerSys) : TimerEvent → Option TimerSys
  | .call request => if sys.client = .idle then some (sys.enter request) else none
  | .storeKq =>
      match sys.client with
      | .storingKq kq data periodMs =>
          some { sys with tmr := { sys.tmr with kq := kq }, client := .storingData data periodMs }
      | _ => none
  | .storeData =>
      match sys.client with
      | .storingData data periodMs =>
          some { sys with tmr := { sys.tmr with data := data }, client := .storingPeriod periodMs }
      | _ => none
  | .storePeriod =>
      match sys.client with
      | .storingPeriod periodMs =>
          some { sys with
            tmr := { sys.tmr with periodMs := periodMs }, client := .commanding .start }
      | _ => none
  | .storeCtl =>
      match sys.client with
      | .commanding cmd =>
          some { sys with tmr := { sys.tmr with ctl := cmd }, client := .signalling cmd }
      | _ => none
  | .setEvent cmd ok =>
      if sys.client = .signalling cmd then
        some { sys with evt := sys.evt || ok, client := afterSetEvent cmd ok }
      else none
  | .wait ok =>
      match sys.client with
      | .awaiting cmd =>
          if ok then
            if sys.evtResult then some { sys with evtResult := false, client := .awaited cmd }
            else none
          else some { sys with client := .failed cmd }
      | _ => none
  | .answer cmd r =>
      if sys.client = .awaited cmd ∧ sys.tmr.result = r then some { sys with client := .idle }
      else none
  | .refuse cmd =>
      if sys.client = .failed cmd then some { sys with client := .idle } else none
  | .join =>
      if sys.client = .joining ∧ sys.thread = .exited then some { sys with client := .freed }
      else none
  | .wake =>
      if sys.thread = .waiting ∧ sys.evt = true then
        some { sys with evt := false, thread := .woken }
      else none
  | .readCtl =>
      if sys.thread = .woken then
        some { sys with
          thread := if sys.tmr.ctl = .exit then .exited else .commanded sys.tmr.ctl }
      else none
  | .execute cmd timerError =>
      if sys.thread = .commanded cmd ∧ timerError ≠ some 0 then
        some (sys.executeCommand cmd timerError)
      else none
  | .storeResult =>
      match sys.thread with
      | .executed r => some { sys with tmr := { sys.tmr with result := r }, thread := .stored }
      | _ => none
  | .setEventResult ok =>
      if sys.thread = .stored then
        some { sys with evtResult := sys.evtResult || ok, thread := .waiting }
      else none
  | .waitFailed =>
      if sys.thread = .waiting then some { sys with thread := .exited } else none
  | .expire =>
      match sys.htmr with
      | some timer =>
          some { sys with htmr := if timer.periodMs = 0 then none else some timer, apc := true }
      | none => none
  | .fire =>
      if sys.thread = .waiting ∧ sys.apc = true then
        some { sys with apc := false, thread := .firing sys.tmr.kq }
      else none
  | .post kq data =>
      if sys.thread = .firing kq ∧ sys.tmr.data = data then
        some { sys with thread := .waiting }
      else none

/-- The function makes only steps of the relation. -/
theorem step_of_fire {sys after : TimerSys} {event : TimerEvent}
    (fired : sys.fire event = some after) : Step sys event after := by
  cases event with
  | call request =>
      obtain ⟨idle, rfl⟩ := by simpa only [TimerSys.fire, Option.ite_none_right_eq_some,
        Option.some.injEq] using fired
      exact .call request idle
  | storeKq =>
      simp only [TimerSys.fire] at fired
      split at fired <;> cases fired
      exact .storeKq ‹_›
  | storeData =>
      simp only [TimerSys.fire] at fired
      split at fired <;> cases fired
      exact .storeData ‹_›
  | storePeriod =>
      simp only [TimerSys.fire] at fired
      split at fired <;> cases fired
      exact .storePeriod ‹_›
  | storeCtl =>
      simp only [TimerSys.fire] at fired
      split at fired <;> cases fired
      exact .storeCtl ‹_›
  | setEvent cmd ok =>
      obtain ⟨position, rfl⟩ := by simpa only [TimerSys.fire, Option.ite_none_right_eq_some,
        Option.some.injEq] using fired
      exact .setEvent ok position
  | wait ok =>
      simp only [TimerSys.fire] at fired
      split at fired
      · cases ok with
        | true =>
            obtain ⟨signalled, rfl⟩ := by simpa using fired
            exact .wait ‹_› signalled
        | false =>
            obtain rfl := by simpa using fired
            exact .waitError ‹_›
      · cases fired
  | answer cmd r =>
      obtain ⟨⟨position, rfl⟩, rfl⟩ := by simpa only [TimerSys.fire,
        Option.ite_none_right_eq_some, Option.some.injEq] using fired
      exact .answer position
  | refuse cmd =>
      obtain ⟨position, rfl⟩ := by simpa only [TimerSys.fire, Option.ite_none_right_eq_some,
        Option.some.injEq] using fired
      exact .refuse position
  | join =>
      obtain ⟨⟨position, gone⟩, rfl⟩ := by simpa only [TimerSys.fire,
        Option.ite_none_right_eq_some, Option.some.injEq] using fired
      exact .join position gone
  | wake =>
      obtain ⟨⟨position, signalled⟩, rfl⟩ := by simpa only [TimerSys.fire,
        Option.ite_none_right_eq_some, Option.some.injEq] using fired
      exact .wake position signalled
  | readCtl =>
      obtain ⟨position, rfl⟩ := by simpa only [TimerSys.fire, Option.ite_none_right_eq_some,
        Option.some.injEq] using fired
      exact .readCtl position
  | execute cmd timerError =>
      obtain ⟨⟨position, code⟩, rfl⟩ := by simpa only [TimerSys.fire,
        Option.ite_none_right_eq_some, Option.some.injEq] using fired
      exact .execute timerError position code
  | storeResult =>
      simp only [TimerSys.fire] at fired
      split at fired <;> cases fired
      exact .storeResult ‹_›
  | setEventResult ok =>
      obtain ⟨position, rfl⟩ := by simpa only [TimerSys.fire, Option.ite_none_right_eq_some,
        Option.some.injEq] using fired
      exact .setEventResult ok position
  | waitFailed =>
      obtain ⟨position, rfl⟩ := by simpa only [TimerSys.fire, Option.ite_none_right_eq_some,
        Option.some.injEq] using fired
      exact .waitFailed position
  | expire =>
      simp only [TimerSys.fire] at fired
      split at fired <;> cases fired
      exact .expire ‹_›
  | fire =>
      obtain ⟨⟨position, queued⟩, rfl⟩ := by simpa only [TimerSys.fire,
        Option.ite_none_right_eq_some, Option.some.injEq] using fired
      exact .fire position queued
  | post kq data =>
      obtain ⟨⟨position, rfl⟩, rfl⟩ := by simpa only [TimerSys.fire,
        Option.ite_none_right_eq_some, Option.some.injEq] using fired
      exact .post position

/-- A trace that the function runs through is a run. -/
theorem run_of_fireAll {start final : TimerSys} {trace : List TimerEvent}
    (fired : fireAll TimerSys.fire start trace = some final) : Run Step start trace final :=
  .of_fireAll (fun _ _ _ => step_of_fire) fired

end Ffos.Timer
