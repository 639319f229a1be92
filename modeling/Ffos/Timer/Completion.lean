/-
Module: Ffos.Timer.Completion
Purpose: A call of a Windows timer returns: while the system calls succeed there is
  always a next step, and each step leaves fewer of them to do.
Trusted boundary: none
Main exports: TimerEvent.Fails, Attended, attended, TimerSys.left, Step.left_lt,
  left_bound, call_completes
-/
import Ffos.Timer.Handshake

namespace Ffos.Timer

open Ffos.Lib

/-- A system call that fails. An error of the timer itself is a result like any other. -/
def TimerEvent.Fails : TimerEvent → Prop
  | .setEvent _ ok | .wait ok | .setEventResult ok => ok = false
  | .waitFailed => True
  | _ => False

instance (event : TimerEvent) : Decidable event.Fails :=
  match event with
  | .setEvent _ ok | .wait ok | .setEventResult ok => inferInstanceAs (Decidable (ok = false))
  | .waitFailed => isTrue trivial
  | .call _ | .storeKq | .storeData | .storePeriod | .storeCtl | .answer _ _ | .refuse _ | .join
  | .wake | .readCtl | .execute _ _ | .storeResult | .expire | .fire | .post _ _ => isFalse id

/-- A step inside a call: neither a new call nor an expiry of the timer. -/
def TimerEvent.Inside : TimerEvent → Prop
  | .call _ | .expire => False
  | _ => True

/-! ### Nobody is left waiting -/

/-- Where the owner waits for the thread, the thread has work, or the owner is told. -/
structure Attended (sys : TimerSys) : Prop where
  awaiting : ∀ cmd, sys.client = .awaiting cmd → sys.thread.Resting →
    sys.evt = true ∨ sys.evtResult = true
  joining : sys.client = .joining → sys.thread.Resting → sys.evt = true ∨ sys.thread = .exited
  exited : sys.thread = .exited → sys.client.Pending .exit

/-- The owner waits for the thread: for an answer, or for its end. -/
def ClientPosition.Waiting : ClientPosition → Prop
  | .awaiting _ | .joining => True
  | _ => False

/-- An owner that waits for nothing is attended to while the thread is there. -/
theorem Attended.of_quiet {sys : TimerSys} (quiet : ¬ sys.client.Waiting)
    (there : sys.thread ≠ .exited) : Attended sys := by
  refine ⟨?_, ?_, fun gone => absurd gone there⟩
  · intro cmd position
    rw [position] at quiet
    exact absurd trivial quiet
  · intro position
    rw [position] at quiet
    exact absurd trivial quiet

/-- So is everybody while the thread has a command in its hands. -/
theorem Attended.of_busy {sys : TimerSys} (busy : ¬ sys.thread.Resting) : Attended sys := by
  refine ⟨fun _ _ resting => absurd resting busy, fun _ resting => absurd resting busy, ?_⟩
  intro gone
  rw [gone] at busy
  exact absurd trivial busy

theorem Attended.there {sys : TimerSys} (attended : Attended sys)
    (outside : ¬ sys.client.Pending .exit) : sys.thread ≠ .exited :=
  fun gone => outside (attended.exited gone)

/-- Every step that succeeds leaves everybody attended to. -/
theorem Attended.step {before after : TimerSys} {event : TimerEvent}
    {unanswered : List (Command × BitVec 32)} {unexecuted : List Command}
    (attended : Attended before) (handshake : Handshake before unanswered unexecuted)
    (next : Step before event after) (works : ¬ event.Fails) : Attended after := by
  cases next with
  | call request idle =>
      have there := attended.there (by rw [idle]; exact id)
      cases request <;> exact .of_quiet id there
  | storeKq position | storeData position | storePeriod position | storeCtl position
  | answer position | refuse position =>
      have there := attended.there (by rw [position]; exact id)
      exact .of_quiet id there
  | @setEvent cmd ok position =>
      have there := attended.there (by rw [position]; exact id)
      obtain rfl : ok = true := by simpa [TimerEvent.Fails] using works
      have signalled : (before.evt || true) = true := Bool.or_true _
      exact ⟨fun _ _ _ => .inl signalled, fun _ _ => .inl signalled,
        fun gone => absurd gone there⟩
  | wait position =>
      have there := attended.there (by rw [position]; simp [ClientPosition.Pending])
      exact .of_quiet id there
  | waitError => exact absurd rfl works
  | join _ gone => exact ⟨by simp, by simp, fun _ => rfl⟩
  | wake | storeResult => exact .of_busy id
  | readCtl position =>
      obtain ⟨pending, _⟩ := handshake.of_woken position
      by_cases exit : before.tmr.ctl = .exit
      · rw [exit] at pending
        refine ⟨?_, fun _ _ => .inr (if_pos exit), fun _ => pending⟩
        intro cmd position
        rw [show before.client = .awaiting cmd from position] at pending
        exact absurd rfl pending.2
      · apply Attended.of_busy
        simp only [if_neg exit]
        exact id
  | @execute cmd timerError position =>
      obtain ⟨_, proper, _⟩ := handshake.of_commanded position
      obtain ⟨_, _, _, _, thread⟩ := executeCommand_eq proper before timerError
      apply Attended.of_busy
      rw [thread]
      exact id
  | setEventResult ok position =>
      obtain ⟨cmd, client, _⟩ := handshake.of_stored position
      obtain rfl : ok = true := by simpa [TimerEvent.Fails] using works
      refine ⟨fun _ _ _ => .inr (Bool.or_true _), ?_, by simp⟩
      intro joining
      rw [show before.client = .joining from joining] at client
      cases client
  | waitFailed => exact absurd trivial works
  | expire => exact ⟨attended.awaiting, attended.joining, attended.exited⟩
  | fire position | post position =>
      have resting : before.thread.Resting := by rw [position]; trivial
      have there : before.thread ≠ .exited := by rw [position]; simp
      refine ⟨fun cmd awaiting _ => attended.awaiting cmd awaiting resting, ?_, by simp⟩
      exact fun joining _ => .inl ((attended.joining joining resting).resolve_right there)

/-- Everybody is attended to as long as the system calls succeed. -/
theorem attended {trace : List TimerEvent} {sys : TimerSys}
    (run : Run Step fftimerCreate trace sys) (works : ∀ event ∈ trace, ¬ event.Fails) :
    Attended sys := by
  induction run with
  | refl => exact .of_quiet id nofun
  | @snoc past before event after earlier next inductionHypothesis =>
      have worksBefore : ∀ event ∈ past, ¬ event.Fails :=
        fun event member => works event (List.mem_append_left _ member)
      have waits : .wait false ∉ past := fun member => worksBefore _ member rfl
      obtain ⟨_, _, handshake, _, _⟩ := handshaken earlier waits
      exact (inductionHypothesis worksBefore).step handshake next
        (works event (List.mem_append_right _ (List.mem_singleton.mpr rfl)))

/-! ### What is left to do -/

/-- The steps of the owner that are left. -/
def ClientPosition.left : ClientPosition → Nat
  | .idle | .freed => 0
  | .storingKq .. => 12
  | .storingData .. => 11
  | .storingPeriod .. => 10
  | .commanding _ => 9
  | .signalling _ => 8
  | .awaiting _ => 2
  | .awaited _ | .failed _ | .joining => 1

/-- The steps of the thread that are left for a command it has, or is told of. -/
def ThreadPosition.left (evt : Bool) : ThreadPosition → Nat
  | .waiting | .exited => if evt then 5 else 0
  | .firing _ => (if evt then 5 else 0) + 1
  | .woken => 4
  | .commanded _ => 3
  | .executed _ => 2
  | .stored => 1

/-- The steps that are left in a state, those of a procedure that is queued included. -/
def TimerSys.left (sys : TimerSys) : Nat :=
  sys.client.left + sys.thread.left sys.evt + if sys.apc then 2 else 0

/-- A wake-up of the thread is five steps of it at most. -/
theorem ThreadPosition.left_le (position : ThreadPosition) (evt ok : Bool) :
    position.left (evt || ok) ≤ position.left evt + 5 := by
  cases position <;> cases evt <;> cases ok <;> simp [ThreadPosition.left]

/-- A command that is executed leaves less to do. -/
theorem executeCommand_left {cmd : Command} (proper : cmd ≠ .exit) (sys : TimerSys)
    (timerError : Option (BitVec 32)) (position : sys.thread = .commanded cmd) :
    (sys.executeCommand cmd timerError).left < sys.left := by
  obtain ⟨_, client, _, _, thread⟩ := executeCommand_eq proper sys timerError
  have apc : (if (sys.executeCommand cmd timerError).apc then 2 else 0) ≤
      if sys.apc then 2 else 0 := by
    cases cmd <;> cases timerError <;> first | exact Nat.zero_le _ | exact Nat.le_refl _
  simp only [TimerSys.left, client, thread, position, ThreadPosition.left]
  omega

/-- A step inside a call leaves less to do. -/
theorem Handshake.left_lt {before after : TimerSys} {event : TimerEvent}
    {unanswered : List (Command × BitVec 32)} {unexecuted : List Command}
    (handshake : Handshake before unanswered unexecuted) (next : Step before event after)
    (inside : event.Inside) (works : ¬ event.Fails) : after.left < before.left := by
  cases next with
  | call | expire => exact inside.elim
  | storeKq position | storeData position | storePeriod position | storeCtl position
  | wait position | answer position | refuse position | join position =>
      simp only [TimerSys.left, position, ClientPosition.left]
      omega
  | @setEvent cmd ok position =>
      have more := before.thread.left_le before.evt ok
      have few : (afterSetEvent cmd ok).left ≤ 2 := by
        cases cmd <;> cases ok <;> decide
      have eight : before.client.left = 8 := by rw [position]; rfl
      simp only [TimerSys.left, eight]
      omega
  | waitError => exact absurd rfl works
  | wake position signalled =>
      simp only [TimerSys.left, position, signalled, ThreadPosition.left, if_true]
      omega
  | readCtl position =>
      obtain ⟨_, evt, _⟩ := handshake.of_woken position
      simp only [TimerSys.left, position, evt]
      split <;> simp [ThreadPosition.left]
  | @execute cmd timerError position =>
      obtain ⟨_, proper, _⟩ := handshake.of_commanded position
      exact executeCommand_left proper before timerError position
  | storeResult position =>
      simp only [TimerSys.left, position, ThreadPosition.left]
      omega
  | setEventResult ok position =>
      obtain ⟨_, _, evt, _⟩ := handshake.of_stored position
      simp only [TimerSys.left, position, evt, ThreadPosition.left]
      simp
  | waitFailed => exact absurd trivial works
  | fire position queued =>
      simp only [TimerSys.left, position, queued, ThreadPosition.left, if_true]
      simp only [Bool.false_eq_true, if_false]
      omega
  | post position =>
      simp only [TimerSys.left, position, ThreadPosition.left]
      omega

/-- An expiry of the timer adds the two steps of its procedure at most. -/
theorem Step.left_expire {before after : TimerSys} (next : Step before .expire after) :
    after.left ≤ before.left + 2 := by
  cases next with
  | expire =>
      simp only [TimerSys.left, if_true]
      omega

/-- While an owner or the thread has something to do, one of them can do it. -/
theorem Attended.exists_step {sys : TimerSys} (attended : Attended sys)
    (busy : sys.client ≠ .idle ∧ sys.client ≠ .freed) :
    ∃ event after, Step sys event after ∧ event.Inside ∧ ¬ event.Fails := by
  -- A thread that is not at rest can go on; one that runs the timer function, too.
  cases thread : sys.thread with
  | woken => exact ⟨_, _, .readCtl thread, trivial, id⟩
  | commanded cmd => exact ⟨_, _, .execute none thread nofun, trivial, id⟩
  | executed r => exact ⟨_, _, .storeResult thread, trivial, id⟩
  | stored => exact ⟨_, _, .setEventResult true thread, trivial, nofun⟩
  | firing kq => exact ⟨_, _, .post thread, trivial, id⟩
  | waiting | exited =>
      have resting : sys.thread.Resting := by rw [thread]; trivial
      cases client : sys.client with
      | idle => exact absurd client busy.1
      | freed => exact absurd client busy.2
      | storingKq kq data periodMs => exact ⟨_, _, .storeKq client, trivial, id⟩
      | storingData data periodMs => exact ⟨_, _, .storeData client, trivial, id⟩
      | storingPeriod periodMs => exact ⟨_, _, .storePeriod client, trivial, id⟩
      | commanding cmd => exact ⟨_, _, .storeCtl client, trivial, id⟩
      | signalling cmd => exact ⟨_, _, .setEvent true client, trivial, nofun⟩
      | awaited cmd => exact ⟨_, _, .answer client, trivial, id⟩
      | failed cmd => exact ⟨_, _, .refuse client, trivial, id⟩
      | awaiting cmd =>
          rcases attended.awaiting cmd client resting with evt | evtResult
          · first
            | exact ⟨_, _, .wake thread evt, trivial, id⟩
            | have pending := attended.exited thread
              rw [client] at pending
              exact absurd rfl pending.2
          · exact ⟨_, _, .wait client evtResult, trivial, nofun⟩
      | joining =>
          first
          | exact ⟨_, _, .join client thread, trivial, id⟩
          | have evt := (attended.joining client resting).resolve_right (by rw [thread]; exact nofun)
            exact ⟨_, _, .wake thread evt, trivial, id⟩

theorem TimerSys.left_le (sys : TimerSys) : sys.left ≤ 20 := by
  have client : sys.client.left ≤ 12 := by cases sys.client <;> simp [ClientPosition.left]
  have thread : sys.thread.left sys.evt ≤ 6 := by
    cases sys.thread <;> cases sys.evt <;> simp [ThreadPosition.left]
  have apc : (if sys.apc then 2 else 0) ≤ 2 := by split <;> omega
  unfold TimerSys.left
  omega

/-- As long as no new call is entered, the steps taken are paid for by what was left and
by the expiries of the timer. -/
theorem left_bound {past future : List TimerEvent} {sys final : TimerSys}
    (run : Run Step fftimerCreate past sys) (waits : .wait false ∉ past)
    (onward : Run Step sys future final) (works : ∀ event ∈ future, ¬ event.Fails)
    (noCall : ∀ request, .call request ∉ future) :
    future.length + final.left ≤ sys.left + 3 * future.count .expire := by
  induction onward with
  | refl => simp
  | @snoc before middle event after earlier next inductionHypothesis =>
      have worksBefore : ∀ event ∈ before, ¬ event.Fails :=
        fun event member => works event (List.mem_append_left _ member)
      have bound := inductionHypothesis worksBefore
        fun request member => noCall request (List.mem_append_left _ member)
      have eventMem : event ∈ before ++ [event] :=
        List.mem_append_right _ (List.mem_singleton.mpr rfl)
      have waitsBefore : .wait false ∉ past ++ before := by
        rw [List.mem_append]
        rintro (member | member)
        · exact waits member
        · exact worksBefore _ member rfl
      obtain ⟨_, _, handshake, _, _⟩ := handshaken (run.append earlier) waitsBefore
      rw [List.length_append, List.count_append, List.length_singleton]
      by_cases expire : event = .expire
      · subst expire
        have more := next.left_expire
        rw [List.count_singleton_self]
        omega
      · have inside : event.Inside := by
          cases event with
          | call request => exact absurd eventMem (noCall request)
          | expire => exact absurd rfl expire
          | _ => trivial
        have less := handshake.left_lt next inside (works event eventMem)
        omega

/-- A call that a state is in has a step to take, and no more than 20 steps, with three
more for each time the timer expires, can be taken before the next call. -/
structure Completes (sys : TimerSys) : Prop where
  enabled : sys.client ≠ .idle ∧ sys.client ≠ .freed →
    ∃ event after, Step sys event after ∧ event.Inside ∧ ¬ event.Fails
  bounded : ∀ future final, Run Step sys future final → (∀ event ∈ future, ¬ event.Fails) →
    (∀ request, .call request ∉ future) → future.length ≤ 20 + 3 * future.count .expire

/-- While the system calls succeed, no call gets stuck, and none goes on for ever. -/
theorem call_completes {past : List TimerEvent} {sys : TimerSys}
    (run : Run Step fftimerCreate past sys) (works : ∀ event ∈ past, ¬ event.Fails) :
    Completes sys := by
  have waits : .wait false ∉ past := fun member => works _ member rfl
  constructor
  · exact (attended run works).exists_step
  · intro future final onward futureWorks noCall
    have bound := left_bound run waits onward futureWorks noCall
    have left := sys.left_le
    omega

/-- A timer whose thread has just been woken up. -/
theorem call_completes_woken :
    ∃ sys, Run Step fftimerCreate (startedTrace.take 7) sys ∧ Completes sys :=
  ⟨_, run_of_fireAll rfl,
    @call_completes (startedTrace.take 7) _ (run_of_fireAll rfl) (by decide)⟩

end Ffos.Timer
