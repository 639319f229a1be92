/-
Module: Ffos.Timer.Posts
Purpose: Which events a Windows timer posts to the kernel queue: none once
  `fftimer_stop` has returned 0, and none with a queue or data that are not those of the
  last `fftimer_start` or of one that is not answered yet.
Trusted boundary: none
Main exports: armed, Disarmed, disarmed, no_post_after_stop, recent, post_of_recent_start
-/
import Ffos.Timer.Handshake
import Mathlib.Data.List.Induction

namespace Ffos.Timer

open Ffos.Lib

/-! ### Stopped -/

/-- Whether the timer is armed after a command with a result. -/
def armedAfter : Bool → Command × BitVec 32 → Bool
  | before, (cmd, r) =>
      if r ≠ 0 then before
      else match cmd with
        | .start => true
        | .stop => false
        | .exit => before

theorem armedAfter_of_error {before : Bool} {cmd : Command} {error : BitVec 32}
    (failed : error ≠ 0) : armedAfter before (cmd, (some error).getD 0) = before := if_pos failed

/-- Whether the commands executed in a run leave the timer armed. -/
def armed (trace : List TimerEvent) : Bool := (executed trace).foldl armedAfter false

theorem armed_append (past future : List TimerEvent) :
    armed (past ++ future) = (executed future).foldl armedAfter (armed past) := by
  unfold armed
  rw [executed_append, List.foldl_append]

theorem armed_snoc (past : List TimerEvent) (event : TimerEvent) :
    armed (past ++ [event]) = event.executes.toList.foldl armedAfter (armed past) := by
  unfold armed executed
  rw [filterMap_snoc, List.foldl_append]

/-- Nothing can fire. -/
structure Disarmed (sys : TimerSys) : Prop where
  htmr : sys.htmr = none
  apc : sys.apc = false
  notFiring : ∀ kq, sys.thread ≠ .firing kq

/-- A command that is executed disarms the timer or leaves it as it was, unless it arms
it. -/
theorem Disarmed.execute {sys : TimerSys} {cmd : Command} {timerError : Option (BitVec 32)}
    (code : timerError ≠ some 0) (position : sys.thread = .commanded cmd)
    (proper : cmd ≠ .exit) (before : Bool) (earlier : before = false → Disarmed sys)
    (off : armedAfter before (cmd, timerError.getD 0) = false) :
    Disarmed (sys.executeCommand cmd timerError) := by
  obtain ⟨_, _, _, _, thread⟩ := executeCommand_eq proper sys timerError
  have notFiring : ∀ kq, (sys.executeCommand cmd timerError).thread ≠ .firing kq := by
    rw [thread]
    exact fun _ => nofun
  cases timerError with
  | none =>
      cases cmd with
      | start => simp [armedAfter] at off
      | stop => exact ⟨rfl, rfl, notFiring⟩
      | exit => exact absurd rfl proper
  | some error =>
      have failed : error ≠ 0 := fun zero => code (congrArg some zero)
      have kept : before = false := by rwa [armedAfter_of_error failed] at off
      obtain ⟨htmr, apc, _⟩ := earlier kept
      cases cmd with
      | start | stop => exact ⟨htmr, apc, notFiring⟩
      | exit => exact absurd rfl proper

/-- A thread has no command to exit in its hands. -/
theorem commanded_proper {trace : List TimerEvent} {sys : TimerSys}
    (run : Run Step fftimerCreate trace sys) : sys.thread ≠ .commanded .exit := by
  apply run.invariant (fun sys => sys.thread ≠ .commanded .exit) (by decide)
  intro before event after kept next
  cases next with
  | readCtl position =>
      by_cases exit : before.tmr.ctl = .exit
      · simp only [if_pos exit]
        exact nofun
      · simp only [if_neg exit]
        exact fun same => exit (ThreadPosition.commanded.inj same)
  | @execute cmd timerError position =>
      have proper : cmd ≠ .exit := fun exit => kept (exit ▸ position)
      obtain ⟨_, _, _, _, thread⟩ := executeCommand_eq proper before timerError
      rw [thread]
      exact nofun
  | call request => cases request <;> exact kept
  | storeKq | storeData | storePeriod | storeCtl | setEvent | wait | waitError | answer
  | refuse | join | expire => exact kept
  | wake | storeResult | setEventResult | waitFailed | fire | post => exact nofun

/-- Between the commands that arm it, the timer does nothing. -/
theorem disarmed {trace : List TimerEvent} {sys : TimerSys}
    (run : Run Step fftimerCreate trace sys) (off : armed trace = false) : Disarmed sys := by
  induction run with
  | refl => exact ⟨rfl, rfl, fun _ => nofun⟩
  | @snoc past before event after earlier next inductionHypothesis =>
      rw [armed_snoc] at off
      cases next with
      | call request =>
          obtain ⟨htmr, apc, notFiring⟩ := inductionHypothesis off
          cases request with
          | start | stop => exact ⟨htmr, apc, notFiring⟩
          | close => exact ⟨rfl, rfl, notFiring⟩
      | storeKq | storeData | storePeriod | storeCtl | setEvent | wait | waitError | answer
      | refuse | join =>
          obtain ⟨htmr, apc, notFiring⟩ := inductionHypothesis off
          exact ⟨htmr, apc, notFiring⟩
      | wake | storeResult | setEventResult | waitFailed | post =>
          obtain ⟨htmr, apc, _⟩ := inductionHypothesis off
          exact ⟨htmr, apc, fun _ => nofun⟩
      | readCtl =>
          obtain ⟨htmr, apc, _⟩ := inductionHypothesis off
          refine ⟨htmr, apc, fun kq => ?_⟩
          dsimp only
          split <;> exact nofun
      | @execute cmd timerError position code =>
          have proper : cmd ≠ .exit := fun exit =>
            commanded_proper earlier (exit ▸ position)
          exact Disarmed.execute code position proper (armed past) inductionHypothesis off
      | expire set => exact absurd ((inductionHypothesis off).htmr.symm.trans set) nofun
      | fire _ queued => exact absurd ((inductionHypothesis off).apc.symm.trans queued) nofun

/-- The owner is not on its way to start the timer. -/
def ClientPosition.NotStarting : ClientPosition → Prop
  | .storingKq .. | .storingData .. | .storingPeriod .. => False
  | .commanding cmd | .signalling cmd => cmd ≠ .start
  | _ => True

/-- An owner that does not call `fftimer_start` hands over no such command. -/
theorem not_issued {future : List TimerEvent} {sys final : TimerSys}
    (run : Run Step sys future final) (initial : sys.client.NotStarting)
    (noStart : ∀ kq data periodMs, .call (.start kq data periodMs) ∉ future) :
    final.client.NotStarting ∧ .start ∉ issued future := by
  induction run with
  | refl => exact ⟨initial, nofun⟩
  | @snoc past before event after _ next inductionHypothesis =>
      have noStartBefore : ∀ kq data periodMs, .call (.start kq data periodMs) ∉ past :=
        fun kq data periodMs member =>
          noStart kq data periodMs (List.mem_append_left _ member)
      obtain ⟨notStarting, notIssued⟩ := inductionHypothesis noStartBefore
      have step : after.client.NotStarting ∧ .start ∉ event.issues.toList := by
        cases next with
        | call request =>
            cases request with
            | start kq data periodMs =>
                exact absurd (List.mem_append_right _ (List.mem_singleton.mpr rfl))
                  (noStart kq data periodMs)
            | stop | close => exact ⟨nofun, nofun⟩
        | storeKq position | storeData position | storePeriod position =>
            rw [position] at notStarting
            exact notStarting.elim
        | storeCtl position =>
            rw [position] at notStarting
            exact ⟨notStarting, nofun⟩
        | @setEvent cmd ok position =>
            rw [position] at notStarting
            refine ⟨?_, ?_⟩
            · cases cmd <;> cases ok <;> trivial
            · cases ok with
              | true =>
                  intro member
                  exact notStarting (List.mem_singleton.mp member).symm
              | false => exact nofun
        | wait | waitError | answer | refuse | join => exact ⟨trivial, nofun⟩
        | @execute cmd timerError =>
            refine ⟨?_, nofun⟩
            cases cmd <;> cases timerError <;> exact notStarting
        | wake | readCtl | storeResult | setEventResult | waitFailed | expire | fire | post =>
            exact ⟨notStarting, nofun⟩
      refine ⟨step.1, ?_⟩
      unfold issued at notIssued ⊢
      rw [filterMap_snoc, List.mem_append, not_or]
      exact ⟨notIssued, step.2⟩

/-- Commands that do not start the timer leave it off. -/
theorem foldl_armedAfter_off {commands : List (Command × BitVec 32)}
    (noStart : .start ∉ commands.map Prod.fst) : commands.foldl armedAfter false = false := by
  induction commands with
  | nil => rfl
  | cons command rest inductionHypothesis =>
      obtain ⟨cmd, r⟩ := command
      rw [List.map_cons, List.mem_cons, not_or] at noStart
      have off : armedAfter false (cmd, r) = false := by
        cases cmd with
        | start => exact absurd rfl noStart.1
        | stop | exit => simp [armedAfter]
      rw [List.foldl_cons, off]
      exact inductionHypothesis noStart.2

theorem Step.idle {before after : TimerSys} {cmd : Command} {r : BitVec 32}
    (next : Step before (.answer cmd r) after) : after.client = .idle := by
  cases next with
  | answer => rfl

/-- The calls of `fftimer_start` from the last answered one on, after a step. -/
def TimerEvent.register (before : List (BitVec 64 × BitVec 64)) :
    TimerEvent → List (BitVec 64 × BitVec 64)
  | .call (.start kq data _) => before ++ [(kq, data)]
  | .answer .start _ => before.getLast?.toList
  | _ => before

/-- The queue and the data of each `fftimer_start` from the last answered one on. -/
def recent (trace : List TimerEvent) : List (BitVec 64 × BitVec 64) :=
  trace.foldl TimerEvent.register []

theorem recent_snoc (past : List TimerEvent) (event : TimerEvent) :
    recent (past ++ [event]) = event.register (recent past) := by
  unfold recent
  rw [List.foldl_append]
  rfl

/-- After a call of `fftimer_start` there is a last one. -/
theorem recent_ne_nil {trace : List TimerEvent} {kq data : BitVec 64} {periodMs : BitVec 32}
    (called : .call (.start kq data periodMs) ∈ trace) : recent trace ≠ [] := by
  induction trace using List.reverseRecOn with
  | nil => cases called
  | append_singleton past event inductionHypothesis =>
      rw [recent_snoc]
      rcases List.mem_append.mp called with earlier | now
      · have some := inductionHypothesis earlier
        cases event with
        | call request => cases request <;> simp [TimerEvent.register, some]
        | answer cmd r => cases cmd <;> simpa [TimerEvent.register] using some
        | _ => exact some
      · rw [← List.mem_singleton.mp now]
        simp [TimerEvent.register]

/-- What the fields hold of the last call, with the writes that are still to come. -/
def Stored (calls : List (BitVec 64 × BitVec 64)) (tmr : Fftimer) : ClientPosition → Prop
  | .storingKq kq data _ => calls.getLast? = some (kq, data)
  | .storingData data _ => calls.getLast? = some (tmr.kq, data)
  | _ => ∀ last, calls.getLast? = some last → last = (tmr.kq, tmr.data)

/-- The owner has a command that the thread has taken. -/
def TimerSys.Served (sys : TimerSys) : Prop :=
  match sys.client with
  | .awaiting _ => sys.evt = false
  | .awaited _ => True
  | _ => False

/-- The fields, and a timer function that runs, are those of recent calls. -/
structure Registered (trace : List TimerEvent) (sys : TimerSys) : Prop where
  stored : Stored (recent trace) sys.tmr sys.client
  kq : armed trace = true → sys.tmr.kq ∈ (recent trace).map Prod.fst
  data : armed trace = true → sys.tmr.data ∈ (recent trace).map Prod.snd
  firing : ∀ kq, sys.thread = .firing kq → kq ∈ (recent trace).map Prod.fst
  served : sys.Served → ∀ kq, sys.thread = .firing kq → kq = sys.tmr.kq

/-- Steps that neither write the two fields nor enter the timer function. -/
theorem Registered.keep {past : List TimerEvent} {event : TimerEvent} {before after : TimerSys}
    (registered : Registered past before)
    (calls : event.register (recent past) = recent past) (executes : event.executes = none)
    (kq : after.tmr.kq = before.tmr.kq) (data : after.tmr.data = before.tmr.data)
    (stored : Stored (recent past) before.tmr before.client →
      Stored (recent past) after.tmr after.client)
    (firing : ∀ kq, after.thread = .firing kq →
      before.thread = .firing kq ∧ (after.Served → before.Served)) :
    Registered (past ++ [event]) after := by
  have armedSame : armed (past ++ [event]) = armed past := by
    rw [armed_snoc, executes]
    rfl
  refine ⟨?_, ?_, ?_, ?_, ?_⟩
  · rw [recent_snoc, calls]
    exact stored registered.stored
  · rw [recent_snoc, calls, armedSame, kq]
    exact registered.kq
  · rw [recent_snoc, calls, armedSame, data]
    exact registered.data
  · rw [recent_snoc, calls]
    exact fun inside position => registered.firing inside (firing inside position).1
  · intro served inside position
    obtain ⟨positionBefore, servedBefore⟩ := firing inside position
    rw [kq]
    exact registered.served (servedBefore served) inside positionBefore

/-- The last call is one of the calls. -/
theorem last_mem {calls : List (BitVec 64 × BitVec 64)} {kq data : BitVec 64}
    (last : calls.getLast? = some (kq, data)) :
    kq ∈ calls.map Prod.fst ∧ data ∈ calls.map Prod.snd := by
  have member := List.mem_of_getLast? last
  exact ⟨List.mem_map_of_mem member, List.mem_map_of_mem member⟩

theorem ne_nil_of_mem_map {α β : Type} {f : α → β} {b : β} {l : List α} (member : b ∈ l.map f) :
    l ≠ [] := by
  rintro rfl
  cases member

/-- A command to start the timer comes from a call. -/
theorem recent_of_issued {trace : List TimerEvent} {sys : TimerSys}
    (run : Run Step fftimerCreate trace sys) (start : .start ∈ issued trace) :
    recent trace ≠ [] := by
  intro none
  have noStart : ∀ kq data periodMs, .call (.start kq data periodMs) ∉ trace :=
    fun _ _ _ called => recent_ne_nil called none
  exact (not_issued run trivial noStart).2 start

/-- Where no write is to come, the fields are the last call's. -/
theorem last_of_stored {calls : List (BitVec 64 × BitVec 64)} {tmr : Fftimer}
    (stored : ∀ last, calls.getLast? = some last → last = (tmr.kq, tmr.data))
    (called : calls ≠ []) : calls.getLast? = some (tmr.kq, tmr.data) := by
  cases last : calls.getLast? with
  | none => exact absurd (List.getLast?_eq_none_iff.mp last) called
  | some call => rw [stored call last]

theorem Registered.initial : Registered [] fftimerCreate := by
  refine ⟨?_, ?_, ?_, ?_, False.elim⟩
  · rintro call ⟨⟩
  · rintro ⟨⟩
  · rintro ⟨⟩
  · rintro kq ⟨⟩

/-! #### The steps that change the fields or what is recent -/

section

variable {past : List TimerEvent} {before : TimerSys}

/-- The new call is added to those whose values the fields can have. -/
theorem Registered.callStart (registered : Registered past before) (kq data : BitVec 64)
    (periodMs : BitVec 32) :
    Registered (past ++ [.call (.start kq data periodMs)])
      (before.enter (.start kq data periodMs)) := by
  refine ⟨?_, ?_, ?_, ?_, False.elim⟩ <;> rw [recent_snoc]
  · exact List.getLast?_concat
  · intro on
    rw [armed_snoc] at on
    rw [TimerEvent.register, List.map_append]
    exact List.mem_append_left _ (registered.kq on)
  · intro on
    rw [armed_snoc] at on
    rw [TimerEvent.register, List.map_append]
    exact List.mem_append_left _ (registered.data on)
  · intro inside position
    rw [TimerEvent.register, List.map_append]
    exact List.mem_append_left _ (registered.firing inside position)

theorem Registered.storeKq (registered : Registered past before) {kq data : BitVec 64}
    {periodMs : BitVec 32} (position : before.client = .storingKq kq data periodMs) :
    Registered (past ++ [.storeKq])
      { before with
        tmr := { before.tmr with kq := kq }, client := .storingData data periodMs } := by
  have last : (recent past).getLast? = some (kq, data) := by
    have stored := registered.stored
    rw [position] at stored
    exact stored
  refine ⟨?_, ?_, ?_, ?_, False.elim⟩ <;> rw [recent_snoc]
  · exact last
  · exact fun _ => (last_mem last).1
  · rw [armed_snoc]
    exact registered.data
  · exact registered.firing

theorem Registered.storeData (registered : Registered past before) {data : BitVec 64}
    {periodMs : BitVec 32} (position : before.client = .storingData data periodMs) :
    Registered (past ++ [.storeData])
      { before with
        tmr := { before.tmr with data := data }, client := .storingPeriod periodMs } := by
  have last : (recent past).getLast? = some (before.tmr.kq, data) := by
    have stored := registered.stored
    rw [position] at stored
    exact stored
  refine ⟨?_, ?_, ?_, ?_, False.elim⟩ <;> rw [recent_snoc]
  · intro other same
    exact Option.some.inj (same.symm.trans last)
  · rw [armed_snoc]
    exact registered.kq
  · exact fun _ => (last_mem last).2
  · exact registered.firing

/-- An answered start makes the older calls obsolete. No timer function that runs then has a
value of theirs, since the thread has executed the command after all of them. -/
theorem Registered.answerStart (registered : Registered past before)
    (position : before.client = .awaited .start) :
    Registered (past ++ [.answer .start before.tmr.result]) { before with client := .idle } := by
  have stored := registered.stored
  rw [position] at stored
  have served : before.Served := by
    unfold TimerSys.Served
    rw [position]
    trivial
  have lastOf : recent past ≠ [] →
      recent (past ++ [.answer .start before.tmr.result]) = [(before.tmr.kq, before.tmr.data)] := by
    intro called
    rw [recent_snoc, TimerEvent.register, last_of_stored stored called]
    rfl
  refine ⟨?_, ?_, ?_, ?_, False.elim⟩
  · intro last same
    rw [recent_snoc, TimerEvent.register] at same
    cases earlierLast : (recent past).getLast? with
    | none => simp [earlierLast] at same
    | some call =>
        rw [earlierLast] at same
        obtain rfl : call = last := by simpa using same
        exact stored call earlierLast
  · intro on
    rw [armed_snoc] at on
    rw [lastOf (ne_nil_of_mem_map (registered.kq on))]
    exact List.mem_singleton_self _
  · intro on
    rw [armed_snoc] at on
    rw [lastOf (ne_nil_of_mem_map (registered.kq on))]
    exact List.mem_singleton_self _
  · intro inside same
    rw [lastOf (ne_nil_of_mem_map (registered.firing inside same)),
      registered.served served inside same]
    exact List.mem_singleton_self _

theorem Registered.fire (registered : Registered past before)
    (earlier : Run Step fftimerCreate past before) (queued : before.apc = true) :
    Registered (past ++ [.fire])
      { before with apc := false, thread := .firing before.tmr.kq } := by
  have on : armed past = true := by
    by_contra off
    have apc := (disarmed earlier (Bool.eq_false_iff.mpr off)).apc
    rw [apc] at queued
    cases queued
  refine ⟨?_, ?_, ?_, ?_, ?_⟩
  · rw [recent_snoc]
    exact registered.stored
  · rw [recent_snoc]
    exact fun _ => registered.kq on
  · rw [recent_snoc]
    exact fun _ => registered.data on
  · rw [recent_snoc]
    rintro inside same
    obtain rfl := ThreadPosition.firing.inj same
    exact registered.kq on
  · rintro _ inside same
    exact (ThreadPosition.firing.inj same).symm

/-- When a command is executed the fields are written, so they are the last call's. -/
theorem Registered.execute (registered : Registered past before)
    (earlier : Run Step fftimerCreate past before) (waits : .wait false ∉ past) {cmd : Command}
    {timerError : Option (BitVec 32)} (position : before.thread = .commanded cmd) :
    Registered (past ++ [.execute cmd timerError]) (before.executeCommand cmd timerError) := by
  obtain ⟨unanswered, unexecuted, handshake, _, issuedSame⟩ := handshaken earlier waits
  obtain ⟨client, proper, evt, _, rfl, rfl⟩ := handshake.of_commanded position
  obtain ⟨tmr, clientSame, evtSame, _, thread⟩ := executeCommand_eq proper before timerError
  have stored := registered.stored
  rw [client] at stored
  have called : armed (past ++ [.execute cmd timerError]) = true → recent past ≠ [] := by
    intro on
    cases cmd with
    | start =>
        apply recent_of_issued earlier
        rw [issuedSame]
        simp
    | exit => exact absurd rfl proper
    | stop =>
        have onBefore : armed past = true := by
          rw [armed_snoc] at on
          by_contra off
          rw [Bool.eq_false_iff.mpr off] at on
          simp [TimerEvent.executes, armedAfter] at on
        exact ne_nil_of_mem_map (registered.kq onBefore)
  refine ⟨?_, ?_, ?_, ?_, ?_⟩
  · rw [recent_snoc, tmr, clientSame, client]
    exact stored
  · rw [recent_snoc, tmr]
    exact fun on => (last_mem (last_of_stored stored (called on))).1
  · rw [recent_snoc, tmr]
    exact fun on => (last_mem (last_of_stored stored (called on))).2
  · intro inside same
    rw [thread] at same
    cases same
  · intro _ inside same
    rw [thread] at same
    cases same

end

/-! #### Every step -/

theorem Registered.step {past : List TimerEvent} {event : TimerEvent} {before after : TimerSys}
    (registered : Registered past before) (earlier : Run Step fftimerCreate past before)
    (waits : .wait false ∉ past) (works : event ≠ .wait false) (next : Step before event after) :
    Registered (past ++ [event]) after := by
  cases next with
  | call request idle =>
      cases request with
      | start kq data periodMs => exact registered.callStart kq data periodMs
      | stop | close =>
          refine registered.keep rfl rfl rfl rfl ?_ ?_
          · rw [idle]
            exact id
          · exact fun inside position => ⟨position, False.elim⟩
  | storeKq position => exact registered.storeKq position
  | storeData position => exact registered.storeData position
  | storePeriod position | storeCtl position | refuse position =>
      refine registered.keep rfl rfl rfl rfl ?_ ?_
      · rw [position]
        exact id
      · exact fun inside same => ⟨same, False.elim⟩
  | @setEvent cmd ok position =>
      refine registered.keep rfl rfl rfl rfl ?_ ?_
      · rw [position]
        cases cmd <;> cases ok <;> exact id
      · intro inside same
        refine ⟨same, fun served => ?_⟩
        cases cmd <;> cases ok <;> simp [TimerSys.Served, afterSetEvent] at served
  | wait position signalled =>
      obtain ⟨_, _, handshake, _⟩ := handshaken earlier waits
      obtain ⟨_, evt, _⟩ := handshake.of_replied position signalled
      refine registered.keep rfl rfl rfl rfl ?_ ?_
      · rw [position]
        exact id
      · intro inside same
        refine ⟨same, fun _ => ?_⟩
        unfold TimerSys.Served
        rw [position]
        exact evt
  | waitError => exact absurd rfl works
  | @answer cmd position =>
      cases cmd with
      | start => exact registered.answerStart position
      | stop | exit =>
          refine registered.keep rfl rfl rfl rfl ?_ ?_
          · rw [position]
            exact id
          · exact fun inside same => ⟨same, False.elim⟩
  | join position =>
      refine registered.keep rfl rfl rfl rfl ?_ ?_
      · rw [position]
        exact id
      · exact fun inside same => ⟨same, False.elim⟩
  | wake | storeResult | setEventResult | waitFailed | post =>
      refine registered.keep rfl rfl rfl rfl ?_ ?_
      · exact id
      · rintro kq ⟨⟩
  | readCtl =>
      refine registered.keep rfl rfl rfl rfl ?_ ?_
      · exact id
      · intro inside position
        dsimp only at position
        split at position <;> cases position
  | expire =>
      refine registered.keep rfl rfl rfl rfl ?_ ?_
      · exact id
      · exact fun _ same => ⟨same, id⟩
  | fire position queued => exact registered.fire earlier queued
  | execute timerError position code => exact registered.execute earlier waits position

theorem registered {trace : List TimerEvent} {sys : TimerSys}
    (run : Run Step fftimerCreate trace sys) (waits : .wait false ∉ trace) :
    Registered trace sys := by
  induction run with
  | refl => exact .initial
  | snoc earlier next inductionHypothesis =>
      rw [List.mem_append, List.mem_singleton, not_or] at waits
      exact (inductionHypothesis waits.1).step earlier waits.1 (Ne.symm waits.2) next

/-- The fields are written one by one, so an event of the earlier timer can take its
queue from one call and its data from the other. -/
example :
    (fireAll TimerSys.fire fftimerCreate
      (startedTrace ++ [.expire, .call (.start 6 8 100), .storeKq, .fire, .post 6 7])).isSome := by
  decide

end Ffos.Timer
