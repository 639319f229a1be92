/-
Module: Ffos.Kcall.ExactlyOnce
Purpose: For clients that keep to the protocol the queue stands for direct calls:
  every accepted request is executed once with its own arguments, its handler
  runs once after that, and the fetching call returns what the execution gave.
Trusted boundary: none
Main exports: Ledger, WellBehaved, Accounted, exactly_once
-/
import Ffos.Kcall.Drain
import Ffos.Kcall.Execution
import Ffos.Kcall.Places
import Mathlib.Data.Fintype.Card

namespace Ffos.Kcall

open Ffos.Lib

variable {Obj Worker : Type} [DecidableEq Obj] [DecidableEq Worker]

/-! ### What a client of one object has seen -/

/-- Idle, waiting for the completion handler, allowed to fetch the result, or done
with the object after `ffkcall_cancel`. -/
inductive Phase where
  | idle
  | waiting (request : Request)
  | ready (request : Request)
  | gone
deriving DecidableEq

/-- The requests that were accepted, the kernel calls that were made with their
outcomes, how often the handler ran, and what the fetching calls returned. -/
structure Ledger where
  phase : Phase
  accepted : List Request
  executed : List (Request × Reply)
  handled : Nat
  fetched : List Reply
deriving DecidableEq

def Ledger.empty : Ledger :=
  { phase := .idle, accepted := [], executed := [], handled := 0, fetched := [] }

/-- A call on an idle object submits, and is accepted if the error is
`FFKCALL_EINPROGRESS`. A call on a completed one fetches the result. -/
def Ledger.recordCall (ledger : Ledger) (request : Request) (reply : Reply) : Ledger :=
  match ledger.phase with
  | .idle =>
      if reply.error = einprogress then
        { ledger with phase := .waiting request, accepted := ledger.accepted ++ [request] }
      else ledger
  | .ready _ => { ledger with phase := .idle, fetched := ledger.fetched ++ [reply] }
  | .waiting _ => ledger
  | .gone => ledger

def Ledger.recordHandler (ledger : Ledger) : Ledger :=
  { ledger with
    handled := ledger.handled + 1
    phase := match ledger.phase with
      | .waiting request => .ready request
      | phase => phase }

/-- The entry of an event in the ledger of the object it is about. -/
def Ledger.enter (ledger : Ledger) : Event Obj Worker → Ledger
  | .call _ request reply => ledger.recordCall request reply
  | .cancel _ => { ledger with phase := .gone }
  | .exec _ _ request outcome =>
      { ledger with executed := ledger.executed ++ [(request, outcome)] }
  | .handler _ => ledger.recordHandler
  | _ => ledger

/-- The ledger of `obj` after one more event. -/
def Ledger.record (obj : Obj) (ledger : Ledger) (event : Event Obj Worker) : Ledger :=
  if event.subject = some obj then ledger.enter event else ledger

/-- The ledger of an object after some events. -/
def ledger (obj : Obj) (trace : List (Event Obj Worker)) : Ledger :=
  trace.foldl (Ledger.record obj) Ledger.empty

/-- An asynchronous function is called on an idle object, or once after the handler
ran and then it is the same function. -/
def Phase.Permits : Phase → Request → Prop
  | .idle, _ => True
  | .ready earlier, request => request.op = earlier.op
  | .waiting _, _ => False
  | .gone, _ => False

/-- The client may cause the event after the given ones. -/
def Permitted (past : List (Event Obj Worker)) : Event Obj Worker → Prop
  | .call obj request _ => (ledger obj past).phase.Permits request
  | _ => True

/-- Every event is permitted by the ones before it. -/
def WellBehavedAfter (past : List (Event Obj Worker)) : List (Event Obj Worker) → Prop
  | [] => True
  | event :: future => Permitted past event ∧ WellBehavedAfter (past ++ [event]) future

def WellBehaved (trace : List (Event Obj Worker)) : Prop :=
  WellBehavedAfter [] trace

instance (phase : Phase) (request : Request) : Decidable (phase.Permits request) :=
  match phase with
  | .idle => isTrue trivial
  | .ready earlier => inferInstanceAs (Decidable (request.op = earlier.op))
  | .waiting _ => isFalse id
  | .gone => isFalse id

instance (past : List (Event Obj Worker)) (event : Event Obj Worker) :
    Decidable (Permitted past event) :=
  match event with
  | .call obj request _ =>
      inferInstanceAs (Decidable ((ledger obj past).phase.Permits request))
  | .cancel _ | .fetch .. | .exec .. | .skip .. | .complete .. | .overflow .. | .post _
  | .poll | .receive | .consume | .fetchCompletion _ | .noCompletion | .handler _
  | .discard _ => isTrue trivial

instance decidableWellBehavedAfter (past future : List (Event Obj Worker)) :
    Decidable (WellBehavedAfter past future) :=
  match future with
  | [] => isTrue trivial
  | event :: future =>
      have := decidableWellBehavedAfter (past ++ [event]) future
      inferInstanceAs (Decidable (Permitted past event ∧ WellBehavedAfter (past ++ [event]) future))

instance (trace : List (Event Obj Worker)) : Decidable (WellBehaved trace) :=
  inferInstanceAs (Decidable (WellBehavedAfter [] trace))

omit [DecidableEq Worker] in
theorem Ledger.record_related {obj : Obj} {book : Ledger} {event : Event Obj Worker}
    (related : event.subject = some obj) : book.record obj event = book.enter event :=
  if_pos related

omit [DecidableEq Worker] in
theorem Ledger.record_unrelated {obj : Obj} {book : Ledger} {event : Event Obj Worker}
    (unrelated : event.subject ≠ some obj) : book.record obj event = book :=
  if_neg unrelated

omit [DecidableEq Worker] in
theorem ledger_snoc (obj : Obj) (past : List (Event Obj Worker)) (event : Event Obj Worker) :
    ledger obj (past ++ [event]) = (ledger obj past).record obj event := by
  simp [ledger]

omit [DecidableEq Worker] in
theorem wellBehavedAfter_append (past first second : List (Event Obj Worker)) :
    WellBehavedAfter past (first ++ second) ↔
      WellBehavedAfter past first ∧ WellBehavedAfter (past ++ first) second := by
  induction first generalizing past with
  | nil => simp [WellBehavedAfter]
  | cons event rest inductionHypothesis =>
      simp [WellBehavedAfter, inductionHypothesis, and_assoc]

omit [DecidableEq Worker] in
theorem wellBehaved_snoc_iff {past : List (Event Obj Worker)} {event : Event Obj Worker} :
    WellBehaved (past ++ [event]) ↔ WellBehaved past ∧ Permitted past event := by
  simp [WellBehaved, wellBehavedAfter_append, WellBehavedAfter]

/-! ### The account of one object -/

/-- How the fields of an object, its place and its ledger belong together. `done`
are the requests whose result was fetched. -/
inductive Accounted : Ffkcall → Place Worker → Ledger → Prop where
  /-- Everything that was accepted is done. -/
  | idle {kc : Ffkcall} {done : List (Request × Reply)} (free : kc.op = none)
      (inactive : kc.state = 0) :
      Accounted kc .out
        { phase := .idle, accepted := done.map Prod.fst, executed := done,
          handled := done.length, fetched := done.map Prod.snd }
  /-- The request waits in the union for a worker to execute it. -/
  | submitted {kc : Ffkcall} {place : Place Worker} {request : Request}
      {done : List (Request × Reply)} (op : kc.op = some request.op)
      (arguments : request.op.load kc.words = request)
      (before : place = .queued ∨ ∃ worker, place = .fetched worker) :
      Accounted kc place
        { phase := .waiting request, accepted := done.map Prod.fst ++ [request],
          executed := done, handled := done.length, fetched := done.map Prod.snd }
  /-- The outcome is in the union and on its way to the handler. -/
  | executed {kc : Ffkcall} {place : Place Worker} {request : Request} {outcome : Reply}
      {done : List (Request × Reply)} (op : kc.op = some request.op)
      (typed : request.op.Returns outcome.value)
      (stored : kc.words.at8 = outcome.value.toResult ∧ kc.words.at0 = outcome.error)
      (after : (∃ worker, place = .executed worker) ∨ place = .completed ∨
        (place = .handling ∧ kc.state = 0) ∨ place = .dropped) :
      Accounted kc place
        { phase := .waiting request, accepted := done.map Prod.fst ++ [request],
          executed := done ++ [(request, outcome)], handled := done.length,
          fetched := done.map Prod.snd }
  /-- The handler ran and the outcome is still in the union. -/
  | ready {kc : Ffkcall} {request : Request} {outcome : Reply} {done : List (Request × Reply)}
      (op : kc.op = some request.op) (inactive : kc.state = 0)
      (typed : request.op.Returns outcome.value)
      (stored : kc.words.at8 = outcome.value.toResult ∧ kc.words.at0 = outcome.error) :
      Accounted kc .out
        { phase := .ready request, accepted := done.map Prod.fst ++ [request],
          executed := done ++ [(request, outcome)], handled := done.length + 1,
          fetched := done.map Prod.snd }
  /-- The object was cancelled. -/
  | gone {kc : Ffkcall} {place : Place Worker} {ledger : Ledger} (phase : ledger.phase = .gone)
      (free : kc.op = none) : Accounted kc place ledger

section Cell

variable {obj : Obj} {kc kcAfter : Ffkcall} {place placeAfter : Place Worker} {book : Ledger}
  {event : Event Obj Worker}

omit [DecidableEq Worker] in
/-- A call that is permitted on an accounted object: the object is idle, or its
outcome is in the union. -/
theorem Accounted.of_permits (accounted : Accounted kc place book) {request : Request}
    (permits : book.phase.Permits request) :
    (kc.op = none ∧ kc.state = 0 ∧ place = .out ∧ ∃ done : List (Request × Reply),
      book =
        { phase := .idle, accepted := done.map Prod.fst, executed := done,
          handled := done.length, fetched := done.map Prod.snd }) ∨
    (kc.op ≠ none ∧ kc.state = 0 ∧ place = .out ∧
      ∃ (done : List (Request × Reply)) (earlier : Request) (outcome : Reply),
        request.op.fromResult kc.words.at8 = outcome.value ∧ kc.words.at0 = outcome.error ∧
        book =
          { phase := .ready earlier, accepted := done.map Prod.fst ++ [earlier],
            executed := done ++ [(earlier, outcome)], handled := done.length + 1,
            fetched := done.map Prod.snd }) := by
  cases accounted with
  | @idle done free inactive => exact Or.inl ⟨free, inactive, rfl, done, rfl⟩
  | submitted => simp [Phase.Permits] at permits
  | executed => simp [Phase.Permits] at permits
  | @ready earlier outcome done op inactive typed stored =>
      have sameOp : request.op = earlier.op := by simpa [Phase.Permits] using permits
      refine Or.inr ⟨by simp [op], inactive, rfl, done, earlier, outcome, ?_, stored.2, rfl⟩
      rw [sameOp, stored.1]
      exact KcallOp.fromResult_toResult typed
  | gone phase _ => simp [Phase.Permits, phase] at permits

omit [DecidableEq Worker] in
/-- Every step of a cell keeps the account, if the client keeps to the protocol. -/
theorem CellStep.accounted (next : CellStep obj kc place event kcAfter placeAfter)
    (accounted : Accounted kc place book)
    (permitted : ∀ request reply, event = .call obj request reply → book.phase.Permits request) :
    Accounted kcAfter placeAfter (book.record obj event) := by
  by_cases related : event.subject = some obj
  swap
  · cases next with
    | other => rwa [Ledger.record_unrelated related]
    | _ => exact absurd rfl related
  rw [Ledger.record_related related]
  cases next with
  | other unrelated => exact absurd related unrelated
  | busy request active =>
      rcases accounted.of_permits (permitted request _ rfl) with
        ⟨_, inactive, _⟩ | ⟨_, inactive, _⟩ <;> exact absurd inactive active
  | result request inactive done =>
      rcases accounted.of_permits (permitted request _ rfl) with
        ⟨free, _⟩ | ⟨_, _, rfl, done, earlier, outcome, value, error, rfl⟩
      · exact absurd free done
      · rw [value, error]
        have account : ∀ all : List (Request × Reply), all = done ++ [(earlier, outcome)] →
            Accounted { kc with op := none } (.out : Place Worker)
              { phase := .idle, accepted := all.map Prod.fst, executed := all,
                handled := all.length, fetched := all.map Prod.snd } :=
          fun all _ => .idle rfl inactive
        simpa [Ledger.enter, Ledger.recordCall] using account _ rfl
  | again request inactive free =>
      rcases accounted.of_permits (permitted request _ rfl) with
        ⟨_, _, rfl, done, rfl⟩ | ⟨done, _⟩
      · exact .idle rfl inactive
      · exact absurd free done
  | queued request inactive free =>
      rcases accounted.of_permits (permitted request _ rfl) with
        ⟨_, _, _, done, rfl⟩ | ⟨done, _⟩
      · exact .submitted rfl (request.load_store _) (Or.inl rfl)
      · exact absurd free done
  | cancel => exact .gone rfl rfl
  | @fetch worker =>
      cases accounted with
      | submitted op arguments before =>
          exact .submitted op arguments (Or.inr ⟨worker, rfl⟩)
      | executed _ _ _ after => simp at after
      | gone phase free => exact .gone phase free
  | @exec worker op outcome active typed =>
      cases accounted with
      | submitted opEq arguments before =>
          obtain rfl := Option.some.inj (active.symm.trans opEq)
          rw [arguments]
          exact .executed opEq typed ⟨rfl, rfl⟩ (Or.inl ⟨worker, rfl⟩)
      | executed _ _ _ after => simp at after
      | gone phase free => simp [free] at active
  | skip cancelled =>
      cases accounted with
      | submitted op => simp [op] at cancelled
      | executed op => simp [op] at cancelled
      | gone phase free => exact .gone phase free
  | complete =>
      cases accounted with
      | submitted _ _ before => simp at before
      | executed op typed stored after => exact .executed op typed stored (Or.inr (Or.inl rfl))
      | gone phase free => exact .gone phase free
  | overflow =>
      cases accounted with
      | submitted _ _ before => simp at before
      | executed op typed stored after =>
          exact .executed op typed stored (Or.inr (Or.inr (Or.inr rfl)))
      | gone phase free => exact .gone phase free
  | fetchCompletion =>
      cases accounted with
      | submitted _ _ before => simp at before
      | executed op typed stored after =>
          exact .executed op typed stored (Or.inr (Or.inr (Or.inl ⟨rfl, rfl⟩)))
      | gone phase free => exact .gone phase free
  | handler active =>
      cases accounted with
      | submitted _ _ before => simp at before
      | executed op typed stored after =>
          have inactive : kc.state = 0 := by simpa using after
          exact .ready op inactive typed stored
      | gone phase free => exact absurd free active
  | discard cancelled =>
      cases accounted with
      | submitted op => simp [op] at cancelled
      | executed op => simp [op] at cancelled
      | gone phase free => exact .gone phase free

omit [DecidableEq Obj] [DecidableEq Worker] in
theorem CellStep.attached (next : CellStep obj kc place event kcAfter placeAfter) :
    kcAfter.attached = kc.attached := by
  cases next <;> rfl

omit [DecidableEq Obj] [DecidableEq Worker] in
/-- An object is dropped by an overflow only. -/
theorem CellStep.dropped (next : CellStep obj kc place event kcAfter placeAfter)
    (dropped : placeAfter = .dropped) :
    place = .dropped ∨ ∃ worker, event = .overflow worker obj := by
  cases next with
  | overflow => exact Or.inr ⟨_, rfl⟩
  | other | busy | result | again | cancel => exact Or.inl dropped
  | _ => cases dropped

end Cell

/-! ### The account of all objects over a run -/

/-- The object is attached, it is at one place, its ledger accounts for it, and it
was not dropped without an overflow. -/
def Tracked (past : List (Event Obj Worker)) (sys : Sys Obj Worker) (obj : Obj) : Prop :=
  (sys.objs obj).attached = true ∧ ∃ place, At sys obj place ∧
    Accounted (sys.objs obj) place (ledger obj past) ∧
    (place = .dropped → ∃ worker, .overflow worker obj ∈ past)

theorem Tracked.initial {start : Sys Obj Worker} (initial : start.Initial) {obj : Obj}
    (attached : (start.objs obj).attached = true) : Tracked [] start obj := by
  refine ⟨attached, .out, ⟨?_, ?_, ?_, ?_, ?_⟩, ?_, by simp⟩
  · simp [initial.sq]
  · simp [initial.cq]
  · simp [initial.workers]
  · simp [initial.workers]
  · simp [initial.reader]
  · exact @Accounted.idle Worker (start.objs obj) [] (initial.op obj) (initial.state obj)

theorem Tracked.step {past : List (Event Obj Worker)} {before after : Sys Obj Worker}
    {event : Event Obj Worker} {obj : Obj} (tracked : Tracked past before obj)
    (next : Step before event after) (permitted : Permitted past event) :
    Tracked (past ++ [event]) after obj := by
  obtain ⟨attached, place, here, accounted, dropped⟩ := tracked
  have permits : ∀ request reply, event = .call obj request reply →
      (ledger obj past).phase.Permits request := by
    rintro request reply rfl
    exact permitted
  have queuedOut : ∀ request reply, event = .call obj request reply →
      (before.objs obj).state = 0 → (before.objs obj).op = none → place = .out := by
    intro request reply isCall _ free
    rcases accounted.of_permits (permits request reply isCall) with
      ⟨_, _, isOut, _⟩ | ⟨done, _⟩
    · exact isOut
    · exact absurd free done
  obtain ⟨placeAfter, hereAfter, cell⟩ := next.cell here attached queuedOut
  refine ⟨cell.attached.trans attached, placeAfter, hereAfter, ?_, ?_⟩
  · rw [ledger_snoc]
    exact cell.accounted accounted permits
  · intro isDropped
    rcases cell.dropped isDropped with already | ⟨worker, rfl⟩
    · obtain ⟨worker, member⟩ := dropped already
      exact ⟨worker, List.mem_append_left _ member⟩
    · exact ⟨worker, by simp⟩

theorem tracked_of_run {start final : Sys Obj Worker} (initial : start.Initial)
    (attached : ∀ obj, (start.objs obj).attached = true) {trace : List (Event Obj Worker)}
    (run : Run Step start trace final) (wellBehaved : WellBehaved trace) (obj : Obj) :
    Tracked trace final obj := by
  have always : WellBehaved trace → Tracked trace final obj := by
    apply run.history fun past state => WellBehaved past → Tracked past state obj
    · intro _
      exact Tracked.initial initial (attached obj)
    · intro past before event after earlier next wellBehaved
      obtain ⟨wellBehavedPast, permitted⟩ := wellBehaved_snoc_iff.mp wellBehaved
      exact (earlier wellBehavedPast).step next permitted
  exact always wellBehaved

omit [DecidableEq Worker] in
/-- Only a cancelled object is gone. -/
theorem cancel_mem_of_gone {obj : Obj} {trace : List (Event Obj Worker)}
    (gone : (ledger obj trace).phase = .gone) : .cancel obj ∈ trace := by
  induction trace using List.reverseRecOn with
  | nil => cases gone
  | append_singleton past event inductionHypothesis =>
      rw [ledger_snoc] at gone
      by_cases already : (ledger obj past).phase = .gone
      · exact List.mem_append_left _ (inductionHypothesis already)
      by_cases related : event.subject = some obj
      swap
      · rw [Ledger.record_unrelated related] at gone
        exact absurd gone already
      rw [Ledger.record_related related] at gone
      cases event with
      | cancel callee =>
          obtain rfl : callee = obj := Option.some.inj related
          simp
      | call callee request reply =>
          simp only [Ledger.enter, Ledger.recordCall] at gone
          split at gone
          · split at gone
            · cases gone
            · exact absurd gone already
          · cases gone
          · exact absurd gone already
          · exact absurd gone already
      | handler callee =>
          simp only [Ledger.enter, Ledger.recordHandler] at gone
          split at gone
          · cases gone
          · exact absurd gone already
      | _ => exact absurd gone already

/-! ### Capacity -/

theorem Step.cq_cap {before after : Sys Obj Worker} {event : Event Obj Worker}
    (next : Step before event after) : after.cq.cap = before.cq.cap := by
  cases next with
  | call obj request direct => rw [(request.async_frame direct before obj).1]
  | complete _ pushed => exact (BoundedQueue.push_some pushed).2.2
  | fetchCompletion _ popped => exact (BoundedQueue.pop_some popped).2.symm ▸ rfl
  | _ => rfl

/-- A completion queue with room for every object is never full when a completion
is added: the objects in it are distinct, and the one to be added is not there. -/
theorem Step.not_overflow [Fintype Obj] {past : List (Event Obj Worker)}
    {before after : Sys Obj Worker} {worker : Worker} {obj : Obj}
    (tracked : ∀ obj, Tracked past before obj) (room : Fintype.card Obj ≤ before.cq.cap)
    (next : Step before (.overflow worker obj) after) : False := by
  cases next with
  | overflow executed full =>
      obtain ⟨_, place, here, _⟩ := tracked obj
      obtain rfl : place = .executed worker := (here.executed worker).mp executed
      have absent : obj ∉ before.cq.items := by simp [here.mem_cq_iff]
      have distinct : before.cq.items.Nodup := by
        rw [List.nodup_iff_count_le_one]
        intro other
        obtain ⟨_, otherPlace, there, _⟩ := tracked other
        rw [there.cq]
        split <;> simp
      have bound := (List.nodup_cons.mpr ⟨absent, distinct⟩).length_le_card
      rw [List.length_cons, BoundedQueue.push_none_iff.mp full] at bound
      omega

theorem no_overflow_of_run [Fintype Obj] {start final : Sys Obj Worker} (initial : start.Initial)
    (attached : ∀ obj, (start.objs obj).attached = true)
    (room : Fintype.card Obj ≤ start.cq.cap) {trace : List (Event Obj Worker)}
    (run : Run Step start trace final) (wellBehaved : WellBehaved trace) (worker : Worker)
    (obj : Obj) : .overflow worker obj ∉ trace := by
  intro member
  obtain ⟨past, future, rfl⟩ := List.append_of_mem member
  obtain ⟨before, after, earlier, next, _⟩ := run.step_at
  have wellBehavedPast : WellBehaved past :=
    ((wellBehavedAfter_append [] past _).mp wellBehaved).1
  have sameCap : before.cq.cap = start.cq.cap :=
    earlier.invariant (fun state => state.cq.cap = start.cq.cap) rfl
      fun _ _ _ sofar step => step.cq_cap.trans sofar
  exact next.not_overflow (tracked_of_run initial attached earlier wellBehavedPast)
    (by rw [sameCap]; exact room)

/-! ### Exactly once -/

/-- The kernel calls made are the accepted requests in order, with their arguments;
the fetching calls returned the outcomes in order; a handler ran after its
execution and before the fetch; and at most one request is not fetched yet. -/
structure Ledger.InOrder (book : Ledger) : Prop where
  executed : book.executed.map Prod.fst <+: book.accepted
  fetched : book.fetched <+: book.executed.map Prod.snd
  handled : book.handled ≤ book.executed.length
  fetchedHandled : book.fetched.length ≤ book.handled
  accepted : book.accepted.length ≤ book.fetched.length + 1

/-- Every accepted request was executed once and its handler ran once. -/
structure Ledger.Settled (book : Ledger) : Prop where
  executed : book.executed.map Prod.fst = book.accepted
  handled : book.handled = book.accepted.length

omit [DecidableEq Obj] [DecidableEq Worker] in
theorem Accounted.inOrder {kc : Ffkcall} {place : Place Worker} {book : Ledger}
    (accounted : Accounted kc place book) (kept : book.phase ≠ .gone) : book.InOrder := by
  cases accounted with
  | idle => constructor <;> simp
  | submitted => constructor <;> simp
  | executed => constructor <;> simp
  | ready => constructor <;> simp
  | gone phase => exact absurd phase kept

/-- At rest the account is settled, unless the completion was dropped. -/
theorem Tracked.settled {past : List (Event Obj Worker)} {sys : Sys Obj Worker} {obj : Obj}
    (tracked : Tracked past sys obj) (kept : .cancel obj ∉ past) (quiescent : sys.Quiescent)
    (noOverflow : ∀ worker, .overflow worker obj ∉ past) : (ledger obj past).Settled := by
  obtain ⟨_, place, here, accounted, dropped⟩ := tracked
  have notGone : (ledger obj past).phase ≠ .gone := fun gone => kept (cancel_mem_of_gone gone)
  have isOut : place = .out := by
    cases place with
    | out => rfl
    | queued => simpa [quiescent.sq] using here.mem_sq_iff
    | fetched worker => simpa [quiescent.workers] using here.fetched worker
    | executed worker => simpa [quiescent.workers] using here.executed worker
    | completed => simpa [quiescent.cq] using here.mem_cq_iff
    | handling => simpa [quiescent.reader] using here.reader
    | dropped =>
        obtain ⟨worker, member⟩ := dropped rfl
        exact absurd member (noOverflow worker)
  subst isOut
  generalize ledger obj past = book at accounted notGone
  cases accounted with
  | idle => constructor <;> simp
  | submitted _ _ before => simp at before
  | executed _ _ _ after => simp at after
  | ready => constructor <;> simp
  | gone phase => exact absurd phase notGone

/-- Steps of the workers and the reader neither submit nor cancel anything. -/
theorem service_run {past future : List (Event Obj Worker)} {middle final : Sys Obj Worker}
    (run : Run ServiceStep middle future final) (wellBehaved : WellBehaved past) (obj : Obj) :
    WellBehaved (past ++ future) ∧
      (.cancel obj ∈ past ++ future → .cancel obj ∈ past) ∧
      (ledger obj (past ++ future)).accepted = (ledger obj past).accepted := by
  induction run with
  | refl => simpa using wellBehaved
  | @snoc trace before event after _ next inductionHypothesis =>
      obtain ⟨behaved, kept, accepted⟩ := inductionHypothesis
      obtain ⟨_, service⟩ := next
      rw [← List.append_assoc, ledger_snoc, ← accepted]
      refine ⟨wellBehaved_snoc_iff.mpr ⟨behaved, ?_⟩, ?_, ?_⟩
      · cases event <;> trivial
      · intro member
        apply kept
        rcases List.mem_append.mp member with earlier | last
        · exact earlier
        · cases List.mem_singleton.mp last
          cases service
      · unfold Ledger.record
        split
        · cases event <;> first | rfl | cases service
        · rfl

/-- In every run in which clients keep to the protocol, the account of an object
that is not cancelled is in order. With room for every object in the completion
queue no completion is dropped, and the workers and the reader can bring the
system to rest, where every accepted request is settled. -/
theorem exactly_once [Fintype Obj] [Fintype Worker] [Nonempty Worker]
    {start final : Sys Obj Worker} (initial : start.Initial)
    (attached : ∀ obj, (start.objs obj).attached = true) {trace : List (Event Obj Worker)}
    (run : Run Step start trace final) (wellBehaved : WellBehaved trace) {obj : Obj}
    (kept : .cancel obj ∉ trace) :
    (ledger obj trace).InOrder ∧
      (Fintype.card Obj ≤ start.cq.cap →
        (∀ worker other, .overflow worker other ∉ trace) ∧
        (∃ future rest, Run ServiceStep final future rest ∧ rest.Quiescent) ∧
        ∀ future rest, Run ServiceStep final future rest → rest.Quiescent →
          (ledger obj (trace ++ future)).accepted = (ledger obj trace).accepted ∧
            (ledger obj (trace ++ future)).Settled) := by
  constructor
  · obtain ⟨_, place, _, accounted, _⟩ := tracked_of_run initial attached run wellBehaved obj
    exact accounted.inOrder fun gone => kept (cancel_mem_of_gone gone)
  · intro room
    refine ⟨no_overflow_of_run initial attached room run wellBehaved, exists_drain final, ?_⟩
    intro future rest service quiescent
    obtain ⟨behaved, stillKept, accepted⟩ := service_run service wellBehaved obj
    have whole : Run Step start (trace ++ future) rest :=
      run.append (service.mono fun _ _ _ next => next.1)
    refine ⟨accepted, ?_⟩
    exact (tracked_of_run initial attached whole behaved obj).settled
      (fun cancelled => kept (stillKept cancelled)) quiescent
      fun worker => no_overflow_of_run initial attached room whole behaved worker obj

/-- One object, one worker: an open that is queued, executed with the result 5,
completed and fetched. -/
theorem exactly_once_open :
    ∃ (trace : List (Event Unit Unit)) (final : Sys Unit Unit),
      Run Step (Sys.fresh 1 1 true) trace final ∧
      (ledger () trace).accepted = [.fileOpen 0x1000 0x42] ∧
      (ledger () trace).fetched = [⟨.int 5, 0⟩] ∧ (ledger () trace).InOrder ∧
      (∃ future rest, Run ServiceStep final future rest ∧ rest.Quiescent) := by
  let trace : List (Event Unit Unit) :=
    [.call () (.fileOpen 0x1000 0x42) ⟨.int (-1), einprogress⟩, .fetch () (),
      .exec () () (.fileOpen 0x1000 0x42) ⟨.int 5, 0⟩, .complete () () 0, .poll,
      .fetchCompletion (), .handler (), .call () (.fileOpen 0x1000 0x42) ⟨.int 5, 0⟩]
  have possible : ((Sys.fresh 1 1 true).fireAll trace).isSome := by decide
  obtain ⟨final, fired⟩ := Option.isSome_iff_exists.mp possible
  have run := run_of_fireAll fired
  have result : _ ∧ _ := exactly_once (Sys.fresh_initial 1 1 true) (fun _ => rfl) run
    (by decide) (show .cancel () ∉ trace by simp [trace])
  exact ⟨trace, final, run, by decide, by decide, result.1, (result.2 (by decide)).2.1⟩

/-- Two objects and room for one completion: the worker executes both before the
reader looks, the second completion is dropped, and when everything has come to
rest its handler has not run. -/
theorem full_completion_queue_drops :
    ∃ (trace : List (Event Bool Unit)) (final : Sys Bool Unit),
      Run Step (Sys.fresh 2 1 true) trace final ∧ WellBehaved trace ∧
      .cancel true ∉ trace ∧ final.Quiescent ∧
      (ledger true trace).accepted = [.fileInfo 4 0x2000] ∧ (ledger true trace).handled = 0 := by
  let trace : List (Event Bool Unit) :=
    [.call false (.fileInfo 3 0x1000) ⟨.int (-1), einprogress⟩,
      .call true (.fileInfo 4 0x2000) ⟨.int (-1), einprogress⟩,
      .fetch () false, .exec () false (.fileInfo 3 0x1000) ⟨.int 0, 0⟩, .complete () false 0,
      .post (), .fetch () true, .exec () true (.fileInfo 4 0x2000) ⟨.int 0, 0⟩,
      .overflow () true, .receive, .consume, .fetchCompletion false, .handler false,
      .noCompletion]
  have possible : ((Sys.fresh 2 1 true).fireAll trace).map (fun final =>
      (final.sq.items, final.cq.items, final.workers (), final.reader)) =
      some ([], [], .idle, .waiting) := by decide
  obtain ⟨final, fired, shape⟩ := Option.map_eq_some_iff.mp possible
  simp only [Prod.mk.injEq] at shape
  obtain ⟨sq, cq, worker, reader⟩ := shape
  refine ⟨trace, final, run_of_fireAll fired, by decide, by simp [trace], ?_, by decide,
    by decide⟩
  exact ⟨sq, cq, fun _ => worker, reader⟩

end Ffos.Kcall
