/-
Module: Ffos.Socket.AsyncSend
Purpose: Every call of `ffsock_send_async` and of `ffsock_sendv_async` is a step of a ledger
  whose background write has one byte, so what is handed to the socket is the acknowledged
  part of the data and at most the next byte.
Trusted boundary: none
Main exports: Net.Shows, Sender.Sound, sendAsync_sound, sendvAsync_sound, async_send_exact
-/
import Ffos.Lib.Ledger
import Ffos.Socket.Iovec

namespace Ffos.Socket

open Ffos.Lib

/-! ### The ledger behind the task -/

/-- The ledger that the socket and the task amount to. -/
inductive Net.Shows (net : Net) : Ledger Byte → Prop where
  | idle (inactive : net.active = 0) (noWrite : ∀ len, net.overlapped ≠ .running len) :
      Shows net ⟨net.taken, none⟩
  | running (bytes : List Byte) (active : net.active = 1)
      (writes : net.overlapped = .running bytes.length)
      (inBuf : net.buf.take bytes.length = bytes) :
      Shows net ⟨net.taken, some (.running bytes)⟩
  | finished (sent : Nat) (active : net.active = 1) (wrote : net.overlapped = .finished sent) :
      Shows net ⟨net.taken, some (.finished sent)⟩

/-- What was handed to the socket is what the ledger has handed over. -/
theorem Net.Shows.handed_eq {net : Net} {ledger : Ledger Byte} (showing : net.Shows ledger) :
    net.handed = ledger.handed := by
  cases showing with
  | idle inactive noWrite =>
      unfold Net.handed
      split
      case h_1 len writes => exact absurd writes (noWrite len)
      case h_2 => rfl
  | running bytes active writes inBuf =>
      rw [Net.handed, writes]
      exact congrArg (net.taken ++ ·) inBuf
  | finished sent active wrote => rw [Net.handed, wrote, Ledger.handed]

/-- The bytes that a result acknowledges. -/
def acknowledged (r : Int) : Option Nat := if 0 ≤ r then some r.toNat else none

@[simp] theorem acknowledged_ofNat (sent : Nat) : acknowledged sent = some sent := by
  simp [acknowledged]

@[simp] theorem acknowledged_neg_one : acknowledged (-1) = none := by decide

/-! ### The parts of the functions -/

/-- Asking for the result of the background write is a step, whatever there is to send. -/
theorem Net.asyncResult_step {net after : Net} {ledger : Ledger Byte} {os : Os} {r : Int}
    (showing : net.Shows ledger) (inUse : net.active ≠ 0)
    (call : net.asyncResult os = some (r, after)) (rest : List Byte) :
    ∃ next, Ledger.Step 1 rest ledger (acknowledged r) next ∧ after.Shows next := by
  rcases os with ⟨_, _, answer⟩
  cases showing with
  | idle inactive noWrite => exact absurd inactive inUse
  | running bytes active writes inBuf =>
      cases answer with
      | ok sent =>
          simp only [Net.asyncResult, Net.getOverlappedResult, writes] at call
          by_cases within : sent ≤ bytes.length
          · simp only [if_pos within, Option.some.injEq, Prod.mk.injEq] at call
            obtain ⟨rfl, rfl⟩ := call
            have part : net.buf.take sent = bytes.take sent := by
              rw [← inBuf, List.take_take, Nat.min_eq_left within]
            refine ⟨_, by rw [acknowledged_ofNat]; exact .finish sent within, ?_⟩
            rw [← part]
            exact .idle rfl (by simp)
          · simp only [if_neg within] at call
            cases call
      | fails error =>
          simp only [Net.asyncResult, Net.getOverlappedResult, writes] at call
          by_cases incomplete : error = errorIoIncomplete
          · simp only [if_pos incomplete, Option.some.injEq, Prod.mk.injEq] at call
            obtain ⟨rfl, rfl⟩ := call
            exact ⟨_, by rw [acknowledged_neg_one]; exact .wait _, .running bytes active rfl inBuf⟩
          · simp only [if_neg incomplete, Option.some.injEq, Prod.mk.injEq] at call
            obtain ⟨rfl, rfl⟩ := call
            exact ⟨_, by rw [acknowledged_neg_one]; exact .lose, .idle rfl (by simp)⟩
  | finished sent active wrote =>
      cases answer with
      | ok reported =>
          simp only [Net.asyncResult, Net.getOverlappedResult, wrote] at call
          by_cases same : reported = sent
          · simp only [if_pos same, Option.some.injEq, Prod.mk.injEq] at call
            obtain ⟨rfl, rfl⟩ := call
            subst same
            exact ⟨_, by rw [acknowledged_ofNat]; exact .collect reported,
              .idle rfl (by simp [wrote])⟩
          · simp only [if_neg same] at call
            cases call
      | fails error =>
          simp only [Net.asyncResult, Net.getOverlappedResult, wrote] at call
          by_cases incomplete : error = errorIoIncomplete
          · simp only [if_pos incomplete, Option.some.injEq, Prod.mk.injEq] at call
            obtain ⟨rfl, rfl⟩ := call
            exact ⟨_, by rw [acknowledged_neg_one]; exact .wait _, .finished sent active rfl⟩
          · simp only [if_neg incomplete] at call
            cases call

/-- Starting a write of the next byte is a step. -/
theorem Net.startWrite_step {net after : Net} {os : Os} {r : Int} {len : Nat}
    {taken rest : List Byte} (same : net.taken = taken) (inactive : net.active = 0)
    (zero : net.overlapped = .zero)
    (length : (rest.take 1).length = len) (inBuf : net.buf.take len = rest.take 1)
    (call : net.startWrite os len = some (r, after)) :
    ∃ next, Ledger.Step 1 rest ⟨taken, none⟩ (acknowledged r) next ∧ after.Shows next := by
  subst same
  rcases os with ⟨_, answer, _⟩
  cases answer with
  | ok sent =>
      simp only [Net.startWrite, Net.writeFile] at call
      by_cases within : sent ≤ len
      · simp only [if_pos within, Option.some.injEq, Prod.mk.injEq] at call
        obtain ⟨rfl, rfl⟩ := call
        have part : net.buf.take sent = (rest.take 1).take sent := by
          rw [← inBuf, List.take_take, Nat.min_eq_left within]
        refine ⟨_, by rw [acknowledged_neg_one]; exact .startFinished sent (by omega), ?_⟩
        rw [← part]
        exact .finished sent rfl rfl
      · simp only [if_neg within] at call
        cases call
  | fails error =>
      simp only [Net.startWrite, Net.writeFile] at call
      by_cases pending : error = errorIoPending
      · simp only [ne_eq, pending, not_true, if_false, if_true, Option.some.injEq,
          Prod.mk.injEq] at call
        obtain ⟨rfl, rfl⟩ := call
        refine ⟨_, by rw [acknowledged_neg_one]; exact .start, ?_⟩
        exact .running _ rfl (by rw [length]) (by rw [length]; exact inBuf)
      · simp only [ne_eq, pending, not_false_iff, if_true, if_false, Option.some.injEq,
          Prod.mk.injEq] at call
        obtain ⟨rfl, rfl⟩ := call
        exact ⟨_, by rw [acknowledged_neg_one]; exact .refuse, .idle inactive (by simp [zero])⟩

/-- A task that is not in use shows a ledger without a background write. -/
theorem Net.Shows.eq_idle {net : Net} {ledger : Ledger Byte} (showing : net.Shows ledger)
    (inactive : net.active = 0) :
    ledger = ⟨net.taken, none⟩ ∧ ∀ len, net.overlapped ≠ .running len := by
  cases showing with
  | idle _ noWrite => exact ⟨rfl, noWrite⟩
  | running bytes active => rw [inactive] at active; cases active
  | finished sent active => rw [inactive] at active; cases active

theorem ffmemCopy_take (dst : List Byte) {src : List Byte} {len : Nat} (fits : len ≤ src.length) :
    (ffmemCopy dst src len).take len = src.take len := by
  rw [ffmemCopy, List.take_append_of_le_length (by rw [List.length_take]; omega), List.take_take,
    Nat.min_self]

theorem take_min_length (bytes : List Byte) (count : Nat) :
    bytes.take (min bytes.length count) = bytes.take count := by
  by_cases fits : count ≤ bytes.length
  · rw [Nat.min_eq_right fits]
  · rw [Nat.min_eq_left (by omega), List.take_length, List.take_of_length_le (by omega)]

/-! ### The two functions -/

/-- As an `int`, a length is at most itself. -/
theorem toInt_ofNat_le (len : Nat) : (BitVec.ofNat 32 len).toInt ≤ len := by
  have small : len % 2 ^ 32 ≤ len := Nat.mod_le _ _
  rw [BitVec.toInt_eq_toNat_cond, BitVec.toNat_ofNat]
  split <;> omega

/-- A call of `ffsock_send_async` is a step. -/
theorem ffsockSendAsync_step {net after : Net} {ledger : Ledger Byte} {os : Os} {r : Int}
    {buf : List Byte} (showing : net.Shows ledger)
    (call : ffsockSendAsync os buf net = some (r, after)) :
    ∃ next, Ledger.Step 1 buf ledger (acknowledged r) next ∧ after.Shows next := by
  by_cases inUse : net.active ≠ 0
  · rw [ffsockSendAsync, if_pos inUse] at call
    exact Net.asyncResult_step showing inUse call buf
  · have inactive : net.active = 0 := by omega
    obtain ⟨rfl, noWrite⟩ := showing.eq_idle inactive
    rw [ffsockSendAsync, if_neg inUse] at call
    cases answer : os.send with
    | ok sent =>
        simp only [Net.send, answer] at call
        by_cases within : (sent : Int) ≤ (BitVec.ofNat 32 (min buf.length 0xffffffff)).toInt
        · have fits : sent ≤ buf.length := by
            have bound := toInt_ofNat_le (min buf.length 0xffffffff)
            omega
          have notNegative : ¬((sent : Int) < 0 ∧ net.lastError = wsaeWouldBlock) := by omega
          simp only [if_pos within, if_pos notNegative, Option.some.injEq, Prod.mk.injEq] at call
          obtain ⟨rfl, rfl⟩ := call
          exact ⟨_, by rw [acknowledged_ofNat]; exact .accept sent fits, .idle inactive noWrite⟩
        · simp only [if_neg within] at call
          cases call
    | fails error =>
        simp only [Net.send, answer] at call
        by_cases wouldBlock : error = wsaeWouldBlock
        · have again : ¬¬((-1 : Int) < 0 ∧ error = wsaeWouldBlock) := by simp [wouldBlock]
          simp only [if_neg again] at call
          have length : min (min buf.length 0xffffffff) bufSize = min buf.length 1 := by
            simp only [bufSize]
            omega
          rw [length] at call
          refine Net.startWrite_step ?_ ?_ ?_ ?_ ?_ call
          · rfl
          · exact inactive
          · rfl
          · rw [List.length_take, Nat.min_comm]
          · exact (ffmemCopy_take net.buf (Nat.min_le_left _ _)).trans (take_min_length buf 1)
        · have other : ¬((-1 : Int) < 0 ∧ error = wsaeWouldBlock) := by simp [wouldBlock]
          simp only [if_pos other, Option.some.injEq, Prod.mk.injEq] at call
          obtain ⟨rfl, rfl⟩ := call
          exact ⟨_, by rw [acknowledged_neg_one]; exact .refuse, .idle inactive noWrite⟩

/-- The next byte of all buffers is in the first one that has any. -/
theorem take_one_flatten (iov : List (List Byte)) :
    iov.flatten.take 1 = (firstNonEmpty iov).take 1 := by
  induction iov with
  | nil => rfl
  | cons first rest inductionHypothesis =>
      rw [List.flatten_cons, firstNonEmpty]
      cases first with
      | nil => simpa using inductionHypothesis
      | cons byte bytes => rfl

/-- A call of `ffsock_sendv_async` is a step. -/
theorem ffsockSendvAsync_step {net after : Net} {ledger : Ledger Byte} {os : Os} {r : Int}
    {iov : List (List Byte)} (showing : net.Shows ledger)
    (call : ffsockSendvAsync os iov net = some (r, after)) :
    ∃ next, Ledger.Step 1 iov.flatten ledger (acknowledged r) next ∧ after.Shows next := by
  by_cases inUse : net.active ≠ 0
  · rw [ffsockSendvAsync, if_pos inUse] at call
    exact Net.asyncResult_step showing inUse call iov.flatten
  · have inactive : net.active = 0 := by omega
    obtain ⟨rfl, noWrite⟩ := showing.eq_idle inactive
    rw [ffsockSendvAsync, if_neg inUse] at call
    cases answer : os.send with
    | ok sent =>
        simp only [Net.wsaSend, answer] at call
        by_cases within : sent ≤ iov.flatten.length ∧ sent < 2 ^ 32
        · simp only [if_pos within, Option.some.injEq, Prod.mk.injEq] at call
          obtain ⟨rfl, rfl⟩ := call
          exact ⟨_, by rw [acknowledged_ofNat]; exact .accept sent within.1,
            .idle inactive noWrite⟩
        · simp only [if_neg within] at call
          cases call
    | fails error =>
        simp only [Net.wsaSend, answer] at call
        by_cases wouldBlock : error = wsaeWouldBlock
        · simp only [ne_eq, wouldBlock, not_true, if_false, bufSize] at call
          by_cases nothing : min (firstNonEmpty iov).length 1 = 0
          · simp only [if_pos nothing, Option.some.injEq, Prod.mk.injEq] at call
            obtain ⟨rfl, rfl⟩ := call
            refine ⟨⟨net.taken, none⟩, ?_, .idle inactive noWrite⟩
            have step := @Ledger.Step.accept Byte 1 iov.flatten net.taken 0 (Nat.zero_le _)
            rwa [List.take_zero, List.append_nil] at step
          · simp only [if_neg nothing] at call
            refine Net.startWrite_step ?_ ?_ ?_ ?_ ?_ call
            · rfl
            · exact inactive
            · rfl
            · rw [take_one_flatten, List.length_take, Nat.min_comm]
            · rw [take_one_flatten]
              exact (ffmemCopy_take net.buf (Nat.min_le_left _ _)).trans (take_min_length _ 1)
        · simp only [ne_eq, wouldBlock, not_false_iff, if_true, Option.some.injEq,
            Prod.mk.injEq] at call
          obtain ⟨rfl, rfl⟩ := call
          exact ⟨_, by rw [acknowledged_neg_one]; exact .refuse, .idle inactive noWrite⟩

/-! ### Whole runs -/

/-- Every call is a step of the ledger, and advancing drops what was acknowledged. -/
structure Sender.Sound (sender : Sender) : Prop where
  call_step : ∀ {os : Os} {data : sender.Data} {net after : Net} {r : Int} {ledger : Ledger Byte},
    net.Shows ledger → sender.call os data net = some (r, after) →
      ∃ next, Ledger.Step 1 (sender.content data) ledger (acknowledged r) next ∧ after.Shows next
  content_advance : ∀ data count,
    sender.content (sender.advance data count) = (sender.content data).drop count

theorem sendAsync_sound : sendAsync.Sound where
  call_step := ffsockSendAsync_step
  content_advance _ _ := rfl

theorem sendvAsync_sound : sendvAsync.Sound where
  call_step := ffsockSendvAsync_step
  content_advance := flatten_ffiovecArrayShift

/-- The socket has a balanced ledger for the data, and the caller has the rest of it. -/
def Caller.InStep {sender : Sender} (data : List Byte) (caller : Caller sender) : Prop :=
  sender.content caller.rest = data.drop caller.acked ∧
    ∃ ledger, caller.net.Shows ledger ∧ ledger.Balanced 1 data caller.acked

theorem Caller.Fresh.inStep {sender : Sender} {caller : Caller sender} (fresh : caller.Fresh) :
    caller.InStep (sender.content caller.rest) := by
  refine ⟨by rw [fresh.nothingAcked, List.drop_zero], _,
    .idle fresh.inactive fresh.noWrite, ?_⟩
  simp [Ledger.Balanced, fresh.nothingAcked, fresh.nothingTaken]

/-- One call keeps the caller and the socket in step. -/
theorem Caller.InStep.call {sender : Sender} (sound : sender.Sound) {data : List Byte}
    {before after : Caller sender} {os : Os} (inStep : before.InStep data)
    (called : before.call os = some after) : after.InStep data := by
  obtain ⟨content, ledger, showing, balanced⟩ := inStep
  unfold Caller.call at called
  split at called
  · cases called
  · split at called
    · cases called
    case h_2 r net result =>
      obtain ⟨next, step, showingNext⟩ := sound.call_step showing result
      rw [content] at step
      have balancedNext := step.balanced balanced
      by_cases acknowledges : 0 ≤ r
      · rw [if_pos acknowledges] at called
        obtain rfl := Option.some.inj called
        rw [acknowledged, if_pos acknowledges, Option.getD_some] at balancedNext
        exact ⟨by rw [sound.content_advance, content, List.drop_drop], next, showingNext,
          balancedNext⟩
      · rw [if_neg acknowledges] at called
        obtain rfl := Option.some.inj called
        rw [acknowledged, if_neg acknowledges, Option.getD_none, Nat.add_zero] at balancedNext
        exact ⟨content, next, showingNext, balancedNext⟩

/-- What was handed to the socket is the acknowledged part of the data, followed by at most
the next byte while the task is active. -/
def Caller.Exact {sender : Sender} (data : List Byte) (caller : Caller sender) : Prop :=
  caller.acked ≤ data.length ∧
    (caller.net.handed = data.take caller.acked ∨
      caller.net.active = 1 ∧ ∃ byte, data[caller.acked]? = some byte ∧
        caller.net.handed = data.take caller.acked ++ [byte])

theorem Caller.InStep.exact {sender : Sender} {data : List Byte} {caller : Caller sender}
    (inStep : caller.InStep data) : caller.Exact data := by
  obtain ⟨_, ledger, showing, balanced⟩ := inStep
  obtain ⟨ahead, few, bound, handed, none⟩ := balanced.handed_eq
  rw [← showing.handed_eq] at handed
  refine ⟨by omega, ?_⟩
  by_cases zero : ahead = 0
  · exact .inl (by rw [handed, zero, Nat.add_zero])
  · obtain rfl : ahead = 1 := by omega
    have inside : caller.acked < data.length := by omega
    refine .inr ⟨?_, data[caller.acked], List.getElem?_eq_getElem inside, ?_⟩
    · cases showing with
      | idle => exact absurd (none rfl) zero
      | running _ active => exact active
      | finished _ active => exact active
    · rw [handed, List.take_add_one, List.getElem?_eq_getElem inside, Option.toList_some]

/-- The runs of the caller: one call after the other, each with some answers of the
system. -/
def Caller.Calls {sender : Sender} (before : Caller sender) (os : Os) (after : Caller sender) :
    Prop :=
  before.call os = some after

theorem Sender.Sound.exact {sender : Sender} (sound : sender.Sound) {start final : Caller sender}
    {trace : List Os} (fresh : start.Fresh) (run : Run Caller.Calls start trace final) :
    final.Exact (sender.content start.rest) := by
  have inStep := run.invariant (Caller.InStep (sender.content start.rest)) fresh.inStep
    (fun _ _ _ before called => before.call sound called)
  exact inStep.exact

/-- Neither function loses or repeats a byte, for any data, any array of buffers and any
answers of the system. -/
theorem async_send_exact :
    (∀ (start final : Caller sendAsync) (trace : List Os), start.Fresh →
      Run Caller.Calls start trace final → final.Exact start.rest) ∧
    (∀ (start final : Caller sendvAsync) (trace : List Os), start.Fresh →
      Run Caller.Calls start trace final → final.Exact start.rest.flatten) :=
  ⟨fun _ _ _ fresh run => sendAsync_sound.exact fresh run,
    fun _ _ _ fresh run => sendvAsync_sound.exact fresh run⟩

/-- A socket and a task that were not used yet. -/
def Net.fresh : Net := ⟨[], 0, [0], .zero, 0⟩

/-- One byte is accepted, and then a write of the next one is under way. -/
def acceptThenBlock : List Os :=
  [⟨.ok 1, .fails 0, .fails 0⟩,
    ⟨.fails wsaeWouldBlock, .fails errorIoPending, .fails 0⟩,
    ⟨.fails 0, .fails 0, .fails errorIoIncomplete⟩]

theorem async_send_exact_while_writing :
    (∃ final : Caller sendAsync, Run Caller.Calls ⟨.fresh, [1, 2, 3], 0, false⟩ acceptThenBlock final ∧
      final.acked = 1 ∧ final.net.active = 1 ∧ final.net.handed = [1, 2] ∧
      final.Exact [1, 2, 3]) ∧
    ∃ final : Caller sendvAsync,
      Run Caller.Calls ⟨.fresh, [[], [1], [], [2, 3]], 0, false⟩ acceptThenBlock final ∧
      final.acked = 1 ∧ final.net.active = 1 ∧ final.net.handed = [1, 2] ∧
      final.Exact [1, 2, 3] := by
  constructor
  · have possible : (fireAll Caller.call (⟨.fresh, [1, 2, 3], 0, false⟩ : Caller sendAsync)
        acceptThenBlock).map (fun final => (final.acked, final.net.active, final.net.handed)) =
          some (1, 1, [1, 2]) := by decide
    obtain ⟨final, fired, shape⟩ := Option.map_eq_some_iff.mp possible
    simp only [Prod.mk.injEq] at shape
    have run := Run.of_fireAll (fun _ _ _ called => called) fired
    exact ⟨final, run, shape.1, shape.2.1, shape.2.2,
      async_send_exact.1 _ final _ ⟨rfl, rfl, by simp [Net.fresh], rfl⟩ run⟩
  · have possible : (fireAll Caller.call (⟨.fresh, [[], [1], [], [2, 3]], 0, false⟩ :
        Caller sendvAsync) acceptThenBlock).map
          (fun final => (final.acked, final.net.active, final.net.handed)) =
          some (1, 1, [1, 2]) := by decide
    obtain ⟨final, fired, shape⟩ := Option.map_eq_some_iff.mp possible
    simp only [Prod.mk.injEq] at shape
    have run := Run.of_fireAll (fun _ _ _ called => called) fired
    exact ⟨final, run, shape.1, shape.2.1, shape.2.2,
      async_send_exact.2 _ final _ ⟨rfl, rfl, by simp [Net.fresh], rfl⟩ run⟩

end Ffos.Socket
