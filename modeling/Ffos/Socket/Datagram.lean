/-
Module: Ffos.Socket.Datagram
Purpose: `ffsock_recv_udp_async` and `ffsock_recvfrom_async` of FFOS/socket.h on Windows: in
  any run every datagram that comes is returned whole, once and in its order, or reported
  as too long.
Trusted boundary: `recv`, `recvfrom`, `ReadFile` and `WSARecvFrom` on a socket: one datagram at
  a time, and an error of its own for one that is too long; the caller keeps its buffer
  and its address until the packet, as the header asks
Main exports: Datagram, Endpoint, recvDatagramAsync, ffsockRecvUdpAsync,
  ffsockRecvfromAsync, recvDatagramAsync_honest, accounted, datagrams_accounted
-/
import Ffos.Socket.Receive

namespace Ffos.Socket.Receive

open Ffos.Lib Ffos.Kqtask

def wsaeMsgSize : Nat := 10040
def errorMoreData : Nat := 234

/-- `sizeof(struct sockaddr_in6)`. -/
def sockaddrIn6Size : Nat := 28

/-! ### The functions -/

/-- A datagram and the address that it is from. -/
structure Datagram where
  bytes : List Byte
  peer : List Byte
deriving DecidableEq, Repr

/-- A socket for datagrams, with what the caller gives it: the datagrams that have come,
those of them that were not taken, the buffer, and `peer_addr` with its length. -/
structure Endpoint where
  arrived : List Datagram
  queue : List Datagram
  buf : List Byte
  peerAddr : List Byte
  peerLen : Nat
deriving DecidableEq, Repr

/-- Write `peer_addr->len`, for the function that has a `peer_addr`. -/
def Endpoint.setPeerLen (withPeer : Bool) (len : Nat) (endpoint : Endpoint) : Endpoint :=
  if withPeer then { endpoint with peerLen := len } else endpoint

/-- The system takes the next datagram, into a buffer of `len` bytes: how that ends and
the length of the address. -/
def Endpoint.deliver (withPeer : Bool) (len tooLong : Nat) (endpoint : Endpoint) :
    Option (IoResult × Nat × Endpoint) :=
  match endpoint.queue with
  | [] => none
  | datagram :: rest =>
      some (
        if datagram.bytes.length ≤ len then .finished datagram.bytes.length else .failed tooLong,
        datagram.peer.length,
        { endpoint with
          queue := rest
          buf := ffmemCopy endpoint.buf datagram.bytes (min len datagram.bytes.length)
          peerAddr :=
            if withPeer then ffmemCopy endpoint.peerAddr datagram.peer datagram.peer.length
            else endpoint.peerAddr })

/-- The common body of the two functions: the operation takes the datagram itself. -/
def recvDatagramAsync (withPeer : Bool) : TaskCode Endpoint Nat Os where
  finish _ read := some read
  attempt os cap endpoint :=
    match os.recv with
    | some error =>
        if error = wsaeWouldBlock then .goesOn endpoint
        else .returns (-1) (some error) (endpoint.setPeerLen withPeer sockaddrIn6Size)
    | none =>
        match endpoint.deliver withPeer (recvLen cap).toNat wsaeMsgSize with
        | none => .goesOn endpoint
        | some (.finished r, size, endpoint) =>
            .returns r none (endpoint.setPeerLen withPeer size)
        | some (.failed error, size, endpoint) =>
            .returns (-1) (some error) (endpoint.setPeerLen withPeer size)
  begin os cap endpoint :=
    let endpoint := endpoint.setPeerLen withPeer sockaddrIn6Size
    match os.readFile with
    | some error => (.failed error, endpoint)
    | none =>
        match endpoint.deliver withPeer (min cap 0xffffffff) errorMoreData with
        | none => (.pending, endpoint)
        | some (.finished read, size, endpoint) =>
            (.done read, endpoint.setPeerLen withPeer size)
        | some (.failed error, size, endpoint) =>
            (.failed error, endpoint.setPeerLen withPeer size)
  doneError := some Kqtask.errorIoPending

/-- `ffsock_recv_udp_async`. -/
def ffsockRecvUdpAsync : TaskCode Endpoint Nat Os := recvDatagramAsync false

/-- `ffsock_recvfrom_async`. -/
def ffsockRecvfromAsync : TaskCode Endpoint Nat Os := recvDatagramAsync true

/-! ### The system around them -/

/-- An error that has nothing to do with a datagram, nor with an operation under way. -/
def Plain (error : Nat) : Prop :=
  error ≠ wsaeMsgSize ∧ error ≠ errorMoreData ∧ error ≠ Kqtask.errorIoPending ∧
    error ≠ Kqtask.errorIoIncomplete

/-- A socket on which datagrams come, and a caller with room for `limit` bytes at least in
every call. An operation ends with the next datagram, or fails. -/
def datagramWorld (withPeer : Bool) (limit : Nat) : World Endpoint Nat Os Datagram where
  proper os cap :=
    (∀ error, os.recv = some error → Plain error) ∧
      (∀ error, os.readFile = some error → Plain error) ∧ limit ≤ recvLen cap
  completes cap before outcome after :=
    (∃ size endpoint,
      before.deliver withPeer (min cap 0xffffffff) errorMoreData = some (outcome, size, endpoint) ∧
        after = endpoint.setPeerLen withPeer size) ∨
      ∃ error, outcome = .failed error ∧ Plain error ∧ after = before
  changes datagram before after :=
    after = { before with
      arrived := before.arrived ++ [datagram], queue := before.queue ++ [datagram] }

@[simp] theorem setPeerLen_arrived (withPeer : Bool) (len : Nat) (endpoint : Endpoint) :
    (endpoint.setPeerLen withPeer len).arrived = endpoint.arrived := by
  cases withPeer <;> rfl

@[simp] theorem setPeerLen_queue (withPeer : Bool) (len : Nat) (endpoint : Endpoint) :
    (endpoint.setPeerLen withPeer len).queue = endpoint.queue := by
  cases withPeer <;> rfl

@[simp] theorem setPeerLen_buf (withPeer : Bool) (len : Nat) (endpoint : Endpoint) :
    (endpoint.setPeerLen withPeer len).buf = endpoint.buf := by
  cases withPeer <;> rfl

@[simp] theorem setPeerLen_peerAddr (withPeer : Bool) (len : Nat) (endpoint : Endpoint) :
    (endpoint.setPeerLen withPeer len).peerAddr = endpoint.peerAddr := by
  cases withPeer <;> rfl

/-- The caller has a datagram: in its buffer, and with its address if it asked for one. -/
structure Endpoint.Has (withPeer : Bool) (datagram : Datagram) (endpoint : Endpoint) : Prop where
  bytes : endpoint.buf.take datagram.bytes.length = datagram.bytes
  peer : withPeer = true → endpoint.peerAddr.take endpoint.peerLen = datagram.peer

/-- What it means that the system takes a datagram: it is the next one, and the caller
has it or it was too long. -/
theorem Endpoint.deliver_eq {withPeer : Bool} {len tooLong size : Nat} {outcome : IoResult}
    {endpoint after : Endpoint}
    (delivered : endpoint.deliver withPeer len tooLong = some (outcome, size, after)) :
    ∃ datagram, endpoint.queue = datagram :: after.queue ∧ after.arrived = endpoint.arrived ∧
      (outcome = .finished datagram.bytes.length ∧
          (after.setPeerLen withPeer size).Has withPeer datagram ∨
        outcome = .failed tooLong ∧ len < datagram.bytes.length) := by
  unfold Endpoint.deliver at delivered
  split at delivered
  case h_1 => cases delivered
  case h_2 datagram rest queue =>
    simp only [Option.some.injEq, Prod.mk.injEq] at delivered
    obtain ⟨outcomeEq, rfl, rfl⟩ := delivered
    refine ⟨datagram, queue, rfl, ?_⟩
    by_cases fits : datagram.bytes.length ≤ len
    · rw [if_pos fits] at outcomeEq
      refine .inl ⟨outcomeEq.symm, ?_, ?_⟩
      · rw [setPeerLen_buf, Nat.min_eq_right fits, ffmemCopy_take _ (Nat.le_refl _),
          List.take_length]
      · rintro rfl
        rw [setPeerLen_peerAddr]
        simp only [if_true, Endpoint.setPeerLen]
        rw [ffmemCopy_take _ (Nat.le_refl _), List.take_length]
    · rw [if_neg fits] at outcomeEq
      exact .inr ⟨outcomeEq.symm, Nat.lt_of_not_le fits⟩

theorem recvDatagramAsync_honest (withPeer : Bool) (limit : Nat) :
    Honest (recvDatagramAsync withPeer) (datagramWorld withPeer limit) where
  finish _ _ _ _ _ finish := by
    cases finish
    exact Int.natCast_nonneg _
  attempt os cap endpoint r error after proper attempt := by
    simp only [recvDatagramAsync] at attempt
    split at attempt
    case h_1 code recv =>
      split at attempt
      · cases attempt
      · cases attempt
        exact .inr ⟨code, rfl, (proper.1 code recv).2.2.1⟩
    case h_2 =>
      split at attempt
      case h_1 => cases attempt
      case h_2 =>
        cases attempt
        exact .inl (Int.natCast_nonneg _)
      case h_3 code size endpoint delivered =>
        cases attempt
        refine .inr ⟨code, rfl, ?_⟩
        obtain ⟨_, _, _, ⟨finished, _⟩ | ⟨failed, _⟩⟩ := Endpoint.deliver_eq delivered
        · cases finished
        · obtain rfl := IoResult.failed.inj failed
          decide
  failed os cap endpoint error after proper begin := by
    simp only [recvDatagramAsync] at begin
    split at begin
    case h_1 code readFile =>
      cases begin
      exact (proper.2.1 _ readFile).2.2.1
    case h_2 =>
      split at begin
      case h_1 => cases begin
      case h_2 => cases begin
      case h_3 code size endpoint delivered =>
        cases begin
        obtain ⟨_, _, _, ⟨finished, _⟩ | ⟨failed, _⟩⟩ := Endpoint.deliver_eq delivered
        · cases finished
        · obtain rfl := IoResult.failed.inj failed
          decide
  returns os cap endpoint r after _ begin := by
    simp only [recvDatagramAsync] at begin
    split at begin
    · cases begin
    · split at begin <;> cases begin
  completes cap before outcome after completes := by
    rcases completes with ⟨size, endpoint, delivered, _⟩ | ⟨error, rfl, plain, _⟩
    · obtain ⟨_, _, _, ⟨rfl, _⟩ | ⟨rfl, _⟩⟩ := Endpoint.deliver_eq delivered
      · exact ⟨nofun, nofun⟩
      · exact ⟨by decide, by decide⟩
    · exact ⟨fun same => plain.2.2.2 (IoResult.failed.inj same),
        fun same => plain.2.2.1 (IoResult.failed.inj same)⟩

/-! ### What is accounted for -/

/-- A call that returns a datagram says so by its result, with what the caller then has;
one that was too long has two errors of its own. -/
def accountedBy : TaskEvent Endpoint Nat Datagram → List (Option Datagram)
  | .call _ called =>
      if 0 ≤ called.r then
        [some ⟨called.after.env.buf.take called.r.toNat,
          called.after.env.peerAddr.take called.after.env.peerLen⟩]
      else if called.after.lastError = wsaeMsgSize ∨ called.after.lastError = errorMoreData then
        [none]
      else []
  | _ => []

/-- The datagrams returned or reported as too long, call after call. -/
def accounted (trace : List (TaskEvent Endpoint Nat Datagram)) : List (Option Datagram) :=
  trace.flatMap accountedBy

/-- A datagram is accounted for: returned whole, with its address if it was asked for, or
reported because it has more than `limit` bytes. -/
def Accounts (withPeer : Bool) (limit : Nat) (entry : Option Datagram) (datagram : Datagram) :
    Prop :=
  match entry with
  | some got => got.bytes = datagram.bytes ∧ (withPeer = true → got.peer = datagram.peer)
  | none => limit < datagram.bytes.length

/-- The datagrams that the operation has taken for the caller, which does not know yet. -/
inductive Holds (withPeer : Bool) (limit : Nat) (sys : TaskSys Endpoint Nat) :
    List Datagram → Prop where
  | idle (active : sys.task.active = 0) : Holds withPeer limit sys []
  | running {cap : Nat} (active : sys.task.active = 1)
      (overlapped : sys.task.overlapped = .running cap) (room : limit ≤ min cap 0xffffffff) :
      Holds withPeer limit sys []
  | got {datagram : Datagram} (active : sys.task.active = 1)
      (overlapped : sys.task.overlapped = .ended (.finished datagram.bytes.length))
      (has : sys.env.Has withPeer datagram) : Holds withPeer limit sys [datagram]
  | tooLong {datagram : Datagram} (active : sys.task.active = 1)
      (overlapped : sys.task.overlapped = .ended (.failed errorMoreData))
      (long : limit < datagram.bytes.length) :
      Holds withPeer limit sys [datagram]
  | failed {error : Nat} (active : sys.task.active = 1)
      (overlapped : sys.task.overlapped = .ended (.failed error)) (plain : Plain error) :
      Holds withPeer limit sys []

/-- What a call does with the queue: it takes datagrams from its front, which it accounts
for or has the task hold. -/
def Takes (withPeer : Bool) (limit : Nat) (before : Endpoint) (called : Called Endpoint Nat)
    (cap : Nat) : Prop :=
  called.after.env.arrived = before.arrived ∧
    ∃ taken held, before.queue = taken ++ held ++ called.after.env.queue ∧
      List.Forall₂ (Accounts withPeer limit) (accountedBy (.call cap called)) taken ∧
      Holds withPeer limit called.after held

/-- A result that stands for no datagram. -/
theorem accountedBy_silent {cap : Nat} {called : Called Endpoint Nat} (negative : called.r < 0)
    (notSize : called.after.lastError ≠ wsaeMsgSize)
    (notMore : called.after.lastError ≠ errorMoreData) : accountedBy (.call cap called) = [] := by
  simp only [accountedBy, if_neg (Int.not_le.mpr negative)]
  rw [if_neg]
  rintro (size | more)
  · exact notSize size
  · exact notMore more

theorem accountedBy_pending {cap : Nat} {called : Called Endpoint Nat} (negative : called.r < 0)
    (pending : called.after.lastError = Kqtask.errorIoPending) :
    accountedBy (.call cap called) = [] := by
  apply accountedBy_silent negative
  · rw [pending]
    decide
  · rw [pending]
    decide

/-- One that reports a datagram that was too long. -/
theorem accountedBy_tooLong {cap : Nat} {called : Called Endpoint Nat} (negative : called.r < 0)
    (error : called.after.lastError = wsaeMsgSize ∨ called.after.lastError = errorMoreData) :
    accountedBy (.call cap called) = [none] := by
  simp only [accountedBy, if_neg (Int.not_le.mpr negative), if_pos error]

/-- One that returns a datagram that the caller has. -/
theorem accountedBy_got {withPeer : Bool} {limit : Nat} {cap : Nat} {called : Called Endpoint Nat}
    {datagram : Datagram} (r : called.r = datagram.bytes.length)
    (has : called.after.env.Has withPeer datagram) :
    List.Forall₂ (Accounts withPeer limit) (accountedBy (.call cap called)) [datagram] := by
  simp only [accountedBy, r, if_pos (Int.natCast_nonneg _)]
  refine .cons ?_ .nil
  exact ⟨has.bytes, has.peer⟩

/-- The last error after a call that returns at once. -/
theorem Plain.silent {cap error : Nat} {called : Called Endpoint Nat} (plain : Plain error)
    (negative : called.r < 0) (same : called.after.lastError = error) :
    accountedBy (.call cap called) = [] :=
  accountedBy_silent negative (same ▸ plain.1) (same ▸ plain.2.1)

/-- The room in a proper call, for either way of receiving. -/
theorem room_of_proper {withPeer : Bool} {limit cap : Nat} {os : Os}
    (proper : (datagramWorld withPeer limit).proper os cap) :
    limit ≤ (recvLen cap).toNat ∧ limit ≤ min cap 0xffffffff := by
  have room := proper.2.2
  have fits : recvLen cap ≤ (min cap 0xffffffff : Nat) := toInt_ofNat_le _
  omega

/-- What the operation does, where a call gets that far. -/
theorem recvDatagramAsync_operation {withPeer : Bool} {limit : Nat} {os : Os} {cap : Nat}
    (proper : (datagramWorld withPeer limit).proper os cap) (collected : Option IoResult)
    {sys : TaskSys Endpoint Nat} (active : sys.task.active = 0)
    (goesOn : (recvDatagramAsync withPeer).attempt os cap sys.env = .goesOn sys.env) :
    Takes withPeer limit sys.env ((recvDatagramAsync withPeer).start os cap collected sys) cap := by
  cases readFile : os.readFile with
  | some error =>
      have plain := proper.2.1 error readFile
      have begin : (recvDatagramAsync withPeer).begin os cap sys.env =
          (.failed error, sys.env.setPeerLen withPeer sockaddrIn6Size) := by
        simp only [recvDatagramAsync, readFile]
      rw [TaskCode.start_failed goesOn begin]
      refine ⟨setPeerLen_arrived .., [], [], (setPeerLen_queue ..).symm, ?_, .idle active⟩
      rw [plain.silent (by simp) rfl]
      exact .nil
  | none =>
      cases delivered : (sys.env.setPeerLen withPeer sockaddrIn6Size).deliver withPeer
          (min cap 0xffffffff) errorMoreData with
      | none =>
          have begin : (recvDatagramAsync withPeer).begin os cap sys.env =
              (.pending, sys.env.setPeerLen withPeer sockaddrIn6Size) := by
            simp only [recvDatagramAsync, readFile, delivered]
          rw [TaskCode.start_pending goesOn begin]
          refine ⟨setPeerLen_arrived .., [], [], (setPeerLen_queue ..).symm, ?_,
            .running rfl rfl (room_of_proper proper).2⟩
          rw [accountedBy_pending (by simp) rfl]
          exact .nil
      | some result =>
          obtain ⟨outcome, size, after⟩ := result
          obtain ⟨datagram, queue, arrived, ended⟩ := Endpoint.deliver_eq delivered
          rw [setPeerLen_queue] at queue
          rw [setPeerLen_arrived] at arrived
          rcases ended with ⟨rfl, has⟩ | ⟨rfl, long⟩
          · have begin : (recvDatagramAsync withPeer).begin os cap sys.env =
                (.done datagram.bytes.length, after.setPeerLen withPeer size) := by
              simp only [recvDatagramAsync, readFile, delivered]
            rw [TaskCode.start_done goesOn begin]
            refine ⟨by simpa using arrived, [], [datagram], by simpa using queue, ?_,
              .got rfl rfl has⟩
            rw [accountedBy_pending (by simp) rfl]
            exact .nil
          · have begin : (recvDatagramAsync withPeer).begin os cap sys.env =
                (.failed errorMoreData, after.setPeerLen withPeer size) := by
              simp only [recvDatagramAsync, readFile, delivered]
            rw [TaskCode.start_failed goesOn begin]
            refine ⟨by simpa using arrived, [datagram], [], by simpa using queue, ?_,
              .idle active⟩
            rw [accountedBy_tooLong (by simp) (.inr rfl)]
            exact .cons (Nat.lt_of_le_of_lt (room_of_proper proper).2 long) .nil

/-- The second half of the functions. -/
theorem recvDatagramAsync_start {withPeer : Bool} {limit : Nat} {os : Os} {cap : Nat}
    (proper : (datagramWorld withPeer limit).proper os cap) (collected : Option IoResult)
    {sys : TaskSys Endpoint Nat} (active : sys.task.active = 0) :
    Takes withPeer limit sys.env ((recvDatagramAsync withPeer).start os cap collected sys) cap := by
  cases recv : os.recv with
  | some error =>
      have plain := proper.1 error recv
      by_cases blocks : error = wsaeWouldBlock
      · apply recvDatagramAsync_operation proper collected active
        simp only [recvDatagramAsync, recv, if_pos blocks]
      · have attempt : (recvDatagramAsync withPeer).attempt os cap sys.env =
            .returns (-1) (some error) (sys.env.setPeerLen withPeer sockaddrIn6Size) := by
          simp only [recvDatagramAsync, recv, if_neg blocks]
        rw [TaskCode.start_returns attempt]
        refine ⟨setPeerLen_arrived .., [], [], (setPeerLen_queue ..).symm, ?_, .idle active⟩
        rw [plain.silent (by simp) rfl]
        exact .nil
  | none =>
      cases delivered : sys.env.deliver withPeer (recvLen cap).toNat wsaeMsgSize with
      | none =>
          apply recvDatagramAsync_operation proper collected active
          simp only [recvDatagramAsync, recv, delivered]
      | some result =>
          obtain ⟨outcome, size, after⟩ := result
          obtain ⟨datagram, queue, arrived, ended⟩ := Endpoint.deliver_eq delivered
          rcases ended with ⟨rfl, has⟩ | ⟨rfl, long⟩
          · have attempt : (recvDatagramAsync withPeer).attempt os cap sys.env =
                .returns datagram.bytes.length none (after.setPeerLen withPeer size) := by
              simp only [recvDatagramAsync, recv, delivered]
            rw [TaskCode.start_returns attempt]
            refine ⟨by simpa using arrived, [datagram], [], by simpa using queue, ?_,
              .idle active⟩
            exact accountedBy_got rfl has
          · have attempt : (recvDatagramAsync withPeer).attempt os cap sys.env =
                .returns (-1) (some wsaeMsgSize) (after.setPeerLen withPeer size) := by
              simp only [recvDatagramAsync, recv, delivered]
            rw [TaskCode.start_returns attempt]
            refine ⟨by simpa using arrived, [datagram], [], by simpa using queue, ?_,
              .idle active⟩
            rw [accountedBy_tooLong (by simp) (.inl rfl)]
            exact .cons (Nat.lt_of_le_of_lt (room_of_proper proper).1 long) .nil

/-- A call accounts for what the task has held, and for what it takes itself. -/
theorem Holds.call {withPeer : Bool} {limit : Nat} {os : Os} {cap : Nat}
    {sys : TaskSys Endpoint Nat}
    {held : List Datagram} (holds : Holds withPeer limit sys held)
    (proper : (datagramWorld withPeer limit).proper os cap) :
    ((recvDatagramAsync withPeer).call os cap sys).after.env.arrived = sys.env.arrived ∧
      ∃ taken heldAfter,
        held ++ sys.env.queue =
          taken ++ heldAfter ++ ((recvDatagramAsync withPeer).call os cap sys).after.env.queue ∧
        List.Forall₂ (Accounts withPeer limit)
          (accountedBy (.call cap ((recvDatagramAsync withPeer).call os cap sys))) taken ∧
        Holds withPeer limit ((recvDatagramAsync withPeer).call os cap sys).after heldAfter := by
  cases holds with
  | idle active =>
      rw [TaskCode.call_idle active, List.nil_append]
      exact recvDatagramAsync_start proper none active
  | running active overlapped room =>
      rw [TaskCode.call_running active overlapped]
      refine ⟨rfl, [], [], rfl, ?_, .running active overlapped room⟩
      rw [accountedBy_pending (by simp) rfl]
      exact .nil
  | @got datagram active overlapped has =>
      rw [TaskCode.call_finished active overlapped rfl]
      exact ⟨rfl, [datagram], [], rfl, accountedBy_got rfl has, .idle rfl⟩
  | @tooLong datagram active overlapped long =>
      rw [TaskCode.call_failed active overlapped (by decide)]
      refine ⟨rfl, [datagram], [], rfl, ?_, .idle rfl⟩
      rw [accountedBy_tooLong (by simp) (.inr rfl)]
      exact .cons long .nil
  | @failed error active overlapped plain =>
      rw [TaskCode.call_failed active overlapped plain.2.2.2]
      refine ⟨rfl, [], [], rfl, ?_, .idle rfl⟩
      rw [plain.silent (by simp) rfl]
      exact .nil

/-- Where every datagram is: accounted for, held by the task, or in the queue. -/
def Placed (withPeer : Bool) (limit : Nat) (trace : List (TaskEvent Endpoint Nat Datagram))
    (sys : TaskSys Endpoint Nat) : Prop :=
  ∃ taken held, sys.env.arrived = taken ++ held ++ sys.env.queue ∧
    List.Forall₂ (Accounts withPeer limit) (accounted trace) taken ∧ Holds withPeer limit sys held

/-- The owner's waiting has nothing to do with what a task holds. -/
theorem Holds.of_task {withPeer : Bool} {limit : Nat} {sys after : TaskSys Endpoint Nat}
    {held : List Datagram}
    (holds : Holds withPeer limit sys held) (task : after.task = sys.task)
    (has : ∀ datagram, sys.env.Has withPeer datagram → after.env.Has withPeer datagram) :
    Holds withPeer limit after held := by
  cases holds with
  | idle active => exact .idle (task ▸ active)
  | running active overlapped room => exact .running (task ▸ active) (task ▸ overlapped) room
  | got active overlapped hasBefore =>
      exact .got (task ▸ active) (task ▸ overlapped) (has _ hasBefore)
  | tooLong active overlapped long => exact .tooLong (task ▸ active) (task ▸ overlapped) long
  | failed active overlapped plain => exact .failed (task ▸ active) (task ▸ overlapped) plain

theorem Placed.step {withPeer : Bool} {limit : Nat} {past : List (TaskEvent Endpoint Nat Datagram)}
    {before after : TaskSys Endpoint Nat} {event : TaskEvent Endpoint Nat Datagram}
    {outcomes : List IoResult} (tracked : Tracked before outcomes)
    (placed : Placed withPeer limit past before)
    (next : Step (recvDatagramAsync withPeer) (datagramWorld withPeer limit) before event after) :
    Placed withPeer limit (past ++ [event]) after := by
  obtain ⟨taken, held, arrived, entries, holds⟩ := placed
  unfold Placed accounted
  rw [List.flatMap_append, List.flatMap_singleton]
  cases next with
  | call os cap proper =>
      obtain ⟨arrivedSame, more, heldAfter, queue, entriesMore, holdsAfter⟩ := holds.call proper
      refine ⟨taken ++ more, heldAfter, ?_, List.rel_append entries entriesMore,
        holdsAfter.of_task rfl fun _ => id⟩
      dsimp only
      rw [arrivedSame, arrived, List.append_assoc, queue]
      simp only [List.append_assoc]
  | @complete cap outcome _ running completes =>
      -- The task is active: it has an operation under way.
      have active : before.task.active = 1 := by
        cases tracked with
        | unused _ still => exact absurd running (still _)
        | running active => exact active
        | ended active => exact active
      have nothing : held = [] ∧ limit ≤ min cap 0xffffffff := by
        cases holds with
        | idle inactive => exact absurd (inactive.symm.trans active) nofun
        | running _ overlapped room =>
            obtain rfl := Kqtask.Overlapped.running.inj (overlapped.symm.trans running)
            exact ⟨rfl, room⟩
        | got _ overlapped | tooLong _ overlapped | failed _ overlapped =>
            exact absurd (overlapped.symm.trans running) nofun
      obtain ⟨rfl, room⟩ := nothing
      rcases completes with ⟨size, endpoint, delivered, rfl⟩ | ⟨error, rfl, plain, rfl⟩
      · obtain ⟨datagram, queue, arrivedSame, ended⟩ := Endpoint.deliver_eq delivered
        refine ⟨taken, [datagram], ?_, by simpa [accountedBy, accounted] using entries, ?_⟩
        · simp only [setPeerLen_arrived, setPeerLen_queue]
          rw [arrivedSame, arrived, queue]
          simp
        · rcases ended with ⟨rfl, has⟩ | ⟨rfl, long⟩
          · exact .got active rfl has
          · exact .tooLong active rfl (Nat.lt_of_le_of_lt room long)
      · exact ⟨taken, [], arrived, by simpa [accountedBy, accounted] using entries,
          .failed active rfl plain⟩
  | packet =>
      exact ⟨taken, held, arrived, by simpa [accountedBy, accounted] using entries,
        holds.of_task rfl fun _ => id⟩
  | world changes =>
      obtain rfl := changes
      refine ⟨taken, held, ?_, by simpa [accountedBy, accounted] using entries,
        holds.of_task rfl fun _ has => ⟨has.bytes, has.peer⟩⟩
      dsimp only
      rw [arrived, List.append_assoc]

/-- A socket that nothing has come to, with a task that is not in use. -/
structure FreshEndpoint (sys : TaskSys Endpoint Nat) : Prop where
  task : sys.Fresh
  nothing : sys.env.arrived = [] ∧ sys.env.queue = []

theorem placed {withPeer : Bool} {limit : Nat} {start final : TaskSys Endpoint Nat}
    {trace : List (TaskEvent Endpoint Nat Datagram)} (fresh : FreshEndpoint start)
    (run : Run (Step (recvDatagramAsync withPeer) (datagramWorld withPeer limit)) start trace
      final) :
    Placed withPeer limit trace final := by
  induction run with
  | refl =>
      refine ⟨[], [], ?_, .nil, .idle fresh.task.inactive⟩
      rw [fresh.nothing.1, fresh.nothing.2]
      rfl
  | snoc earlier next inductionHypothesis =>
      obtain ⟨_, tracked, _⟩ := (recvDatagramAsync_honest withPeer limit).tracked fresh.task earlier
      exact inductionHypothesis.step tracked next

/-- Whatever calls, operations and datagrams take turns, every datagram that has come is,
in the order in which they came, returned to the caller whole and with the address that
it is from, or reported as too long for the buffer, but for one at most that a finished
operation holds for the next call, and those still in the queue. -/
theorem datagrams_accounted (withPeer : Bool) (limit : Nat) {start final : TaskSys Endpoint Nat}
    {trace : List (TaskEvent Endpoint Nat Datagram)} (fresh : FreshEndpoint start)
    (run : Run (Step (recvDatagramAsync withPeer) (datagramWorld withPeer limit)) start trace
      final) :
    ∃ taken held, final.env.arrived = taken ++ held ++ final.env.queue ∧ held.length ≤ 1 ∧
      List.Forall₂ (Accounts withPeer limit) (accounted trace) taken := by
  obtain ⟨taken, held, arrived, entries, holds⟩ := placed fresh run
  refine ⟨taken, held, arrived, ?_, entries⟩
  cases holds <;> simp

/-- A socket that nothing has come to, and a buffer for the datagrams. -/
def freshEndpoint : TaskSys Endpoint Nat where
  task := { overlapped := .zero, active := 0 }
  env := { arrived := [], queue := [], buf := [0, 0], peerAddr := [0], peerLen := 0 }
  lastError := 0
  packets := 0
  waiting := false

/-- A datagram comes. -/
theorem datagram_arrives (withPeer : Bool) (limit : Nat) (sys : TaskSys Endpoint Nat)
    (datagram : Datagram) :
    Step (recvDatagramAsync withPeer) (datagramWorld withPeer limit) sys (.world datagram)
      { sys with env := { sys.env with
          arrived := sys.env.arrived ++ [datagram], queue := sys.env.queue ++ [datagram] } } :=
  .world rfl

/-- An operation under way takes the next datagram. -/
theorem operation_takes (withPeer : Bool) (limit cap : Nat) {sys : TaskSys Endpoint Nat}
    {outcome : IoResult} {size : Nat} {endpoint : Endpoint}
    (running : sys.task.overlapped = .running cap)
    (delivered : sys.env.deliver withPeer (min cap 0xffffffff) errorMoreData =
      some (outcome, size, endpoint)) :
    Step (recvDatagramAsync withPeer) (datagramWorld withPeer limit) sys (.complete outcome)
      { sys with
        task := { sys.task with overlapped := .ended outcome }
        env := endpoint.setPeerLen withPeer size
        packets := sys.packets + 1 } :=
  .complete running (.inl ⟨size, endpoint, delivered, rfl⟩)

/-- A datagram that an operation takes and the next call returns, and one that is too long
for the buffer of the call that takes it. -/
theorem datagrams_accounted_two :
    ∃ trace final, Run (Step (recvDatagramAsync true) (datagramWorld true 2)) freshEndpoint trace
        final ∧
      accounted trace = [some ⟨[7], [9]⟩, none] ∧
      ∃ taken held, final.env.arrived = taken ++ held ++ final.env.queue ∧ held.length ≤ 1 ∧
        List.Forall₂ (Accounts true 2) (accounted trace) taken := by
  have proper : (datagramWorld true 2).proper ⟨none, none⟩ 2 := ⟨nofun, nofun, by decide⟩
  have begun : Run (Step (recvDatagramAsync true) (datagramWorld true 2)) freshEndpoint _ _ :=
    .single (.call ⟨none, none⟩ 2 proper)
  have run := ((((begun.snoc (datagram_arrives true 2 _ ⟨[7], [9]⟩)).snoc
    (@operation_takes true 2 2 _ (.finished 1) 1
      ⟨[⟨[7], [9]⟩], [], [7, 0], [9], 28⟩ rfl rfl)).snoc
    (datagram_arrives true 2 _ ⟨[1, 2, 3], [8]⟩)).snoc
    (.call ⟨none, none⟩ 2 proper)).snoc
    (.call ⟨none, none⟩ 2 proper)
  have fresh : FreshEndpoint freshEndpoint :=
    ⟨⟨rfl, by simp [freshEndpoint], rfl⟩, rfl, rfl⟩
  exact ⟨_, _, run, by decide, datagrams_accounted true 2 fresh run⟩

end Ffos.Socket.Receive
