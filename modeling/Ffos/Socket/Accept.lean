/-
Module: Ffos.Socket.Accept
Purpose: `ffsock_accept_async` of FFOS/socket.h on Windows over runs of calls on one task:
  which sockets that are created or accepted on the way are still accounted for.
Trusted boundary: `closesocket` closes its socket; every socket that the system opens is a new
  one
Main exports: Listener, ffsockCreate, ffsockAccept, ffsockAcceptAsync, Accepting, NoLeak, Loses,
  Balanced, ffsockAcceptAsync_balanced, ffsockAcceptAsync_noLeak_iff
-/
import Ffos.Lib.Transition
import Ffos.Socket.Model

namespace Ffos.Socket

open Ffos.Lib

/-! ### The system -/

/-- `FFSOCK_NONBLOCK` -/
def nonblock : BitVec 32 := 0x0100

/-- `sizeof(struct sockaddr_in6)` -/
def sockaddrIn6Size : Nat := 28

/-- How a system call ends. -/
inductive Outcome where
  | ok
  | fails (error : Nat)
deriving DecidableEq, Repr

/-- How the system calls end during one call of ours, and the addresses that they give. -/
structure AcceptOs where
  accept : Outcome
  acceptAddr : List Byte
  acceptNonblock : Outcome
  socket : Outcome
  socketNonblock : Outcome
  acceptEx : Outcome
  overlappedResult : Outcome
  addrLocal : List Byte
  addrPeer : List Byte
deriving DecidableEq, Repr

/-- `ffsockaddr` -/
structure Ffsockaddr where
  len : Nat
  ip : List Byte
deriving DecidableEq, Repr

/-- `ffmem_copy` to the address of an `ffsockaddr`. -/
def Ffsockaddr.fill (a : Ffsockaddr) (addr : List Byte) : Ffsockaddr :=
  { a with ip := addr ++ a.ip.drop addr.length }

/-- `ffkq_task_accept`, the last error, and what the system knows of the sockets: those from 1
to `opened` have been created or accepted, in this order. No socket is 0. -/
structure Listener where
  opened : Nat
  closed : List Nat
  active : Nat
  csock : Nat
  lastError : Nat
deriving DecidableEq, Repr

/-- `accept` and `socket`: a new socket, or `INVALID_SOCKET`. -/
def Listener.newSocket (l : Listener) : Outcome → Option Nat × Listener
  | .ok => (some (l.opened + 1), { l with opened := l.opened + 1 })
  | .fails error => (none, { l with lastError := error })

/-- `ffsock_close` -/
def Listener.close (l : Listener) (sk : Nat) : Listener := { l with closed := l.closed ++ [sk] }

/-! ### The functions -/

/-- The part of `ffsock_create` and `ffsock_accept` that switches a socket to non-blocking
mode, or closes it. -/
def Listener.switchNonblock (l : Listener) (flags : BitVec 32) (outcome : Outcome) (sk : Nat) :
    Option Nat × Listener :=
  if flags &&& nonblock = 0 then (some sk, l)
  else
    match outcome with
    | .ok => (some sk, l)
    | .fails error => (none, { l with lastError := error }.close sk)

/-- `ffsock_create` -/
def ffsockCreate (os : AcceptOs) (flags : BitVec 32) (l : Listener) : Option Nat × Listener :=
  match l.newSocket os.socket with
  | (none, l) => (none, l)
  | (some sk, l) => l.switchNonblock flags os.socketNonblock sk

/-- `ffsock_accept` -/
def ffsockAccept (os : AcceptOs) (flags : BitVec 32) (peer : Ffsockaddr) (l : Listener) :
    Option Nat × Ffsockaddr × Listener :=
  match l.newSocket os.accept with
  | (none, l) => (none, { peer with len := sockaddrIn6Size }, l)
  | (some sk, l) =>
      let peer := peer.fill os.acceptAddr
      match l.switchNonblock flags os.acceptNonblock sk with
      | (none, l) => (none, peer, l)
      | (some sk, l) => (some sk, { peer with len := os.acceptAddr.length }, l)

/-- The part of `ffsock_accept_async` for a task that is active. -/
def acceptResult (os : AcceptOs) (domain : Nat) (peer : Ffsockaddr) (localAddr : Option Ffsockaddr)
    (l : Listener) : Option Nat × Ffsockaddr × Option Ffsockaddr × Listener :=
  match os.overlappedResult with
  | .fails error =>
      if error = errorIoIncomplete then
        (none, peer, localAddr, { l with lastError := errorIoPending })
      else (none, peer, localAddr, { l with lastError := error, active := 0 })
  | .ok =>
      if domain = leNat (os.addrPeer.take 2) then
        (some l.csock, { peer.fill os.addrPeer with len := os.addrPeer.length },
          localAddr.map fun a => { a.fill os.addrLocal with len := os.addrLocal.length },
          { l with active := 0 })
      else (some l.csock, { peer with len := 0 }, localAddr, { l with active := 0 })

/-- The part of `ffsock_accept_async` that starts the operation with a new socket. -/
def startAccept (os : AcceptOs) (csock : Nat) (l : Listener) : Listener :=
  let l := { l with active := 0, csock := 0 }
  match os.acceptEx with
  | .ok => { l with lastError := errorIoPending, csock := csock, active := 1 }
  | .fails error =>
      if error ≠ errorIoPending then { l with lastError := error }.close csock
      else { l with lastError := error, csock := csock, active := 1 }

/-- `ffsock_accept_async`: the socket that is returned, if it is not `INVALID_SOCKET`, and
`peer`, `local` and the task after the call. -/
def ffsockAcceptAsync (os : AcceptOs) (flags : BitVec 32) (domain : Nat) (peer : Ffsockaddr)
    (localAddr : Option Ffsockaddr) (l : Listener) :
    Option Nat × Ffsockaddr × Option Ffsockaddr × Listener :=
  if l.active ≠ 0 then acceptResult os domain peer localAddr l
  else
    match ffsockAccept os (flags &&& nonblock) peer l with
    | (some sk, peer, l) => (some sk, peer, localAddr, l)
    | (none, peer, l) =>
        if l.lastError ≠ wsaeWouldBlock then (none, peer, localAddr, l)
        else
          match ffsockCreate os (flags &&& nonblock) l with
          | (none, l) => (none, peer, localAddr, l)
          | (some csock, l) => (none, peer, localAddr, startAccept os csock l)

/-! ### Runs of calls -/

/-- One call: its arguments, and how the system calls end. -/
structure Call where
  os : AcceptOs
  flags : BitVec 32
  domain : Nat
  peer : Ffsockaddr
  localAddr : Option Ffsockaddr

/-- The task, and the sockets that the caller has got. -/
structure Accepting where
  listener : Listener
  returned : List Nat
deriving DecidableEq, Repr

def Accepting.call (state : Accepting) (c : Call) : Accepting :=
  let result := ffsockAcceptAsync c.os c.flags c.domain c.peer c.localAddr state.listener
  ⟨result.2.2.2, state.returned ++ result.1.toList⟩

def Accepting.Step (before : Accepting) (c : Call) (after : Accepting) : Prop :=
  before.call c = after

/-- Before the first call there are no sockets, and the task is not active. -/
structure Accepting.Fresh (state : Accepting) : Prop where
  noneOpened : state.listener.opened = 0
  noneClosed : state.listener.closed = []
  noneReturned : state.returned = []
  inactive : state.listener.active = 0

/-- How often a socket is held in `task->csock` with `task->active` = 1. -/
def Listener.held (l : Listener) (sk : Nat) : Nat := if l.active = 1 ∧ l.csock = sk then 1 else 0

/-- Every socket that was created or accepted was returned, is held, or was closed, and this
once. -/
def Accepting.NoLeak (state : Accepting) : Prop :=
  ∀ sk, 1 ≤ sk → sk ≤ state.listener.opened →
    state.returned.count sk + state.listener.held sk + state.listener.closed.count sk = 1

/-- The operation has failed: `GetOverlappedResult` gives another error than
`ERROR_IO_INCOMPLETE`. -/
def Accepting.Loses (state : Accepting) (c : Call) : Prop :=
  state.listener.active ≠ 0 ∧
    ∃ error, c.os.overlappedResult = .fails error ∧ error ≠ errorIoIncomplete

/-! ### One call -/

/-- Every socket is in one place: held, closed, or among those that the code has given away or
has in its hands. -/
structure Balanced (l : Listener) (out : List Nat) : Prop where
  flag : l.active = 0 ∨ l.active = 1
  once : ∀ sk, out.count sk + l.held sk + l.closed.count sk =
    if 1 ≤ sk ∧ sk ≤ l.opened then 1 else 0

section Functions

variable {l : Listener} {out : List Nat} {os : AcceptOs}

theorem held_of_inactive (inactive : l.active = 0) (sk : Nat) : l.held sk = 0 := by
  rw [Listener.held, if_neg]
  rintro ⟨active, _⟩
  rw [inactive] at active
  cases active

/-- A task that is not active holds nothing: only the sockets that are out and those that are
closed count. -/
theorem balanced_of_inactive (inactive : l.active = 0) :
    Balanced l out ↔ ∀ sk, out.count sk + l.closed.count sk =
      if 1 ≤ sk ∧ sk ≤ l.opened then 1 else 0 := by
  constructor
  · intro balanced sk
    have once := balanced.once sk
    rwa [held_of_inactive inactive, Nat.add_zero] at once
  · intro once
    refine ⟨Or.inl inactive, fun sk => ?_⟩
    rw [held_of_inactive inactive, Nat.add_zero]
    exact once sk

theorem count_snoc (sks : List Nat) (last sk : Nat) :
    (sks ++ [last]).count sk = sks.count sk + if last = sk then 1 else 0 := by
  rw [List.count_append, List.count_singleton]
  simp only [beq_iff_eq]

/-- A new socket is in the hands of the code. -/
theorem newSocket_balanced (balanced : Balanced l out) (inactive : l.active = 0) {outcome : Outcome}
    {sk : Option Nat} {after : Listener} (call : l.newSocket outcome = (sk, after)) :
    Balanced after (out ++ sk.toList) ∧ after.active = 0 := by
  rw [balanced_of_inactive inactive] at balanced
  cases outcome with
  | fails error =>
      cases call
      have stillInactive : { l with lastError := error }.active = 0 := inactive
      rw [balanced_of_inactive stillInactive, Option.toList_none, List.append_nil]
      exact ⟨balanced, inactive⟩
  | ok =>
      cases call
      have stillInactive : { l with opened := l.opened + 1 }.active = 0 := inactive
      rw [balanced_of_inactive stillInactive, Option.toList_some]
      refine ⟨fun sk => ?_, inactive⟩
      have before := balanced sk
      rw [count_snoc]
      dsimp only
      split at before <;> split <;> split <;> omega

/-- A socket goes from the hands of the code to the closed ones. -/
theorem close_balanced {sk : Nat} (balanced : Balanced l (out ++ [sk])) (inactive : l.active = 0) :
    Balanced (l.close sk) out := by
  have stillInactive : (l.close sk).active = 0 := inactive
  rw [balanced_of_inactive inactive] at balanced
  rw [balanced_of_inactive stillInactive]
  intro other
  have before := balanced other
  rw [count_snoc] at before
  rw [Listener.close, count_snoc, ← Nat.add_assoc, Nat.add_right_comm]
  exact before

theorem switchNonblock_balanced {sk : Nat} (balanced : Balanced l (out ++ [sk]))
    (inactive : l.active = 0) {flags : BitVec 32} {outcome : Outcome} {result : Option Nat}
    {after : Listener} (call : l.switchNonblock flags outcome sk = (result, after)) :
    Balanced after (out ++ result.toList) ∧ after.active = 0 := by
  unfold Listener.switchNonblock at call
  split at call
  · cases call
    exact ⟨balanced, inactive⟩
  · cases outcome with
    | ok =>
        cases call
        exact ⟨balanced, inactive⟩
    | fails error =>
        cases call
        rw [Option.toList_none, List.append_nil]
        have sameError : Balanced { l with lastError := error } (out ++ [sk]) :=
          ⟨balanced.flag, balanced.once⟩
        exact ⟨close_balanced sameError inactive, inactive⟩

/-- `ffsock_create` gives a socket away, or there is none left. -/
theorem ffsockCreate_balanced (balanced : Balanced l out) (inactive : l.active = 0)
    {flags : BitVec 32} {result : Option Nat} {after : Listener}
    (call : ffsockCreate os flags l = (result, after)) :
    Balanced after (out ++ result.toList) ∧ after.active = 0 := by
  unfold ffsockCreate at call
  split at call
  · next created =>
    cases call
    exact newSocket_balanced balanced inactive created
  · next created =>
    obtain ⟨balancedNew, inactiveNew⟩ := newSocket_balanced balanced inactive created
    exact switchNonblock_balanced balancedNew inactiveNew call

/-- `ffsock_accept` gives a socket away, or there is none left. -/
theorem ffsockAccept_balanced (balanced : Balanced l out) (inactive : l.active = 0)
    {flags : BitVec 32} {peer peerAfter : Ffsockaddr} {result : Option Nat} {after : Listener}
    (call : ffsockAccept os flags peer l = (result, peerAfter, after)) :
    Balanced after (out ++ result.toList) ∧ after.active = 0 := by
  unfold ffsockAccept at call
  split at call
  · next accepted =>
    cases call
    exact newSocket_balanced balanced inactive accepted
  · next accepted =>
    obtain ⟨balancedNew, inactiveNew⟩ := newSocket_balanced balanced inactive accepted
    simp only at call
    split at call
    · next switched =>
      cases call
      exact switchNonblock_balanced balancedNew inactiveNew switched
    · next switched =>
      cases call
      exact switchNonblock_balanced balancedNew inactiveNew switched

/-- The new socket is held, or it is closed. -/
theorem startAccept_balanced {csock : Nat} (balanced : Balanced l (out ++ [csock]))
    (inactive : l.active = 0) : Balanced (startAccept os csock l) out := by
  rw [balanced_of_inactive inactive] at balanced
  have holding : ∀ error, Balanced ⟨l.opened, l.closed, 1, csock, error⟩ out := by
    intro error
    refine ⟨Or.inr rfl, fun sk => ?_⟩
    have before := balanced sk
    rw [count_snoc] at before
    simpa [Listener.held] using before
  unfold startAccept
  split
  · exact holding errorIoPending
  · next error _ =>
    split
    · exact close_balanced ((balanced_of_inactive rfl).mpr balanced) rfl
    · exact holding error

/-- The socket of an operation that has failed is in no place any more. -/
def Listener.dropped (l : Listener) (os : AcceptOs) : List Nat :=
  match os.overlappedResult with
  | .fails error => if l.active ≠ 0 ∧ error ≠ errorIoIncomplete then [l.csock] else []
  | .ok => []

theorem acceptResult_balanced (balanced : Balanced l out) (active : l.active ≠ 0) {domain : Nat}
    {peer peerAfter : Ffsockaddr} {localAddr localAfter : Option Ffsockaddr} {result : Option Nat}
    {after : Listener}
    (call : acceptResult os domain peer localAddr l = (result, peerAfter, localAfter, after)) :
    Balanced after (out ++ result.toList ++ l.dropped os) := by
  have isOne : l.active = 1 := balanced.flag.resolve_left active
  -- The socket that was held is out.
  have released : ∀ error, Balanced { l with active := 0, lastError := error } (out ++ [l.csock]) := by
    intro error
    refine (balanced_of_inactive rfl).mpr fun sk => ?_
    have before := balanced.once sk
    rw [count_snoc]
    simpa [Listener.held, isOne] using before
  unfold acceptResult at call
  split at call
  · next error failed =>
    split at call
    · next incomplete =>
      cases call
      have nothing : l.dropped os = [] := by simp [Listener.dropped, failed, incomplete]
      rw [nothing, Option.toList_none, List.append_nil, List.append_nil]
      exact ⟨balanced.flag, balanced.once⟩
    · next other =>
      cases call
      have lost : l.dropped os = [l.csock] := by simp [Listener.dropped, failed, other, active]
      rw [lost, Option.toList_none, List.append_nil]
      exact released error
  · next completed =>
    have nothing : l.dropped os = [] := by simp [Listener.dropped, completed]
    rw [nothing, List.append_nil]
    split at call
    · cases call
      exact released l.lastError
    · cases call
      exact released l.lastError

/-- After a call the returned socket and the one of a failed operation are out. -/
theorem ffsockAcceptAsync_balanced (balanced : Balanced l out) {flags : BitVec 32} {domain : Nat}
    {peer peerAfter : Ffsockaddr} {localAddr localAfter : Option Ffsockaddr} {result : Option Nat}
    {after : Listener}
    (call : ffsockAcceptAsync os flags domain peer localAddr l =
      (result, peerAfter, localAfter, after)) :
    Balanced after (out ++ result.toList ++ l.dropped os) := by
  unfold ffsockAcceptAsync at call
  split at call
  · next active => exact acceptResult_balanced balanced active call
  · next idle =>
    have inactive : l.active = 0 := not_not.mp idle
    have nothing : l.dropped os = [] := by
      unfold Listener.dropped
      split
      · exact if_neg fun both => both.1 inactive
      · rfl
    rw [nothing, List.append_nil]
    split at call
    · next accepted =>
      cases call
      exact (ffsockAccept_balanced balanced inactive accepted).1
    · next accepted =>
      obtain ⟨balancedNone, inactiveNone⟩ := ffsockAccept_balanced balanced inactive accepted
      rw [Option.toList_none, List.append_nil] at balancedNone
      split at call
      · cases call
        rw [Option.toList_none, List.append_nil]
        exact balancedNone
      · split at call
        · next created =>
          cases call
          exact (ffsockCreate_balanced balancedNone inactiveNone created).1
        · next created =>
          cases call
          obtain ⟨balancedNew, inactiveNew⟩ := ffsockCreate_balanced balancedNone inactiveNone created
          rw [Option.toList_none, List.append_nil]
          exact startAccept_balanced balancedNew inactiveNew

end Functions

/-! ### All runs -/

section Runs

variable {state : Accepting} {lost : List Nat}

theorem dropped_eq_nil_iff {c : Call} : state.listener.dropped c.os = [] ↔ ¬ state.Loses c := by
  unfold Listener.dropped
  split
  · next error failed =>
    rw [ite_eq_right_iff]
    constructor
    · rintro nothing ⟨active, other, alsoFailed, different⟩
      obtain rfl : error = other := by
        rw [failed] at alsoFailed
        exact Outcome.fails.inj alsoFailed
      cases nothing ⟨active, different⟩
    · rintro keeps ⟨active, different⟩
      exact absurd ⟨active, error, failed, different⟩ keeps
  · next completed =>
    refine iff_of_true rfl ?_
    rintro ⟨_, error, failed, _⟩
    rw [completed] at failed
    cases failed

theorem Balanced.perm {l : Listener} {out other : List Nat} (balanced : Balanced l out)
    (same : out.Perm other) : Balanced l other :=
  ⟨balanced.flag, fun sk => same.count_eq sk ▸ balanced.once sk⟩

theorem fresh_balanced (fresh : state.Fresh) : Balanced state.listener (state.returned ++ []) := by
  rw [balanced_of_inactive fresh.inactive, fresh.noneReturned, fresh.noneClosed, fresh.noneOpened]
  intro sk
  rw [if_neg (by omega)]
  rfl

/-- One call: the sockets that are out are the returned ones and the lost ones. -/
theorem call_balanced (balanced : Balanced state.listener (state.returned ++ lost)) (c : Call) :
    Balanced (state.call c).listener
      ((state.call c).returned ++ (lost ++ state.listener.dropped c.os)) := by
  have after := @ffsockAcceptAsync_balanced _ _ c.os balanced c.flags c.domain c.peer _ c.localAddr
    _ _ _ rfl
  apply after.perm
  rw [Accepting.call, ← List.append_assoc]
  apply List.Perm.append_right
  rw [List.append_assoc, List.append_assoc]
  exact List.Perm.append_left _ List.perm_append_comm

/-- No socket has leaked exactly if none is lost. -/
theorem noLeak_iff (balanced : Balanced state.listener (state.returned ++ lost)) :
    state.NoLeak ↔ lost = [] := by
  constructor
  · intro noLeak
    apply List.eq_nil_iff_forall_not_mem.mpr
    intro sk isLost
    have positive : 0 < lost.count sk := List.count_pos_iff.mpr isLost
    have once := balanced.once sk
    rw [List.count_append] at once
    split at once
    · next known =>
      have placed := noLeak sk known.1 known.2
      omega
    · omega
  · rintro rfl sk positive known
    have once := balanced.once sk
    rw [List.append_nil, if_pos ⟨positive, known⟩] at once
    exact once

/-- A call that does not lose the socket of a failed operation. -/
def Accepting.KeepingStep (before : Accepting) (c : Call) (after : Accepting) : Prop :=
  before.Step c after ∧ ¬ before.Loses c

/-- The sockets are accounted for, up to those that were lost, and some were lost exactly if
some call lost one. -/
theorem run_balanced {start final : Accepting} (fresh : start.Fresh) {trace : List Call}
    (run : Run Accepting.Step start trace final) :
    ∃ lost, Balanced final.listener (final.returned ++ lost) ∧
      (lost = [] ↔ Run Accepting.KeepingStep start trace final) := by
  induction run with
  | refl => exact ⟨[], fresh_balanced fresh, iff_of_true rfl Run.refl⟩
  | @snoc past before c after run next inductionHypothesis =>
      obtain ⟨lost, balanced, none⟩ := inductionHypothesis
      obtain rfl : before.call c = after := next
      refine ⟨_, call_balanced balanced c, ?_⟩
      rw [List.append_eq_nil_iff, none, dropped_eq_nil_iff]
      constructor
      · rintro ⟨earlier, keeps⟩
        exact earlier.snoc ⟨rfl, keeps⟩
      · intro all
        obtain ⟨middle, earlier, _, keeps⟩ := all.snoc_inv
        -- The calls lead to one state only.
        obtain rfl : before = middle :=
          run.unique (fun _ _ _ _ first second => first.symm.trans second)
            (earlier.mono fun _ _ _ step => step.1)
        exact ⟨earlier, keeps⟩

end Runs

/-- In every run of calls no socket has leaked after the last call if and only if no call found
a failed operation. -/
theorem ffsockAcceptAsync_noLeak_iff (start : Accepting) (fresh : start.Fresh)
    (trace : List Call) (final : Accepting) (run : Run Accepting.Step start trace final) :
    final.NoLeak ↔ Run Accepting.KeepingStep start trace final := by
  obtain ⟨lost, balanced, none⟩ := run_balanced fresh run
  rw [noLeak_iff balanced, none]

/-- A task that was not used yet. -/
def idleTask : Accepting := ⟨⟨0, [], 0, 0, 0⟩, []⟩

theorem idleTask_fresh : idleTask.Fresh := ⟨rfl, rfl, rfl, rfl⟩

/-- A call for which `accept` would block and `AcceptEx` is pending, with this result of the
operation. -/
def pendingCall (overlappedResult : Outcome) : Call where
  os := ⟨.fails wsaeWouldBlock, [], .ok, .ok, .ok, .fails errorIoPending, overlappedResult, [], []⟩
  flags := nonblock
  domain := 2
  peer := ⟨0, []⟩
  localAddr := none

theorem ffsockAcceptAsync_noLeak_iff_completed :
    Run Accepting.Step idleTask [pendingCall .ok, pendingCall .ok] ⟨⟨1, [], 0, 1, 997⟩, [1]⟩ ∧
      ((⟨⟨1, [], 0, 1, 997⟩, [1]⟩ : Accepting).NoLeak ↔
        Run Accepting.KeepingStep idleTask [pendingCall .ok, pendingCall .ok]
          ⟨⟨1, [], 0, 1, 997⟩, [1]⟩) := by
  have run : Run Accepting.Step idleTask [pendingCall .ok, pendingCall .ok]
      ⟨⟨1, [], 0, 1, 997⟩, [1]⟩ :=
    (Run.single (show idleTask.call _ = ⟨⟨1, [], 1, 1, 997⟩, []⟩ by decide)).snoc
      (show Accepting.call _ _ = _ by decide)
  exact ⟨run, ffsockAcceptAsync_noLeak_iff idleTask idleTask_fresh _ _ run⟩

/-- `ERROR_NETNAME_DELETED`: the connection is gone before the operation completes. -/
def errorNetnameDeleted : Nat := 64

/-- The operation fails after the first call: the second one forgets its socket. -/
theorem ffsockAcceptAsync_loses_socket :
    Run Accepting.Step idleTask [pendingCall .ok, pendingCall (.fails errorNetnameDeleted)]
        ⟨⟨1, [], 0, 1, 64⟩, []⟩ ∧
      ¬ (⟨⟨1, [], 0, 1, 64⟩, []⟩ : Accepting).NoLeak := by
  constructor
  · exact (Run.single (show idleTask.call _ = ⟨⟨1, [], 1, 1, 997⟩, []⟩ by decide)).snoc
      (show Accepting.call _ _ = _ by decide)
  · intro noLeak
    have placed := noLeak 1 (by decide) (by decide)
    exact absurd placed (by decide)

end Ffos.Socket
