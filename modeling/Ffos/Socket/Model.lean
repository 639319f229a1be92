/-
Module: Ffos.Socket.Model
Purpose: `ffsock_send_async`, `ffsock_sendv_async` on Windows and `ffiovec_array_shift` of
  FFOS/socket.h, and a caller who sends the rest of its data until an error stops it.
Trusted boundary: `send`, `WSASend`, `WriteFile` and `GetOverlappedResult` take a part from
  the front of what they are given and tell its length, or fail and take nothing; a 64-bit
  machine
Main exports: Net, Os, ffsockSendAsync, ffsockSendvAsync, ffiovecArrayShift, Sender,
  sendAsync, sendvAsync, Caller, Caller.call
-/
import Ffos.Lib.ByteMemory

namespace Ffos.Socket

open Ffos.Lib

def wsaeWouldBlock : Nat := 10035
def errorIoIncomplete : Nat := 996
def errorIoPending : Nat := 997

/-- `FFSOCK_EINPROGRESS`. -/
def einprogress : Nat := errorIoPending

/-! ### The system -/

/-- The state behind `OVERLAPPED`: a write that is under way reads from the memory that it
was given, a write that has finished keeps the number of its bytes. -/
inductive Overlapped where
  | zero
  | running (len : Nat)
  | finished (sent : Nat)
deriving DecidableEq, Repr

/-- The socket, `ffkq_task` and the last error. `taken` are the bytes that the socket has
taken for good. -/
structure Net where
  taken : List Byte
  active : Nat
  buf : List Byte
  overlapped : Overlapped
  lastError : Nat
deriving DecidableEq, Repr

/-- All bytes that were handed to the socket: a write under way has its bytes too. -/
def Net.handed (net : Net) : List Byte :=
  match net.overlapped with
  | .running len => net.taken ++ net.buf.take len
  | _ => net.taken

/-- What a system call answers: success with a number of bytes, or an error. -/
inductive Answer where
  | ok (sent : Nat)
  | fails (error : Nat)
deriving DecidableEq, Repr

/-- The answers that the system calls give during one call of ours. -/
structure Os where
  send : Answer
  writeFile : Answer
  overlappedResult : Answer
deriving DecidableEq, Repr

/-- `send` with its length a signed `int`. Nothing is the result if the system cannot give
such an answer. -/
def Net.send (net : Net) (bytes : List Byte) (len : Int) : Answer → Option (Int × Net)
  | .ok sent =>
      if (sent : Int) ≤ len then some (sent, { net with taken := net.taken ++ bytes.take sent })
      else none
  | .fails error => some (-1, { net with lastError := error })

/-- `WSASend` on the bytes of all buffers. The number of bytes sent is a `DWORD`. -/
def Net.wsaSend (net : Net) (bytes : List Byte) : Answer → Option (Option Nat × Net)
  | .ok sent =>
      if sent ≤ bytes.length ∧ sent < 2 ^ 32 then
        some (some sent, { net with taken := net.taken ++ bytes.take sent })
      else none
  | .fails error => some (none, { net with lastError := error })

/-- `WriteFile` on the first bytes of `task->buf`, and whether it was done at once. -/
def Net.writeFile (net : Net) (len : Nat) : Answer → Option (Bool × Net)
  | .ok sent =>
      if sent ≤ len then
        some (true, { net with taken := net.taken ++ net.buf.take sent, overlapped := .finished sent })
      else none
  | .fails error =>
      some (false, { net with
        overlapped := if error = errorIoPending then .running len else net.overlapped
        lastError := error })

/-- `GetOverlappedResult`. A write that has finished cannot fail any more. -/
def Net.getOverlappedResult (net : Net) : Answer → Option (Option Nat × Net)
  | .ok sent =>
      match net.overlapped with
      | .running len =>
          if sent ≤ len then
            some (some sent, { net with
              taken := net.taken ++ net.buf.take sent, overlapped := .finished sent })
          else none
      | .finished written => if sent = written then some (some sent, net) else none
      | .zero => none
  | .fails error =>
      if error = errorIoIncomplete then some (none, { net with lastError := error })
      else
        match net.overlapped with
        | .running _ => some (none, { net with overlapped := .zero, lastError := error })
        | _ => none

/-! ### The functions -/

/-- The part of both functions for a task that is active. -/
def Net.asyncResult (net : Net) (os : Os) : Option (Int × Net) :=
  match net.getOverlappedResult os.overlappedResult with
  | none => none
  | some (none, net) =>
      if net.lastError = errorIoIncomplete then some (-1, { net with lastError := errorIoPending })
      else some (-1, { net with active := 0 })
  | some (some sent, net) => some (sent, { net with active := 0 })

/-- `ffmem_copy`. -/
def ffmemCopy (dst src : List Byte) (len : Nat) : List Byte := src.take len ++ dst.drop len

/-- The part of both functions that starts a write of the first bytes of `task->buf`. -/
def Net.startWrite (net : Net) (os : Os) (len : Nat) : Option (Int × Net) :=
  match net.writeFile len os.writeFile with
  | none => none
  | some (true, net) => some (-1, { net with lastError := errorIoPending, active := 1 })
  | some (false, net) =>
      if net.lastError ≠ errorIoPending then some (-1, net)
      else some (-1, { net with active := 1 })

/-- `sizeof(task->buf)`. -/
def bufSize : Nat := 1

/-- `ffsock_send_async`. -/
def ffsockSendAsync (os : Os) (buf : List Byte) (net : Net) : Option (Int × Net) :=
  if net.active ≠ 0 then net.asyncResult os
  else
    let len := min buf.length 0xffffffff
    match net.send buf (BitVec.ofNat 32 len).toInt os.send with
    | none => none
    | some (r, net) =>
        if ¬(r < 0 ∧ net.lastError = wsaeWouldBlock) then some (r, net)
        else
          let len := min len bufSize
          { net with overlapped := .zero, buf := ffmemCopy net.buf buf len }.startWrite os len

/-- The first non-empty buffer. -/
def firstNonEmpty : List (List Byte) → List Byte
  | [] => []
  | iov :: rest => if iov.length ≠ 0 then iov else firstNonEmpty rest

/-- `ffsock_sendv_async`. -/
def ffsockSendvAsync (os : Os) (iov : List (List Byte)) (net : Net) : Option (Int × Net) :=
  if net.active ≠ 0 then net.asyncResult os
  else
    match net.wsaSend iov.flatten os.send with
    | none => none
    | some (some sent, net) => some (sent, net)
    | some (none, net) =>
        if net.lastError ≠ wsaeWouldBlock then some (-1, net)
        else
          -- get the first bytes from the first non-empty iovec
          let len := min (firstNonEmpty iov).length bufSize
          let net := { net with buf := ffmemCopy net.buf (firstNonEmpty iov) len }
          if len = 0 then some (0, net)
          else { net with overlapped := .zero }.startWrite os len

/-- `ffiovec_shift`, with the number of shifted bytes. -/
def ffiovecShift (iov : List Byte) (n : Nat) : Nat × List Byte :=
  (min n iov.length, iov.drop (min n iov.length))

/-- `ffiovec_array_shift`. -/
def ffiovecArrayShift : List (List Byte) → Nat → Int × List (List Byte)
  | [], _ => (0, [])
  | iov :: rest, skip =>
      let (shifted, iov) := ffiovecShift iov skip
      if iov.length ≠ 0 then (1, iov :: rest)
      else
        let (r, rest) := ffiovecArrayShift rest (skip - shifted)
        (r, iov :: rest)

/-! ### The caller -/

/-- A way to send: what holds the data, the function that sends, and how the caller
advances over what was acknowledged. -/
structure Sender where
  Data : Type
  content : Data → List Byte
  call : Os → Data → Net → Option (Int × Net)
  advance : Data → Nat → Data

/-- `ffsock_send_async`, with a pointer and a length that the caller advances. -/
def sendAsync : Sender where
  Data := List Byte
  content := id
  call := ffsockSendAsync
  advance := fun buf n => buf.drop n

/-- `ffsock_sendv_async`, with an array that the caller shifts. -/
def sendvAsync : Sender where
  Data := List (List Byte)
  content := List.flatten
  call := ffsockSendvAsync
  advance := fun iov n => (ffiovecArrayShift iov n).2

/-- The caller: what it has still to send, the number of bytes acknowledged so far, and
whether an error has stopped it. -/
structure Caller (sender : Sender) where
  net : Net
  rest : sender.Data
  acked : Nat
  stopped : Bool

/-- One call and what the caller makes of its result. -/
def Caller.call {sender : Sender} (caller : Caller sender) (os : Os) : Option (Caller sender) :=
  if caller.stopped then none
  else
    match sender.call os caller.rest caller.net with
    | none => none
    | some (r, net) =>
        if 0 ≤ r then
          some ⟨net, sender.advance caller.rest r.toNat, caller.acked + r.toNat, false⟩
        else some ⟨net, caller.rest, caller.acked, net.lastError ≠ einprogress⟩

/-- The caller before its first call, with a task that is not in use. -/
structure Caller.Fresh {sender : Sender} (caller : Caller sender) : Prop where
  nothingTaken : caller.net.taken = []
  inactive : caller.net.active = 0
  noWrite : ∀ len, caller.net.overlapped ≠ .running len
  nothingAcked : caller.acked = 0

end Ffos.Socket
