/-
Module: Ffos.Kcall.Model
Purpose: The kernel-call queue of FFOS/kcall.h on a 64-bit UNIX: call objects
  whose arguments and results share a union, the asynchronous functions, the
  worker loop `ffkcallq_process_sq`, and the completion loop
  `ffkcallq_process_cq` behind a kernel-queue event.
Trusted boundary: the ring queues of ffbase as atomic bounded queues; the kernel
  calls themselves, whose outcomes are arbitrary
Main exports: Request, Words, Ffkcall, Sys, kcallAsync, ffkcallExec, Step
-/
import Ffos.Lib.BoundedQueue
import Ffos.Lib.Transition
import Mathlib.Logic.Function.Basic

namespace Ffos.Kcall

open Ffos.Lib

/-! ### Calls and the union -/

/-- `enum FFKCALL_OP`. The value 0 of the field is `none`. -/
inductive KcallOp where
  | fileOpen
  | fileInfo
  | fileRead
  | fileWrite
  | netResolve
deriving DecidableEq, Repr

/-- One call of a kernel function with its arguments. Pointers are addresses. -/
inductive Request where
  | fileOpen (name : BitVec 64) (flags : BitVec 32)
  | fileInfo (fd : BitVec 32) (finfo : BitVec 64)
  | fileRead (fd : BitVec 32) (buf size : BitVec 64)
  | fileWrite (fd : BitVec 32) (buf size : BitVec 64)
  | netResolve (name : BitVec 64) (flags : BitVec 32)
deriving DecidableEq, Repr

def Request.op : Request → KcallOp
  | .fileOpen .. => .fileOpen
  | .fileInfo .. => .fileInfo
  | .fileRead .. => .fileRead
  | .fileWrite .. => .fileWrite
  | .netResolve .. => .netResolve

/-- The union of `struct ffkcall`: the 4 bytes at its offset 0 (`error`, `flags`,
`fd_info`, `fd`), the 8 bytes at offset 8 (`result`, `name`, `finfo`, `buf`) and
the 8 bytes at offset 16 (`size`). -/
structure Words where
  at0 : BitVec 32
  at8 : BitVec 64
  at16 : BitVec 64
deriving DecidableEq, Repr

/-- The argument writes of the asynchronous functions. -/
def Request.store : Request → Words → Words
  | .fileOpen name flags, words => { words with at8 := name, at0 := flags }
  | .fileInfo fd finfo, words => { words with at0 := fd, at8 := finfo }
  | .fileRead fd buf size, _ => { at0 := fd, at8 := buf, at16 := size }
  | .fileWrite fd buf size, _ => { at0 := fd, at8 := buf, at16 := size }
  | .netResolve name flags, words => { words with at8 := name, at0 := flags }

/-- The kernel call that `_ffkcall_exec` makes from the union. -/
def KcallOp.load : KcallOp → Words → Request
  | .fileOpen, words => .fileOpen words.at8 words.at0
  | .fileInfo, words => .fileInfo words.at0 words.at8
  | .fileRead, words => .fileRead words.at0 words.at8 words.at16
  | .fileWrite, words => .fileWrite words.at0 words.at8 words.at16
  | .netResolve, words => .netResolve words.at8 words.at0

/-- The arguments read back from the union are the ones that were stored. -/
theorem Request.load_store (request : Request) (words : Words) :
    request.op.load (request.store words) = request := by
  cases request <;> rfl

/-- What a kernel function returns: an `int`, or a 64-bit number or pointer. -/
inductive Value where
  | int (value : BitVec 32)
  | word (value : BitVec 64)
deriving DecidableEq, Repr

/-- A returned value and the last error code of the calling thread. -/
structure Reply where
  value : Value
  error : BitVec 32
deriving DecidableEq, Repr

/-- The value has the return type of the function: `fffd` and `int` are 32 bits,
`ffssize` and `ffaddrinfo*` 64. -/
def KcallOp.Returns : KcallOp → Value → Prop
  | .fileOpen, .int _ => True
  | .fileInfo, .int _ => True
  | .fileRead, .word _ => True
  | .fileWrite, .word _ => True
  | .netResolve, .word _ => True
  | _, _ => False

/-- The conversion of a returned value to `ffint64 result`. -/
def Value.toResult : Value → BitVec 64
  | .int value => value.signExtend 64
  | .word value => value

/-- The conversion of `result` to the return type of the function. -/
def KcallOp.fromResult : KcallOp → BitVec 64 → Value
  | .fileOpen, result => .int (result.setWidth 32)
  | .fileInfo, result => .int (result.setWidth 32)
  | .fileRead, result => .word result
  | .fileWrite, result => .word result
  | .netResolve, result => .word result

/-- The failure value: `FFFILE_NULL`, `-1` or `NULL`. -/
def KcallOp.failure : KcallOp → Value
  | .fileOpen => .int (-1)
  | .fileInfo => .int (-1)
  | .fileRead => .word (-1)
  | .fileWrite => .word (-1)
  | .netResolve => .word 0

/-- A value that goes through `result` comes back unchanged. -/
theorem KcallOp.fromResult_toResult {op : KcallOp} {value : Value} (typed : op.Returns value) :
    op.fromResult value.toResult = value := by
  have narrow : ∀ v : BitVec 32, (v.signExtend 64).setWidth 32 = v := by
    intro v
    ext i bound
    simp only [BitVec.getElem_setWidth, BitVec.getLsbD_signExtend, bound, if_true]
    simp [show i < 64 by omega, BitVec.getLsbD_eq_getElem bound]
  cases op <;> cases value <;> simp_all [fromResult, Value.toResult, KcallOp.Returns]

/-- `FFKCALL_EINPROGRESS`, `FFKCALL_EBUSY` and `FFKCALL_EAGAIN` on Linux. -/
def einprogress : BitVec 32 := 115
def ebusy : BitVec 32 := 16
def eagain : BitVec 32 := 11

/-! ### The shared state -/

/-- `struct ffkcall`. `attached` is `q != NULL`; a handler call is an event that
names the object, so `handler` and `param` are not kept. -/
structure Ffkcall where
  attached : Bool
  op : Option KcallOp
  state : Nat
  words : Words
deriving DecidableEq, Repr

/-- Where a worker is in one iteration of `ffkcallq_process_sq`. `added` is the
point after an element was added with `used == 0` and before the post. -/
inductive WorkerPosition (Obj : Type) where
  | idle
  | fetched (obj : Obj)
  | executed (obj : Obj)
  | added
deriving DecidableEq

/-- Where the completion reader is: waiting for a kernel-queue event, holding one
that is not consumed yet, about to fetch from the completion queue, or about to
handle an object it fetched. -/
inductive ReaderPosition (Obj : Type) where
  | waiting
  | received
  | draining
  | handling (obj : Obj)
deriving DecidableEq

/-- The objects, one `struct ffkcallqueue`, the workers and the reader. `pending`
says that a posted user event is in the kernel queue. -/
structure Sys (Obj Worker : Type) where
  objs : Obj → Ffkcall
  sq : BoundedQueue Obj
  cq : BoundedQueue Obj
  kqpost : Bool
  workers : Worker → WorkerPosition Obj
  pending : Bool
  reader : ReaderPosition Obj

variable {Obj Worker : Type} [DecidableEq Obj] [DecidableEq Worker]

namespace Sys

/-- Overwrite fields of one object. -/
def write (sys : Sys Obj Worker) (obj : Obj) (change : Ffkcall → Ffkcall) : Sys Obj Worker :=
  { sys with objs := Function.update sys.objs obj (change (sys.objs obj)) }

/-- Move one worker. -/
def move (sys : Sys Obj Worker) (worker : Worker) (position : WorkerPosition Obj) :
    Sys Obj Worker :=
  { sys with workers := Function.update sys.workers worker position }

section Fields

variable (sys : Sys Obj Worker) (obj : Obj) (change : Ffkcall → Ffkcall) (worker : Worker)
  (position : WorkerPosition Obj)

omit [DecidableEq Worker]

@[simp] theorem write_objs_self :
    (sys.write obj change).objs obj = change (sys.objs obj) := Function.update_self ..

theorem write_objs_of_ne {other : Obj} (different : other ≠ obj) :
    (sys.write obj change).objs other = sys.objs other := Function.update_of_ne different ..

@[simp] theorem write_sq : (sys.write obj change).sq = sys.sq := rfl
@[simp] theorem write_cq : (sys.write obj change).cq = sys.cq := rfl
@[simp] theorem write_kqpost : (sys.write obj change).kqpost = sys.kqpost := rfl
@[simp] theorem write_workers : (sys.write obj change).workers = sys.workers := rfl
@[simp] theorem write_pending : (sys.write obj change).pending = sys.pending := rfl
@[simp] theorem write_reader : (sys.write obj change).reader = sys.reader := rfl

omit [DecidableEq Obj]
variable [DecidableEq Worker]

@[simp] theorem move_workers_self :
    (sys.move worker position).workers worker = position := Function.update_self ..

theorem move_workers_of_ne {other : Worker} (different : other ≠ worker) :
    (sys.move worker position).workers other = sys.workers other :=
  Function.update_of_ne different ..

@[simp] theorem move_objs : (sys.move worker position).objs = sys.objs := rfl
@[simp] theorem move_sq : (sys.move worker position).sq = sys.sq := rfl
@[simp] theorem move_cq : (sys.move worker position).cq = sys.cq := rfl
@[simp] theorem move_kqpost : (sys.move worker position).kqpost = sys.kqpost := rfl
@[simp] theorem move_pending : (sys.move worker position).pending = sys.pending := rfl
@[simp] theorem move_reader : (sys.move worker position).reader = sys.reader := rfl

end Fields

end Sys

/-! ### The functions -/

/-- `_ffkcall_add`: the error code it sets and the state after it. -/
def ffkcallAdd (sys : Sys Obj Worker) (obj : Obj) (op : KcallOp) :
    BitVec 32 × Sys Obj Worker :=
  match sys.sq.push obj with
  | none => (eagain, sys.write obj fun kc => { kc with op := none })
  | some sq => (einprogress, { sys.write obj fun kc => { kc with op := some op } with sq := sq })

/-- The common body of the asynchronous functions. `direct` is the outcome of the
kernel call that is made at once when the object has no queue. -/
def kcallAsync (request : Request) (direct : Reply) (sys : Sys Obj Worker) (obj : Obj) :
    Reply × Sys Obj Worker :=
  let kc := sys.objs obj
  if kc.attached = false then (direct, sys)
  else if kc.state ≠ 0 then (⟨request.op.failure, ebusy⟩, sys)
  else if kc.op ≠ none then
    (⟨request.op.fromResult kc.words.at8, kc.words.at0⟩,
      sys.write obj fun kc => { kc with op := none })
  else
    let added := ffkcallAdd
      (sys.write obj fun kc => { kc with words := request.store kc.words }) obj request.op
    (⟨request.op.failure, added.1⟩, added.2)

/-- `fffile_open_async`. -/
def fffileOpenAsync (name : BitVec 64) (flags : BitVec 32) (direct : Reply)
    (sys : Sys Obj Worker) (kc : Obj) : Reply × Sys Obj Worker :=
  kcallAsync (.fileOpen name flags) direct sys kc

/-- `fffile_info_async`. -/
def fffileInfoAsync (fd : BitVec 32) (fi : BitVec 64) (direct : Reply)
    (sys : Sys Obj Worker) (kc : Obj) : Reply × Sys Obj Worker :=
  kcallAsync (.fileInfo fd fi) direct sys kc

/-- `fffile_read_async`. -/
def fffileReadAsync (fd : BitVec 32) (buf size : BitVec 64) (direct : Reply)
    (sys : Sys Obj Worker) (kc : Obj) : Reply × Sys Obj Worker :=
  kcallAsync (.fileRead fd buf size) direct sys kc

/-- `fffile_write_async`. -/
def fffileWriteAsync (fd : BitVec 32) (buf size : BitVec 64) (direct : Reply)
    (sys : Sys Obj Worker) (kc : Obj) : Reply × Sys Obj Worker :=
  kcallAsync (.fileWrite fd buf size) direct sys kc

/-- `ffaddrinfo_resolve_async`. -/
def ffaddrinfoResolveAsync (name : BitVec 64) (flags : BitVec 32) (direct : Reply)
    (sys : Sys Obj Worker) (kc : Obj) : Reply × Sys Obj Worker :=
  kcallAsync (.netResolve name flags) direct sys kc

/-- The asynchronous function for a request. -/
def Request.async : Request → Reply → Sys Obj Worker → Obj → Reply × Sys Obj Worker
  | .fileOpen name flags => fffileOpenAsync name flags
  | .fileInfo fd finfo => fffileInfoAsync fd finfo
  | .fileRead fd buf size => fffileReadAsync fd buf size
  | .fileWrite fd buf size => fffileWriteAsync fd buf size
  | .netResolve name flags => ffaddrinfoResolveAsync name flags

omit [DecidableEq Worker] in
theorem Request.async_eq (request : Request) (direct : Reply) (sys : Sys Obj Worker)
    (obj : Obj) : request.async direct sys obj = kcallAsync request direct sys obj := by
  cases request <;> rfl

omit [DecidableEq Worker] in
/-- Two writes to one object are one. -/
theorem Sys.write_write (sys : Sys Obj Worker) (obj : Obj) (first second : Ffkcall → Ffkcall) :
    (sys.write obj first).write obj second = sys.write obj (second ∘ first) := by
  simp [Sys.write]

/-- What a call of an asynchronous function can do: it is made directly, it finds
the object busy, it fetches a result, the submission queue is full, or the
request is queued. -/
inductive Called (request : Request) (direct : Reply) (sys : Sys Obj Worker) (obj : Obj) :
    Reply → Sys Obj Worker → Prop where
  | direct (detached : (sys.objs obj).attached = false) :
      Called request direct sys obj direct sys
  | busy (attached : (sys.objs obj).attached = true) (active : (sys.objs obj).state ≠ 0) :
      Called request direct sys obj ⟨request.op.failure, ebusy⟩ sys
  | result (attached : (sys.objs obj).attached = true) (inactive : (sys.objs obj).state = 0)
      (done : (sys.objs obj).op ≠ none) :
      Called request direct sys obj
        ⟨request.op.fromResult (sys.objs obj).words.at8, (sys.objs obj).words.at0⟩
        (sys.write obj fun kc => { kc with op := none })
  | again (attached : (sys.objs obj).attached = true) (inactive : (sys.objs obj).state = 0)
      (free : (sys.objs obj).op = none) (full : sys.sq.push obj = none) :
      Called request direct sys obj ⟨request.op.failure, eagain⟩
        (sys.write obj fun kc => { kc with words := request.store kc.words, op := none })
  | queued (attached : (sys.objs obj).attached = true) (inactive : (sys.objs obj).state = 0)
      (free : (sys.objs obj).op = none) {sq : BoundedQueue Obj}
      (pushed : sys.sq.push obj = some sq) :
      Called request direct sys obj ⟨request.op.failure, einprogress⟩
        { sys.write obj fun kc =>
            { kc with words := request.store kc.words, op := some request.op } with sq := sq }

omit [DecidableEq Worker] in
theorem Request.async_called (request : Request) (direct : Reply) (sys : Sys Obj Worker)
    (obj : Obj) :
    Called request direct sys obj (request.async direct sys obj).1
      (request.async direct sys obj).2 := by
  rw [Request.async_eq]
  unfold kcallAsync
  dsimp only
  by_cases attached : (sys.objs obj).attached = false
  · rw [if_pos attached]
    exact .direct attached
  rw [if_neg attached]
  have attached : (sys.objs obj).attached = true := by simpa using attached
  by_cases active : (sys.objs obj).state ≠ 0
  · rw [if_pos active]
    exact .busy attached active
  rw [if_neg active]
  have inactive := not_not.mp active
  by_cases done : (sys.objs obj).op ≠ none
  · rw [if_pos done]
    exact .result attached inactive done
  rw [if_neg done]
  have free := not_not.mp done
  unfold ffkcallAdd
  rw [Sys.write_sq]
  cases pushed : sys.sq.push obj with
  | none =>
      simp only [Sys.write_write]
      exact .again attached inactive free pushed
  | some sq =>
      simp only [Sys.write_write]
      exact .queued attached inactive free pushed

omit [DecidableEq Worker] in
/-- A call changes nothing that the workers and the reader have. -/
theorem Request.async_frame (request : Request) (direct : Reply) (sys : Sys Obj Worker)
    (obj : Obj) :
    let after := (request.async direct sys obj).2
    after.cq = sys.cq ∧ after.kqpost = sys.kqpost ∧ after.workers = sys.workers ∧
      after.pending = sys.pending ∧ after.reader = sys.reader := by
  have called := request.async_called direct sys obj
  generalize request.async direct sys obj = outcome at called
  obtain ⟨reply, after⟩ := outcome
  cases called <;> exact ⟨rfl, rfl, rfl, rfl, rfl⟩

/-- `ffkcall_cancel`. -/
def ffkcallCancel (sys : Sys Obj Worker) (obj : Obj) : Sys Obj Worker :=
  sys.write obj fun kc => { kc with op := none }

/-- The writes of `_ffkcall_exec` after the kernel call: first `result`, then
`error`, over the arguments. -/
def ffkcallExec (outcome : Reply) (kc : Ffkcall) : Ffkcall :=
  { kc with words := { kc.words with at8 := outcome.value.toResult, at0 := outcome.error } }

/-! ### Steps of the three parties -/

/-- Observable events. -/
inductive Event (Obj Worker : Type) where
  | call (obj : Obj) (request : Request) (reply : Reply)
  | cancel (obj : Obj)
  | fetch (worker : Worker) (obj : Obj)
  | exec (worker : Worker) (obj : Obj) (request : Request) (outcome : Reply)
  | skip (worker : Worker) (obj : Obj)
  | complete (worker : Worker) (obj : Obj) (used : Nat)
  | overflow (worker : Worker) (obj : Obj)
  | post (worker : Worker)
  | poll
  | receive
  | consume
  | fetchCompletion (obj : Obj)
  | noCompletion
  | handler (obj : Obj)
  | discard (obj : Obj)

/-- One step of a client, a worker or the completion reader. -/
inductive Step : Sys Obj Worker → Event Obj Worker → Sys Obj Worker → Prop where
  /-- A client calls an asynchronous function. -/
  | call {sys : Sys Obj Worker} (obj : Obj) (request : Request) (direct : Reply) :
      Step sys (.call obj request (request.async direct sys obj).1)
        (request.async direct sys obj).2
  /-- A client cancels. -/
  | cancel {sys : Sys Obj Worker} (obj : Obj) : Step sys (.cancel obj) (ffkcallCancel sys obj)
  /-- A worker fetches from the submission queue. -/
  | fetch {sys : Sys Obj Worker} {worker : Worker} {obj : Obj} {sq : BoundedQueue Obj}
      (idle : sys.workers worker = .idle) (popped : sys.sq.pop = some (obj, sq)) :
      Step sys (.fetch worker obj) { sys.move worker (.fetched obj) with sq := sq }
  /-- `_ffkcall_exec` makes the call and `kc->state = 2` follows. -/
  | exec {sys : Sys Obj Worker} {worker : Worker} {obj : Obj} {op : KcallOp} {outcome : Reply}
      (fetched : sys.workers worker = .fetched obj) (active : (sys.objs obj).op = some op)
      (typed : op.Returns outcome.value) :
      Step sys (.exec worker obj (op.load (sys.objs obj).words) outcome)
        ((sys.write obj fun kc => { ffkcallExec outcome kc with state := 2 }).move worker
          (.executed obj))
  /-- `_ffkcall_exec` finds a cancelled object: `kc->state = 0; continue`. -/
  | skip {sys : Sys Obj Worker} {worker : Worker} {obj : Obj}
      (fetched : sys.workers worker = .fetched obj) (cancelled : (sys.objs obj).op = none) :
      Step sys (.skip worker obj)
        ((sys.write obj fun kc => { kc with state := 0 }).move worker .idle)
  /-- The worker adds to the completion queue and has to post if it was empty. -/
  | complete {sys : Sys Obj Worker} {worker : Worker} {obj : Obj} {cq : BoundedQueue Obj}
      (executed : sys.workers worker = .executed obj) (pushed : sys.cq.push obj = some cq) :
      Step sys (.complete worker obj sys.cq.items.length)
        { sys.move worker
            (if sys.cq.items.length = 0 ∧ sys.kqpost = true then .added else .idle) with cq := cq }
  /-- The completion queue is full: `assert(0); continue`. -/
  | overflow {sys : Sys Obj Worker} {worker : Worker} {obj : Obj}
      (executed : sys.workers worker = .executed obj) (full : sys.cq.push obj = none) :
      Step sys (.overflow worker obj) (sys.move worker .idle)
  /-- `ffkq_post`. -/
  | post {sys : Sys Obj Worker} {worker : Worker} (added : sys.workers worker = .added) :
      Step sys (.post worker) { sys.move worker .idle with pending := true }
  /-- The reader calls `ffkcallq_process_cq` without waiting for an event. -/
  | poll {sys : Sys Obj Worker} (waiting : sys.reader = .waiting) :
      Step sys .poll { sys with reader := .draining }
  /-- The reader receives the posted event. -/
  | receive {sys : Sys Obj Worker} (waiting : sys.reader = .waiting)
      (posted : sys.pending = true) :
      Step sys .receive { sys with reader := .received }
  /-- `ffkq_post_consume`. -/
  | consume {sys : Sys Obj Worker} (received : sys.reader = .received) :
      Step sys .consume { sys with reader := .draining, pending := false }
  /-- `ffrq_fetch_sr` and `kc->state = 0`. -/
  | fetchCompletion {sys : Sys Obj Worker} {obj : Obj} {cq : BoundedQueue Obj}
      (draining : sys.reader = .draining) (popped : sys.cq.pop = some (obj, cq)) :
      Step sys (.fetchCompletion obj)
        { sys.write obj fun kc => { kc with state := 0 } with
          cq := cq
          reader := .handling obj }
  /-- `ffrq_fetch_sr` finds nothing: `break`. -/
  | noCompletion {sys : Sys Obj Worker} (draining : sys.reader = .draining)
      (empty : sys.cq.pop = none) :
      Step sys .noCompletion { sys with reader := .waiting }
  /-- `kc->handler(kc->param)`. -/
  | handler {sys : Sys Obj Worker} {obj : Obj} (handling : sys.reader = .handling obj)
      (active : (sys.objs obj).op ≠ none) :
      Step sys (.handler obj) { sys with reader := .draining }
  /-- The object was cancelled, so its handler is not called. -/
  | discard {sys : Sys Obj Worker} {obj : Obj} (handling : sys.reader = .handling obj)
      (cancelled : (sys.objs obj).op = none) :
      Step sys (.discard obj) { sys with reader := .draining }

/-- Nothing was submitted yet: the objects are idle, the queues are empty and
nobody is in the middle of anything. -/
structure Sys.Initial (sys : Sys Obj Worker) : Prop where
  op : ∀ obj, (sys.objs obj).op = none
  state : ∀ obj, (sys.objs obj).state = 0
  sq : sys.sq.items = []
  cq : sys.cq.items = []
  workers : ∀ worker, sys.workers worker = .idle
  reader : sys.reader = .waiting

/-- Zeroed objects with `q` set, and queues of the given capacities. -/
def Sys.fresh (sqCap cqCap : Nat) (kqpost : Bool) : Sys Obj Worker where
  objs _ := { attached := true, op := none, state := 0, words := ⟨0, 0, 0⟩ }
  sq := .empty sqCap
  cq := .empty cqCap
  kqpost := kqpost
  workers _ := .idle
  pending := false
  reader := .waiting

omit [DecidableEq Obj] [DecidableEq Worker] in
theorem Sys.fresh_initial (sqCap cqCap : Nat) (kqpost : Bool) :
    (Sys.fresh sqCap cqCap kqpost : Sys Obj Worker).Initial :=
  ⟨fun _ => rfl, fun _ => rfl, rfl, rfl, fun _ => rfl, rfl⟩

end Ffos.Kcall
