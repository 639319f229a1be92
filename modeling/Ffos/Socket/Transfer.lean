/-
Module: Ffos.Socket.Transfer
Purpose: `ffsock_sendv_async` and `ffsock_recv_async` of FFOS/socket.h on UNIX, and a sender and a
  receiver that wait in `ffkq_wait` after FFSOCK_EINPROGRESS: all data is transferred.
Trusted boundary: the sockets of a connection hold a bounded number of bytes in order; epoll
  with EPOLLET reports that something can be received each time something comes, and that
  something can be sent, to a sender that was refused, when nothing is left at the latest
Main exports: Errno, FfkqTask, asyncResult, ffsockSendvAsync, ffsockSendAsync, ffsockRecvAsync,
  Link, LinkEvent, Step, Sound, work, stream_transferred
-/
import Ffos.Lib.EdgeChannel
import Ffos.Lib.Transition
import Ffos.Socket.Iovec

namespace Ffos.Socket.Transfer

open Ffos.Lib

/-! ### The functions -/

inductive Errno where
  | eagain
  | einprogress
  | other (code : Nat)
deriving DecidableEq, Repr

/-- `ffkq_task` on UNIX. -/
structure FfkqTask where
  active : Bool
deriving DecidableEq, Repr

/-- What the functions make of the result of their system call. -/
def asyncResult {α : Type} : Except Errno α → Except Errno α × FfkqTask
  | .error .eagain => (.error .einprogress, ⟨true⟩)
  | .error error => (.error error, ⟨false⟩)
  | .ok value => (.ok value, ⟨false⟩)

/-- `writev` of some bytes, or of none if the sockets are full. -/
def writev (channel : EdgeChannel Byte) (iov : List (List Byte)) :
    Option Nat → Except Errno Nat × EdgeChannel Byte
  | some count => (.ok count, channel.put (iov.flatten.take count))
  | none => (.error .eagain, channel.refuse)

/-- `ffsock_sendv_async`. -/
def ffsockSendvAsync (channel : EdgeChannel Byte) (iov : List (List Byte)) (answer : Option Nat) :
    Except Errno Nat × FfkqTask :=
  asyncResult (writev channel iov answer).1

/-- `ffsock_send_async`: `send` does the same with one buffer. -/
def ffsockSendAsync (channel : EdgeChannel Byte) (buf : List Byte) (answer : Option Nat) :
    Except Errno Nat × FfkqTask :=
  ffsockSendvAsync channel [buf] answer

/-- `recv` of some bytes, of the end of the stream, or of none if nothing has come. -/
def recv (channel : EdgeChannel Byte) (count : Nat) : Except Errno (List Byte) :=
  if channel.items = [] then (if channel.ended then .ok [] else .error .eagain)
  else .ok (channel.items.take count)

/-- `ffsock_recv_async`. -/
def ffsockRecvAsync (channel : EdgeChannel Byte) (count : Nat) :
    Except Errno (List Byte) × FfkqTask :=
  asyncResult (recv channel count)

/-! ### A connection -/

inductive SendPosition where
  | sending
  | waiting
  | done
deriving DecidableEq, Repr

inductive RecvPosition where
  | receiving
  | waiting
  | closed
deriving DecidableEq, Repr

def SendPosition.waits : SendPosition → Bool
  | .waiting => true
  | .sending | .done => false

def RecvPosition.waits : RecvPosition → Bool
  | .waiting => true
  | .receiving | .closed => false

/-- The sockets, the sender with what is left of its buffers, and the receiver with what it
got. -/
structure Link where
  channel : EdgeChannel Byte
  sender : SendPosition
  sendTask : FfkqTask
  rest : List (List Byte)
  receiver : RecvPosition
  recvTask : FfkqTask
  got : List Byte
deriving DecidableEq, Repr

def start (data : List (List Byte)) : Link where
  channel := .empty
  sender := .sending
  sendTask := ⟨false⟩
  rest := data
  receiver := .receiving
  recvTask := ⟨false⟩
  got := []

/-- What the sender makes of a result: it goes on behind what was sent, or waits. -/
def Link.sent (link : Link) : Except Errno Nat × FfkqTask → Link
  | (.ok count, task) =>
      { link with rest := (ffiovecArrayShift link.rest count).2, sendTask := task }
  | (.error _, task) => { link with sender := .waiting, sendTask := task }

/-- What the receiver makes of a result: it keeps the data, is done at the end, or waits. -/
def Link.received (link : Link) : Except Errno (List Byte) × FfkqTask → Link
  | (.ok data, task) =>
      if data = [] then { link with receiver := .closed, recvTask := task }
      else { link with got := link.got ++ data, recvTask := task }
  | (.error _, task) => { link with receiver := .waiting, recvTask := task }

/-- The calls of both sides, reports that they see, and reports without a reason. -/
inductive LinkEvent where
  | sendv (answer : Option Nat)
  | fin
  | wakeSender
  | recv (count : Nat) (report : Bool)
  | recvNothing
  | wakeReceiver
  | signal (write read : Bool)
deriving DecidableEq, Repr

/-- What `writev` can answer, where the sockets have room for `room` bytes: it takes some bytes
that fit, and refuses only if there are bytes that were not received. -/
def CanWrite (room : Nat) (channel : EdgeChannel Byte) (size : Nat) : Option Nat → Prop
  | some count => 0 < count ∧ count ≤ size ∧ channel.items.length + count ≤ room
  | none => channel.items ≠ []

instance (room : Nat) (channel : EdgeChannel Byte) (size : Nat) (answer : Option Nat) :
    Decidable (CanWrite room channel size answer) :=
  match answer with
  | some _ => inferInstanceAs (Decidable (_ ∧ _))
  | none => inferInstanceAs (Decidable (_ ≠ _))

inductive Step (room cap : Nat) : Link → LinkEvent → Link → Prop where
  | sendv {link : Link} {answer : Option Nat} (sending : link.sender = .sending)
      (some : link.rest.flatten ≠ [])
      (can : CanWrite room link.channel link.rest.flatten.length answer) :
      Step room cap link (.sendv answer)
        { link.sent (ffsockSendvAsync link.channel link.rest answer) with
          channel := (writev link.channel link.rest answer).2 }
  | fin {link : Link} (sending : link.sender = .sending) (nothing : link.rest.flatten = []) :
      Step room cap link .fin { link with channel := link.channel.finish, sender := .done }
  | wakeSender {link : Link} (waiting : link.sender = .waiting)
      (edge : link.channel.writeEdge = true) :
      Step room cap link .wakeSender
        { link with channel := link.channel.wakeWriter, sender := .sending }
  | recv {link : Link} {count : Nat} {report : Bool} (receiving : link.receiver = .receiving)
      (some : 0 < count) (fits : count ≤ cap) (inside : count ≤ link.channel.items.length)
      (reports : link.channel.Reports count report) :
      Step room cap link (.recv count report)
        { link.received (ffsockRecvAsync link.channel count) with
          channel := link.channel.take count report }
  | recvNothing {link : Link} (receiving : link.receiver = .receiving)
      (nothing : link.channel.items = []) :
      Step room cap link .recvNothing (link.received (ffsockRecvAsync link.channel cap))
  | wakeReceiver {link : Link} (waiting : link.receiver = .waiting)
      (edge : link.channel.readEdge = true) :
      Step room cap link .wakeReceiver
        { link with channel := link.channel.wakeReader, receiver := .receiving }
  | signal {link : Link} {write read : Bool} :
      Step room cap link (.signal write read)
        { link with
          channel :=
            { link.channel with
              writeEdge := link.channel.writeEdge || write
              readEdge := link.channel.readEdge || read } }

/-! ### What is transferred -/

structure Sound (room : Nat) (data : List Byte) (link : Link) : Prop where
  wakes : link.channel.Wakes link.sender.waits link.receiver.waits
  stream : data = link.got ++ link.channel.items ++ link.rest.flatten
  bounded : link.channel.items.length ≤ room
  ended : link.channel.ended = true ↔ link.sender = .done
  done : link.sender = .done → link.rest.flatten = []
  closed : link.receiver = .closed → link.channel.items = [] ∧ link.channel.ended = true

theorem Sound.start (room : Nat) (data : List (List Byte)) :
    Sound room data.flatten (start data) where
  wakes := .start
  stream := rfl
  bounded := Nat.zero_le room
  ended := iff_of_false Bool.false_ne_true SendPosition.noConfusion
  done wrong := absurd wrong SendPosition.noConfusion
  closed wrong := absurd wrong RecvPosition.noConfusion

/-- The receiver gets what was read, -/
theorem received_some {link : Link} {count : Nat} (some : 0 < count)
    (inside : count ≤ link.channel.items.length) :
    link.received (ffsockRecvAsync link.channel count) =
      { link with got := link.got ++ link.channel.items.take count, recvTask := ⟨false⟩ } := by
  have notEmpty : link.channel.items ≠ [] := by
    intro nothing
    rw [nothing, List.length_nil] at inside
    exact Nat.not_lt.mpr inside some
  have notNothing : link.channel.items.take count ≠ [] := by
    rw [Ne, List.take_eq_nil_iff, not_or]
    exact ⟨Nat.ne_of_gt some, notEmpty⟩
  simp only [ffsockRecvAsync, recv, if_neg notEmpty, asyncResult, Link.received,
    if_neg notNothing]

/-- or it is done, -/
theorem received_end {link : Link} (nothing : link.channel.items = [])
    (ended : link.channel.ended = true) (count : Nat) :
    link.received (ffsockRecvAsync link.channel count) =
      { link with receiver := .closed, recvTask := ⟨false⟩ } := by
  simp only [ffsockRecvAsync, recv, nothing, ended, if_true, asyncResult, Link.received]

/-- or it waits. -/
theorem received_again {link : Link} (nothing : link.channel.items = [])
    (running : link.channel.ended = false) (count : Nat) :
    link.received (ffsockRecvAsync link.channel count) =
      { link with receiver := .waiting, recvTask := ⟨true⟩ } := by
  simp only [ffsockRecvAsync, recv, nothing, running, if_true, Bool.false_eq_true, if_false,
    asyncResult, Link.received]

section Steps

variable {room cap : Nat} {data : List Byte} {before after : Link} {event : LinkEvent}

theorem Sound.step (sound : Sound room data before) (next : Step room cap before event after) :
    Sound room data after := by
  obtain ⟨wakes, stream, bounded, ended, done, closed⟩ := sound
  cases next with
  | @sendv answer sending some can =>
      have notEnded : before.channel.ended ≠ true := by
        rw [Ne, ended, sending]
        exact SendPosition.noConfusion
      have notClosed : before.receiver ≠ .closed := fun isClosed => notEnded (closed isClosed).2
      rw [sending] at wakes
      cases answer with
      | some count =>
          obtain ⟨_, _, fits⟩ := can
          refine ⟨?_, ?_, ?_, ?_, ?_, fun isClosed => absurd isClosed notClosed⟩
          · rw [← sending] at wakes
            exact wakes.put _
          · have shifted := flatten_ffiovecArrayShift before.rest count
            simp only [Link.sent, ffsockSendvAsync, writev, asyncResult, EdgeChannel.put, shifted,
              stream, List.append_assoc, List.take_append_drop]
          · rw [writev, EdgeChannel.put, List.length_append]
            exact Nat.le_trans (Nat.add_le_add_left (List.length_take_le _ _) _) fits
          · exact ended
          · exact fun isDone => absurd (sending.symm.trans isDone) SendPosition.noConfusion
      | none =>
          refine ⟨wakes.refuse can, stream, bounded, ?_, ?_, closed⟩
          · exact iff_of_false notEnded SendPosition.noConfusion
          · exact fun isDone => absurd isDone SendPosition.noConfusion
  | fin sending nothing =>
      rw [sending] at wakes
      refine ⟨wakes.finish, stream, bounded, iff_of_true rfl rfl, fun _ => nothing, ?_⟩
      exact fun isClosed => ⟨(closed isClosed).1, rfl⟩
  | wakeSender waiting edge =>
      refine ⟨wakes.wakeWriter, stream, bounded, ?_, ?_, closed⟩
      · apply iff_of_false _ SendPosition.noConfusion
        rw [EdgeChannel.wakeWriter, ended, waiting]
        exact SendPosition.noConfusion
      · exact fun isDone => absurd isDone SendPosition.noConfusion
  | @recv count report receiving some fits inside reports =>
      rw [receiving] at wakes
      rw [received_some some inside]
      refine ⟨?_, ?_, ?_, ended, done, ?_⟩
      · rw [receiving]
        exact wakes.take reports
      · rw [stream, EdgeChannel.take]
        simp only [List.append_assoc]
        rw [← List.append_assoc (before.channel.items.take count), List.take_append_drop]
      · rw [EdgeChannel.take, List.length_drop]
        exact Nat.le_trans (Nat.sub_le _ _) bounded
      · exact fun isClosed => absurd (receiving.symm.trans isClosed) RecvPosition.noConfusion
  | recvNothing receiving nothing =>
      rw [receiving] at wakes
      cases isEnded : before.channel.ended with
      | true =>
          rw [received_end nothing isEnded]
          exact ⟨wakes, stream, bounded, ended, done, fun _ => ⟨nothing, isEnded⟩⟩
      | false =>
          rw [received_again nothing isEnded]
          refine ⟨wakes.refuseReader nothing isEnded, stream, bounded, ended, done, ?_⟩
          exact fun isClosed => absurd isClosed RecvPosition.noConfusion
  | wakeReceiver waiting edge =>
      refine ⟨wakes.wakeReader, stream, bounded, ended, done, ?_⟩
      exact fun isClosed => absurd isClosed RecvPosition.noConfusion
  | @signal write read =>
      refine ⟨⟨fun waits => ?_, fun waits => ?_⟩, stream, bounded, ended, done, closed⟩
      · rcases wakes.writer waits with edge | refused
        · exact Or.inl (Bool.or_eq_true_iff.mpr (Or.inl edge))
        · exact Or.inr refused
      · rcases wakes.reader waits with edge | nothing
        · exact Or.inl (Bool.or_eq_true_iff.mpr (Or.inl edge))
        · exact Or.inr nothing

end Steps

/-! ### Progress -/

/-- A call of one of the two sides. -/
def LinkEvent.Own : LinkEvent → Prop
  | .signal _ _ => False
  | _ => True

/-- Both sides are done. -/
def Finished (link : Link) : Prop := link.sender = .done ∧ link.receiver = .closed

def SendPosition.left : SendPosition → Nat
  | .sending => 5
  | .waiting => 3
  | .done => 0

def RecvPosition.left : RecvPosition → Nat
  | .receiving => 1
  | .waiting | .closed => 0

/-- What is left to do: bytes to be sent, bytes to be received, and reports to be seen. -/
def work (link : Link) : Nat :=
  7 * link.rest.flatten.length + 4 * link.channel.items.length + 3 * link.channel.writeEdge.toNat +
    2 * link.channel.readEdge.toNat + link.channel.refused.toNat + link.sender.left +
    link.receiver.left

section Progress

variable {room cap : Nat} {data : List Byte} {link before after : Link} {event : LinkEvent}

/-- Every call leaves less to do. -/
theorem work_lt (next : Step room cap before event after) (own : event.Own) :
    work after < work before := by
  unfold work
  cases next with
  | @sendv answer sending some can =>
      cases answer with
      | some count =>
          obtain ⟨positive, inside, _⟩ := can
          have shifted := flatten_ffiovecArrayShift before.rest count
          have read := Bool.toNat_le before.channel.readEdge
          simp only [Link.sent, ffsockSendvAsync, writev, asyncResult, EdgeChannel.put, shifted,
            List.length_append, List.length_take, List.length_drop, Bool.toNat_true]
          omega
      | none =>
          simp only [Link.sent, ffsockSendvAsync, writev, asyncResult, EdgeChannel.refuse,
            sending, SendPosition.left, Bool.toNat_true]
          omega
  | fin sending nothing =>
      simp only [EdgeChannel.finish, sending, SendPosition.left, Bool.toNat_true]
      omega
  | wakeSender waiting edge =>
      simp only [EdgeChannel.wakeWriter, waiting, edge, SendPosition.left, Bool.toNat_true,
        Bool.toNat_false]
      omega
  | @recv count report receiving some fits inside reports =>
      have write := Bool.toNat_le report
      rw [received_some some inside]
      simp only [EdgeChannel.take, List.length_drop]
      cases report with
      | true =>
          simp only [Bool.or_true, Bool.not_true, Bool.and_false, Bool.toNat_true,
            Bool.toNat_false]
          omega
      | false =>
          simp only [Bool.or_false, Bool.not_false, Bool.and_true]
          omega
  | recvNothing receiving nothing =>
      cases isEnded : before.channel.ended with
      | true =>
          rw [received_end nothing isEnded, receiving]
          simp only [RecvPosition.left]
          omega
      | false =>
          rw [received_again nothing isEnded, receiving]
          simp only [RecvPosition.left]
          omega
  | wakeReceiver waiting edge =>
      simp only [EdgeChannel.wakeReader, waiting, edge, RecvPosition.left, Bool.toNat_true,
        Bool.toNat_false]
      omega
  | signal => exact absurd own id

/-- A side can take a step until both are done. -/
theorem can_step (roomy : 0 < room) (capable : 0 < cap) (sound : Sound room data link)
    (unfinished : ¬ Finished link) :
    ∃ event after, event.Own ∧ Step room cap link event after := by
  have receives : link.receiver = .receiving →
      ∃ event after, event.Own ∧ Step room cap link event after := by
    intro receiving
    cases items : link.channel.items with
    | nil => exact ⟨.recvNothing, _, trivial, .recvNothing receiving items⟩
    | cons first rest =>
        have inside : 1 ≤ link.channel.items.length := by
          rw [items]
          exact Nat.le_add_left _ _
        exact ⟨.recv 1 true, _, trivial,
          .recv receiving Nat.one_pos capable inside fun _ _ => rfl⟩
  cases sender : link.sender with
  | sending =>
      by_cases nothing : link.rest.flatten = []
      · exact ⟨.fin, _, trivial, .fin sender nothing⟩
      · by_cases empty : link.channel.items = []
        · have fits : CanWrite room link.channel link.rest.flatten.length (some 1) := by
            refine ⟨Nat.one_pos, List.length_pos_iff.mpr nothing, ?_⟩
            rw [empty]
            exact roomy
          exact ⟨.sendv (some 1), _, trivial, .sendv sender nothing fits⟩
        · exact ⟨.sendv none, _, trivial, .sendv sender nothing empty⟩
  | waiting =>
      cases receiver : link.receiver with
      | receiving => exact receives receiver
      | waiting =>
          have wakes := sound.wakes
          rw [sender, receiver] at wakes
          rcases wakes.not_both_asleep with edge | edge
          · exact ⟨.wakeSender, _, trivial, .wakeSender sender edge⟩
          · exact ⟨.wakeReceiver, _, trivial, .wakeReceiver receiver edge⟩
      | closed =>
          have isDone := sound.ended.mp (sound.closed receiver).2
          rw [sender] at isDone
          cases isDone
  | done =>
      cases receiver : link.receiver with
      | receiving => exact receives receiver
      | waiting =>
          have waits : link.receiver.waits = true := by rw [receiver]; rfl
          rcases sound.wakes.reader waits with edge | ⟨_, running⟩
          · exact ⟨.wakeReceiver, _, trivial, .wakeReceiver receiver edge⟩
          · rw [sound.ended.mpr sender] at running
            cases running
      | closed => exact absurd ⟨sender, receiver⟩ unfinished

/-- The calls of both sides are no more than there is to do. -/
theorem length_le_work {trace : List LinkEvent} {final : Link}
    (run : Run (Step room cap) link trace final) (own : ∀ event ∈ trace, event.Own) :
    trace.length + work final ≤ work link := by
  induction run with
  | refl => exact Nat.le_of_eq (Nat.zero_add _)
  | @snoc past before event after _ next inductionHypothesis =>
      have bound := inductionHypothesis fun event member =>
        own event (List.mem_append_left _ member)
      have less := work_lt next (own event (List.mem_append_right _ (List.mem_singleton.mpr rfl)))
      rw [List.length_append, List.length_singleton]
      omega

theorem sound_run (sound : Sound room data link) {trace : List LinkEvent} {final : Link}
    (run : Run (Step room cap) link trace final) : Sound room data final :=
  run.invariant (Sound room data) sound fun _ _ _ sound next => sound.step next

end Progress

/-- Whatever the sockets take and whenever reports come: what the receiver got is the beginning
of the data, and all of it once it has seen the end; until both sides are done one of them can
take a step, and they take no more steps than there is to do. -/
theorem stream_transferred {room cap : Nat} (roomy : 0 < room) (capable : 0 < cap)
    {data : List (List Byte)} {trace : List LinkEvent} {link : Link}
    (run : Run (Step room cap) (start data) trace link) :
    link.got <+: data.flatten ∧ link.channel.items.length ≤ room ∧
      (link.receiver = .closed → link.got = data.flatten) ∧
      (¬ Finished link → ∃ event after, event.Own ∧ Step room cap link event after) ∧
      ∀ rest final, Run (Step room cap) link rest final → (∀ event ∈ rest, event.Own) →
        rest.length ≤ work link := by
  have sound := sound_run (Sound.start room data) run
  refine ⟨?_, sound.bounded, fun closed => ?_, can_step roomy capable sound, ?_⟩
  · rw [sound.stream, List.append_assoc]
    exact List.prefix_append _ _
  · obtain ⟨nothing, ended⟩ := sound.closed closed
    rw [sound.stream, nothing, sound.done (sound.ended.mp ended), List.append_nil,
      List.append_nil]
  · intro rest final steps own
    have bound := length_le_work steps own
    omega

/-- Three bytes in two buffers go through sockets with room for two. -/
def threeBytes : List LinkEvent :=
  [.recvNothing, .sendv (some 2), .sendv none, .wakeReceiver, .recv 2 true, .wakeSender,
    .sendv (some 1), .fin, .recv 1 false, .recvNothing]

/-- The receiver gets them. -/
theorem stream_transferred_three : ∃ link,
    Run (Step 2 8) (start [[1], [], [2, 3]]) threeBytes link ∧ link.got = [1, 2, 3] := by
  have reached : ∃ link, Run (Step 2 8) (start [[1], [], [2, 3]]) threeBytes link ∧
      link.receiver = .closed := by
    refine ⟨_, .snoc (.snoc (.snoc (.snoc (.snoc (.snoc (.snoc (.snoc (.snoc (.snoc .refl
      (.recvNothing rfl rfl)) (.sendv rfl ?_ ?_)) (.sendv rfl ?_ ?_)) (.wakeReceiver rfl rfl))
      (.recv rfl ?_ ?_ ?_ ?_)) (.wakeSender rfl rfl)) (.sendv rfl ?_ ?_)) (.fin rfl rfl))
      (.recv rfl ?_ ?_ ?_ ?_)) (.recvNothing rfl rfl), rfl⟩
    all_goals decide
  obtain ⟨link, run, closed⟩ := reached
  exact ⟨link, run, (stream_transferred (by decide) (by decide) run).2.2.1 closed⟩

end Ffos.Socket.Transfer
