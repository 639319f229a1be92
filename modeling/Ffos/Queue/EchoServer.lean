/-
Module: Ffos.Queue.EchoServer
Purpose: The server of examples/tcp-echo-server.c over the kernel queue: each client gets back
  what it has sent.
Trusted boundary: a system call that fails ends the process (`ecs_die`), and the run with it
Main exports: EchoPosition, EchoSys, EchoEvent, Step, Echoing, echo_served, Idle, work,
  echo_completes
-/
import Ffos.Lib.Transition
import Ffos.Queue.Network
import Mathlib.Algebra.GroupWithZero.Nat
import Mathlib.Algebra.Order.BigOperators.Group.List
import Mathlib.Algebra.Order.Ring.Nat

namespace Ffos.Queue.Echo

open Ffos.Lib

/-! ### The server -/

/-- `sizeof(buf)` -/
def bufSize : Nat := 1024

/-- Where the server is: in `ffkq_wait`, at `ffsock_accept`, at `ffsock_recv` of a connection, or
at `ffsock_send` with what it has received of it. -/
inductive EchoPosition where
  | waiting
  | accepting
  | receiving (c : Conn)
  | sending (c : Conn) (data : List Byte)
deriving DecidableEq, Repr

/-- The connection that the server works on. -/
def EchoPosition.conn : EchoPosition → Option Conn
  | .waiting | .accepting => none
  | .receiving c | .sending c _ => some c

/-- What the server has received of a connection and not sent back. -/
def EchoPosition.inHand (c : Conn) : EchoPosition → List Byte
  | .sending other data => if other = c then data else []
  | _ => []

/-- The sockets, the server, and all that was sent back to each client. -/
structure EchoSys where
  net : Net
  position : EchoPosition
  echoed : Conn → List Byte

def start : EchoSys := ⟨Net.start, .waiting, fun _ => []⟩

/-- The clients and the kernel, and the calls of the server. `send` has what is passed to
`ffsock_send` and the number of bytes that it returns. -/
inductive EchoEvent where
  | net (event : NetEvent)
  | waitListening
  | wait (c : Conn)
  | accept (c : Conn)
  | acceptAgain
  | recv (count : Nat)
  | recvAgain
  | recvEnd
  | send (data : List Byte) (count : Nat)
deriving DecidableEq, Repr

/-- `ecs_run`, `ecs_accept`, `ecs_conn_recv` and `ecs_conn_send`. The loop of `ecs_accept` ends
after its first iteration, and `ecs_conn_send` does not look at how much was sent. -/
inductive Step : EchoSys → EchoEvent → EchoSys → Prop where
  | net {sys : EchoSys} {event : NetEvent} (enabled : event.Enabled sys.net) :
      Step sys (.net event) { sys with net := sys.net.after event }
  | waitListening {sys : EchoSys} (position : sys.position = .waiting)
      (listening : sys.net.listening = true) :
      Step sys .waitListening { sys with net := sys.net.ffkqWaitListening, position := .accepting }
  | wait {sys : EchoSys} {c : Conn} (position : sys.position = .waiting)
      (edge : sys.net.queue.edge c = true) :
      Step sys (.wait c) { sys with net := sys.net.ffkqWait c, position := .receiving c }
  | accept {sys : EchoSys} {c : Conn} {rest : List Conn} (position : sys.position = .accepting)
      (first : sys.net.backlog = c :: rest) :
      Step sys (.accept c) { sys with net := sys.net.accept c rest, position := .receiving c }
  | acceptAgain {sys : EchoSys} (position : sys.position = .accepting)
      (nobody : sys.net.backlog = []) : Step sys .acceptAgain { sys with position := .waiting }
  | recv {sys : EchoSys} {c : Conn} {count : Nat} (position : sys.position = .receiving c)
      (some : 0 < count) (inside : count ≤ (sys.net.queue.waiting c).length)
      (fits : count ≤ bufSize) :
      Step sys (.recv count)
        { sys with
          net := sys.net.recv c count
          position := .sending c ((sys.net.queue.waiting c).take count) }
  | recvAgain {sys : EchoSys} {c : Conn} (position : sys.position = .receiving c)
      (nothing : sys.net.queue.waiting c = []) (running : sys.net.queue.ended c = false) :
      Step sys .recvAgain { sys with position := .waiting }
  | recvEnd {sys : EchoSys} {c : Conn} (position : sys.position = .receiving c)
      (nothing : sys.net.queue.waiting c = []) (ended : sys.net.queue.ended c = true) :
      Step sys .recvEnd { sys with net := sys.net.close c, position := .waiting }
  | send {sys : EchoSys} {c : Conn} {data : List Byte} {count : Nat}
      (position : sys.position = .sending c data) (inside : count ≤ data.length) :
      Step sys (.send data count)
        { sys with
          position := .receiving c
          echoed := Function.update sys.echoed c (sys.echoed c ++ data.take count) }

/-! ### What is echoed -/

/-- `ffsock_send` takes all the data that it is given. -/
def EchoEvent.Complete : EchoEvent → Prop
  | .send data count => count = data.length
  | _ => True

instance (event : EchoEvent) : Decidable event.Complete :=
  match event with
  | .send data count => inferInstanceAs (Decidable (count = data.length))
  | .net _ | .waitListening | .wait _ | .accept _ | .acceptAgain | .recv _ | .recvAgain
  | .recvEnd => isTrue trivial

/-- What was received of each connection was sent back, or is in the hands of the server. -/
def Kept (sys : EchoSys) : Prop := ∀ c, sys.net.taken c = sys.echoed c ++ sys.position.inHand c

section Steps

variable {before after : EchoSys} {event : EchoEvent}

/-- The server works on one connection at a time. -/
theorem sound_step (sound : before.net.Sound before.position.conn)
    (next : Step before event after) : after.net.Sound after.position.conn := by
  cases next with
  | net enabled => exact sound.after enabled
  | waitListening position _ =>
      rw [position] at sound
      exact sound.ffkqWaitListening
  | wait position edge =>
      rw [position] at sound
      exact sound.ffkqWait edge
  | accept position first =>
      rw [position] at sound
      exact sound.accept first
  | acceptAgain position _ =>
      rw [position] at sound
      exact sound
  | recv position _ _ _ =>
      rw [position] at sound
      exact sound.recv _
  | recvAgain position nothing running =>
      rw [position] at sound
      exact sound.leave nothing running
  | recvEnd position nothing ended =>
      rw [position] at sound
      exact sound.close nothing ended
  | send position _ =>
      rw [position] at sound
      exact sound

theorem kept_step (kept : Kept before) (next : Step before event after)
    (complete : event.Complete) : Kept after := by
  unfold Kept at kept ⊢
  cases next with
  | @net event enabled =>
      dsimp only
      rw [Net.taken_after]
      exact kept
  | waitListening position _ | wait position _ | accept position _ | acceptAgain position _
  | recvAgain position _ _ | recvEnd position _ _ =>
      rw [position] at kept
      exact kept
  | @recv c count position _ _ _ =>
      rw [position] at kept
      intro other
      by_cases same : other = c
      · have nothing : before.net.taken c = before.echoed c := by
          rw [kept c]
          exact List.append_nil _
        rw [same, EchoPosition.inHand, if_pos rfl]
        simp only [Net.recv, Function.update_self, nothing]
      · rw [EchoPosition.inHand, if_neg (Ne.symm same)]
        simp only [Net.recv, Function.update_of_ne same]
        exact kept other
  | @send c data count position _ =>
      have all : count = data.length := complete
      rw [position] at kept
      intro other
      have received := kept other
      by_cases same : other = c
      · rw [same, EchoPosition.inHand, if_pos rfl] at received
        rw [same, received, all, List.take_length]
        simp only [Function.update_self, EchoPosition.inHand, List.append_nil]
      · rw [EchoPosition.inHand, if_neg (Ne.symm same)] at received
        simp only [Function.update_of_ne same, EchoPosition.inHand]
        exact received

end Steps

section Runs

variable {trace : List EchoEvent} {sys : EchoSys}

theorem sound_run (run : Run Step start trace sys) : sys.net.Sound sys.position.conn :=
  run.invariant (fun sys => sys.net.Sound sys.position.conn) Net.Sound.start
    fun _ _ _ sound next => sound_step sound next

theorem kept_run (run : Run Step start trace sys) (complete : ∀ event ∈ trace, event.Complete) :
    Kept sys := by
  induction run with
  | refl => exact fun _ => rfl
  | @snoc past before event after _ next inductionHypothesis =>
      apply kept_step (inductionHypothesis _) next
      · exact complete event (List.mem_append_right _ (List.mem_singleton.mpr rfl))
      · exact fun event member => complete event (List.mem_append_left _ member)

end Runs

/-- Whatever the clients do and whenever the kernel reports it: what a client got back is the
beginning of what it has sent. Where the server waits and nothing is reported, every client that
was accepted got everything back, and was closed if it is done with sending. -/
theorem echo_served {trace : List EchoEvent} {sys : EchoSys} (run : Run Step start trace sys)
    (complete : ∀ event ∈ trace, event.Complete) :
    (∀ c, sys.echoed c <+: sys.net.sent c) ∧
      (sys.position = .waiting → (∀ c, sys.net.queue.edge c = false) →
        ∀ c ∈ sys.net.opened, c ∉ sys.net.backlog →
          sys.echoed c = sys.net.sent c ∧
            (sys.net.closed c = true ↔ sys.net.queue.ended c = true)) := by
  have sound := sound_run run
  have kept := kept_run run complete
  constructor
  · intro c
    rw [sound.stream c, kept c, List.append_assoc]
    exact List.prefix_append _ _
  · intro position silent c member accepted
    rw [Kept, position] at kept
    rw [position] at sound
    obtain ⟨all, closed⟩ := sound.quiet (silent c) member accepted
    have echoed := kept c
    rw [all] at echoed
    exact ⟨(echoed.trans (List.append_nil _)).symm, closed⟩

/-- A client connects, sends three bytes, gets them back in two parts and is done. -/
def oneClient : List EchoEvent :=
  [.net (.connect 7), .net (.arrive 7 [1, 2, 3]), .waitListening, .accept 7, .recv 2,
    .send [1, 2] 2, .net (.finish 7), .recv 1, .send [3] 1, .recvEnd]

theorem oneClient_run : ∃ sys, Run Step start oneClient sys ∧ sys.position = .waiting ∧
    sys.net.opened = [7] ∧ sys.net.backlog = [] ∧ sys.net.sent 7 = [1, 2, 3] ∧
    sys.net.queue.edge 7 = false := by
  refine ⟨_, .snoc (.snoc (.snoc (.snoc (.snoc (.snoc (.snoc (.snoc (.snoc (.snoc .refl
    (.net ?_)) (.net ?_)) (.waitListening rfl rfl)) (.accept rfl rfl))
    (.recv rfl ?_ ?_ ?_)) (.send rfl ?_)) (.net ?_)) (.recv rfl ?_ ?_ ?_)) (.send rfl ?_))
    (.recvEnd rfl ?_ ?_), rfl, rfl, rfl, rfl, rfl⟩
  all_goals decide

/-- It got everything back. -/
theorem echo_served_one : ∃ sys, Run Step start oneClient sys ∧ sys.echoed 7 = [1, 2, 3] := by
  obtain ⟨sys, run, position, opened, backlog, sent, silent⟩ := oneClient_run
  refine ⟨sys, run, ?_⟩
  have sound := sound_run run
  have nothingElse : ∀ c, sys.net.queue.edge c = false := by
    intro c
    apply Bool.eq_false_iff.mpr
    intro edge
    have member := sound.known c (sound.reported c edge)
    rw [opened] at member
    rw [List.mem_singleton.mp member, silent] at edge
    cases edge
  have complete : ∀ event ∈ oneClient, event.Complete := by decide
  have served := (echo_served run complete).2 position nothingElse 7
    (by rw [opened]; exact List.mem_singleton.mpr rfl) (by rw [backlog]; exact List.not_mem_nil)
  rw [served.1, sent]

/-! ### The server comes to rest -/

/-- A step of the server. -/
def EchoEvent.Own : EchoEvent → Prop
  | .net _ => False
  | _ => True

/-- Nothing is reported to a server that waits. -/
def Idle (sys : EchoSys) : Prop :=
  sys.position = .waiting ∧ sys.net.listening = false ∧ ∀ c, sys.net.queue.edge c = false

/-- What is left to do for a connection: its bytes, its report, and its place in the backlog. -/
def load (net : Net) (c : Conn) : Nat :=
  (net.queue.waiting c).length + (net.queue.edge c).toNat + 2 * net.backlog.count c

/-- The steps that are left before the server waits again. -/
def EchoPosition.left : EchoPosition → Nat
  | .waiting => 0
  | .accepting | .receiving _ => 1
  | .sending _ _ => 2

def work (sys : EchoSys) : Nat :=
  3 * (sys.net.opened.map (load sys.net)).sum + 3 * sys.net.listening.toNat + sys.position.left

section Progress

variable {sys before after : EchoSys} {event : EchoEvent}

/-- Less is left for one connection, and as much as before for the others. -/
theorem sum_load_lt {net later : Net} {c : Conn} (member : c ∈ net.opened)
    (others : ∀ other, other ≠ c → load later other = load net other)
    (less : load later c < load net c) :
    (net.opened.map (load later)).sum < (net.opened.map (load net)).sum := by
  apply List.sum_lt_sum
  · intro other _
    by_cases same : other = c
    · rw [same]
      exact Nat.le_of_lt less
    · exact Nat.le_of_eq (others other same)
  · exact ⟨c, member, less⟩

/-- A report that is taken is one thing less. -/
theorem sum_load_ffkqWait {net : Net} {busy : Option Conn} {c : Conn} (sound : net.Sound busy)
    (edge : net.queue.edge c = true) :
    (net.opened.map (load (net.ffkqWait c))).sum < (net.opened.map (load net)).sum := by
  apply sum_load_lt (sound.known c (sound.reported c edge))
  · intro other different
    simp only [load, Net.ffkqWait, EdgeQueue.report, Function.update_of_ne different]
  · simp only [load, Net.ffkqWait, EdgeQueue.report, Function.update_self, edge,
      Bool.toNat_true, Bool.toNat_false]
    omega

/-- A connection that leaves the backlog can be reported at once, which is less than it was. -/
theorem sum_load_accept {net : Net} {busy : Option Conn} {c : Conn} {rest : List Conn}
    (sound : net.Sound busy) (first : net.backlog = c :: rest) :
    (net.opened.map (load (net.accept c rest))).sum < (net.opened.map (load net)).sum := by
  have queued : c ∈ net.backlog := first ▸ List.mem_cons_self
  have silent : net.queue.edge c = false := by
    apply Bool.eq_false_iff.mpr
    intro edge
    have watched := sound.reported c edge
    rw [(sound.queued c queued).2] at watched
    cases watched
  apply sum_load_lt (sound.queued c queued).1
  · intro other different
    simp only [load, Net.accept, EdgeQueue.watch, Function.update_of_ne different, first,
      List.count_cons_of_ne (Ne.symm different)]
  · have report := Bool.toNat_le (decide (net.queue.Waits c))
    simp only [load, Net.accept, EdgeQueue.watch, Function.update_self, silent, first,
      List.count_cons_self, Bool.false_or, Bool.toNat_false]
    omega

theorem sum_load_recv {net : Net} {c : Conn} {count : Nat} (known : c ∈ net.opened)
    (some : 0 < count) (inside : count ≤ (net.queue.waiting c).length) :
    (net.opened.map (load (net.recv c count))).sum < (net.opened.map (load net)).sum := by
  apply sum_load_lt known
  · intro other different
    simp only [load, Net.recv, EdgeQueue.take, Function.update_of_ne different]
  · simp only [load, Net.recv, EdgeQueue.take, Function.update_self, List.length_drop]
    omega

theorem sum_load_close (net : Net) (c : Conn) :
    (net.opened.map (load (net.close c))).sum ≤ (net.opened.map (load net)).sum := by
  apply List.sum_le_sum
  intro other _
  simp only [load, Net.close, EdgeQueue.unwatch, Function.update_apply]
  split
  · rw [Bool.toNat_false]
    omega
  · exact Nat.le_refl _

/-- A step that takes something off the load can bring the server as far as it will. -/
theorem work_lt_of_load (opened : after.net.opened = before.net.opened)
    (listening : after.net.listening = before.net.listening)
    (less : (before.net.opened.map (load after.net)).sum <
      (before.net.opened.map (load before.net)).sum) : work after < work before := by
  have left : after.position.left ≤ 2 := by
    cases after.position <;> simp [EchoPosition.left]
  unfold work
  rw [opened, listening]
  omega

/-- A step that adds nothing to the load brings the server nearer to waiting. -/
theorem work_lt_of_left (opened : after.net.opened = before.net.opened)
    (listening : after.net.listening = before.net.listening)
    (same : (before.net.opened.map (load after.net)).sum ≤
      (before.net.opened.map (load before.net)).sum)
    (nearer : after.position.left < before.position.left) : work after < work before := by
  unfold work
  rw [opened, listening]
  omega

/-- Every step of the server leaves less to do. -/
theorem work_lt (sound : before.net.Sound before.position.conn) (next : Step before event after)
    (own : event.Own) : work after < work before := by
  cases next with
  | net _ => exact absurd own id
  | waitListening position listening =>
      have same : load before.net.ffkqWaitListening = load before.net := rfl
      have opened : before.net.ffkqWaitListening.opened = before.net.opened := rfl
      have silent : before.net.ffkqWaitListening.listening = false := rfl
      unfold work
      rw [same, opened, silent, position, listening]
      simp only [EchoPosition.left, Bool.toNat_true, Bool.toNat_false]
      omega
  | wait position edge =>
      refine work_lt_of_load rfl rfl ?_
      exact sum_load_ffkqWait sound edge
  | accept position first =>
      refine work_lt_of_load rfl rfl ?_
      exact sum_load_accept sound first
  | @recv c count position some inside _ =>
      have known := sound.known c (sound.working c (by rw [position]; rfl))
      refine work_lt_of_load rfl rfl ?_
      exact sum_load_recv known some inside
  | acceptAgain position _ | recvAgain position _ _ | send position _ =>
      refine work_lt_of_left rfl rfl (Nat.le_refl _) ?_
      rw [position]
      exact Nat.lt_succ_self _
  | @recvEnd c position _ _ =>
      refine work_lt_of_left rfl rfl (sum_load_close before.net c) ?_
      rw [position]
      exact Nat.lt_succ_self _

/-- A server that is not idle can take a step, with everything sent that it has in its hands. -/
theorem can_step (busy : ¬ Idle sys) :
    ∃ event after, event.Own ∧ event.Complete ∧ Step sys event after := by
  cases position : sys.position with
  | waiting =>
      cases listening : sys.net.listening with
      | true => exact ⟨.waitListening, _, trivial, trivial, .waitListening position listening⟩
      | false =>
          have reported : ∃ c, sys.net.queue.edge c = true := by
            by_contra nothing
            rw [not_exists] at nothing
            exact busy ⟨position, listening, fun c => Bool.eq_false_iff.mpr (nothing c)⟩
          obtain ⟨c, edge⟩ := reported
          exact ⟨.wait c, _, trivial, trivial, .wait position edge⟩
  | accepting =>
      cases backlog : sys.net.backlog with
      | nil => exact ⟨.acceptAgain, _, trivial, trivial, .acceptAgain position backlog⟩
      | cons c rest => exact ⟨.accept c, _, trivial, trivial, .accept position backlog⟩
  | receiving c =>
      cases bytes : sys.net.queue.waiting c with
      | nil =>
          cases ended : sys.net.queue.ended c with
          | false => exact ⟨.recvAgain, _, trivial, trivial, .recvAgain position bytes ended⟩
          | true => exact ⟨.recvEnd, _, trivial, trivial, .recvEnd position bytes ended⟩
      | cons first rest =>
          have inside : 1 ≤ (sys.net.queue.waiting c).length := by
            rw [bytes]
            exact Nat.le_add_left _ _
          exact ⟨.recv 1, _, trivial, trivial, .recv position Nat.one_pos inside (by decide)⟩
  | sending c data =>
      exact ⟨.send data data.length, _, trivial, rfl, .send position (Nat.le_refl _)⟩

/-- The steps of the server alone are no more than there was to do. -/
theorem length_le_work (sound : sys.net.Sound sys.position.conn) {trace : List EchoEvent}
    {final : EchoSys} (run : Run Step sys trace final) (own : ∀ event ∈ trace, event.Own) :
    final.net.Sound final.position.conn ∧ trace.length + work final ≤ work sys := by
  induction run with
  | refl => exact ⟨sound, by rw [List.length_nil, Nat.zero_add]⟩
  | @snoc past before event after _ next inductionHypothesis =>
      obtain ⟨soundBefore, bound⟩ :=
        inductionHypothesis fun event member => own event (List.mem_append_left _ member)
      have less := work_lt soundBefore next
        (own event (List.mem_append_right _ (List.mem_singleton.mpr rfl)))
      refine ⟨sound_step soundBefore next, ?_⟩
      rw [List.length_append, List.length_singleton]
      omega

end Progress

end Ffos.Queue.Echo
