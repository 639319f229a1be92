/-
Module: Ffos.Queue.MsgRouter
Purpose: The server of examples/tcp-msg-router.c over the kernel queue: what one client sends is
  handed to all clients.
Trusted boundary: `ffslice_rmswap` of ffbase moves the last element into the place; a system call
  that fails ends the process (`mrt_die`), and the run with it; memory does not run out
Main exports: ffsliceRmswap, mrtSrvUnlinkConn, RouterPosition, Chunk, RouterSys, RouterEvent, Step,
  Routing, messages_routed
-/
import Ffos.Lib.Transition
import Ffos.Queue.Network

namespace Ffos.Queue.Router

open Ffos.Lib

/-! ### The list of connections -/

/-- `ffslice_rmswapT` of one element: the last one is moved into its place. -/
def ffsliceRmswap (slice : List Conn) (place : Nat) : List Conn :=
  match slice.getLast? with
  | none => []
  | some last => (slice.set place last).dropLast

/-- `mrt_srv_unlink_conn`. -/
def mrtSrvUnlinkConn (conns : List Conn) (c : Conn) : List Conn :=
  match conns.findIdx? (· == c) with
  | none => conns
  | some place => ffsliceRmswap conns place

/-- The other connections are kept, in another order. -/
theorem unlink_perm {before after : List Conn} {c : Conn} (first : c ∉ before) :
    (mrtSrvUnlinkConn (before ++ c :: after) c).Perm (before ++ after) := by
  have absent : before.findIdx? (· == c) = none := by
    rw [List.findIdx?_eq_none_iff]
    intro other member
    apply beq_false_of_ne
    rintro rfl
    exact first member
  have place : (before ++ c :: after).findIdx? (· == c) = some before.length := by
    rw [List.findIdx?_append, absent, List.findIdx?_cons, if_pos (beq_self_eq_true c)]
    simp
  rw [mrtSrvUnlinkConn, place]
  dsimp only
  rcases List.eq_nil_or_concat' after with rfl | ⟨rest, last, rfl⟩
  · have isLast : (before ++ [c]).getLast? = some c := List.getLast?_concat
    rw [ffsliceRmswap, isLast, List.append_nil]
    simp
  · have isLast : (before ++ c :: (rest ++ [last])).getLast? = some last := by
      rw [← List.cons_append, ← List.append_assoc]
      exact List.getLast?_concat
    have moved : (before ++ c :: (rest ++ [last])).set before.length last =
        (before ++ last :: rest) ++ [last] := by
      rw [List.set_append_right _ _ (Nat.le_refl _), Nat.sub_self, List.set_cons_zero,
        List.append_assoc, List.cons_append]
    rw [ffsliceRmswap, isLast]
    dsimp only
    rw [moved, List.dropLast_concat]
    apply List.Perm.append_left
    exact (List.perm_append_singleton last rest).symm

/-- A connection that is unlinked is gone, and no other one. -/
theorem unlink_spec {conns : List Conn} (distinct : conns.Nodup) (c : Conn) :
    (mrtSrvUnlinkConn conns c).Nodup ∧
      ∀ other, other ∈ mrtSrvUnlinkConn conns c ↔ other ∈ conns ∧ other ≠ c := by
  by_cases member : c ∈ conns
  · obtain ⟨before, after, rfl⟩ := List.append_of_mem member
    have apart := List.nodup_middle.mp distinct
    obtain ⟨absent, others⟩ := List.nodup_cons.mp apart
    have perm := @unlink_perm before after c fun inFront =>
      absent (List.mem_append_left _ inFront)
    refine ⟨perm.nodup_iff.mpr others, fun other => ?_⟩
    rw [perm.mem_iff]
    constructor
    · intro kept
      refine ⟨?_, ?_⟩
      · rcases List.mem_append.mp kept with inFront | behind
        · exact List.mem_append_left _ inFront
        · exact List.mem_append_right _ (List.mem_cons_of_mem c behind)
      · rintro rfl
        exact absent kept
    · rintro ⟨known, different⟩
      rcases List.mem_append.mp known with inFront | behind
      · exact List.mem_append_left _ inFront
      · exact List.mem_append_right _ ((List.mem_cons.mp behind).resolve_left different)
  · have absent : conns.findIdx? (· == c) = none := by
      rw [List.findIdx?_eq_none_iff]
      intro other known
      apply beq_false_of_ne
      rintro rfl
      exact member known
    rw [mrtSrvUnlinkConn, absent]
    refine ⟨distinct, fun other => ⟨fun known => ⟨known, ?_⟩, fun both => both.1⟩⟩
    rintro rfl
    exact member known

/-! ### The server -/

/-- `sizeof(buf)` -/
def bufSize : Nat := 1024

/-- Where the server is: in `ffkq_wait`, at `ffsock_accept`, at `ffsock_recv` of a connection, or
in the loop of `mrt_srv_send`, with what it has received and the connections that are left. -/
inductive RouterPosition where
  | waiting
  | accepting
  | receiving (c : Conn)
  | routing (c : Conn) (data : List Byte) (rest : List Conn)
deriving DecidableEq, Repr

/-- The connection that the server works on. -/
def RouterPosition.conn : RouterPosition → Option Conn
  | .waiting | .accepting => none
  | .receiving c | .routing c _ _ => some c

/-- What was received at once: of which client, and the connections at that time. -/
structure Chunk where
  sender : Conn
  data : List Byte
  conns : List Conn
deriving DecidableEq, Repr

/-- A call of `ffsock_send`: the connection, what is passed, and the number of bytes that were
taken, or none if the client does not accept more data. -/
structure SendCall where
  conn : Conn
  data : List Byte
  taken : Option Nat
deriving DecidableEq, Repr

/-- The sockets, the server with `srv->conns`, all that was received, and all calls of
`ffsock_send`. -/
structure RouterSys where
  net : Net
  position : RouterPosition
  conns : List Conn
  chunks : List Chunk
  calls : List SendCall

def start : RouterSys := ⟨Net.start, .waiting, [], [], []⟩

/-- The clients and the kernel, and the calls of the server. -/
inductive RouterEvent where
  | net (event : NetEvent)
  | waitListening
  | wait (c : Conn)
  | accept (c : Conn)
  | acceptAgain
  | recv (c : Conn) (count : Nat)
  | recvAgain
  | recvEnd (c : Conn)
  | send (d : Conn) (taken : Option Nat)
  | sent
deriving DecidableEq, Repr

/-- `mrt_run`, `mrt_srv_accept`, `mrt_conn_recv` and `mrt_srv_send`. The loop of `mrt_srv_accept`
ends after its first iteration, and the client that has sent the data is one of those that it is
sent to. -/
inductive Step : RouterSys → RouterEvent → RouterSys → Prop where
  | net {sys : RouterSys} {event : NetEvent} (enabled : event.Enabled sys.net) :
      Step sys (.net event) { sys with net := sys.net.after event }
  | waitListening {sys : RouterSys} (position : sys.position = .waiting)
      (listening : sys.net.listening = true) :
      Step sys .waitListening { sys with net := sys.net.ffkqWaitListening, position := .accepting }
  | wait {sys : RouterSys} {c : Conn} (position : sys.position = .waiting)
      (edge : sys.net.queue.edge c = true) :
      Step sys (.wait c) { sys with net := sys.net.ffkqWait c, position := .receiving c }
  | accept {sys : RouterSys} {c : Conn} {rest : List Conn} (position : sys.position = .accepting)
      (first : sys.net.backlog = c :: rest) :
      Step sys (.accept c)
        { sys with
          net := sys.net.accept c rest
          position := .receiving c
          conns := sys.conns ++ [c] }
  | acceptAgain {sys : RouterSys} (position : sys.position = .accepting)
      (nobody : sys.net.backlog = []) : Step sys .acceptAgain { sys with position := .waiting }
  | recv {sys : RouterSys} {c : Conn} {count : Nat} (position : sys.position = .receiving c)
      (some : 0 < count) (inside : count ≤ (sys.net.queue.waiting c).length)
      (fits : count ≤ bufSize) :
      Step sys (.recv c count)
        { sys with
          net := sys.net.recv c count
          position := .routing c ((sys.net.queue.waiting c).take count) sys.conns
          chunks := sys.chunks ++ [⟨c, (sys.net.queue.waiting c).take count, sys.conns⟩] }
  | recvAgain {sys : RouterSys} {c : Conn} (position : sys.position = .receiving c)
      (nothing : sys.net.queue.waiting c = []) (running : sys.net.queue.ended c = false) :
      Step sys .recvAgain { sys with position := .waiting }
  | recvEnd {sys : RouterSys} {c : Conn} (position : sys.position = .receiving c)
      (nothing : sys.net.queue.waiting c = []) (ended : sys.net.queue.ended c = true) :
      Step sys (.recvEnd c)
        { sys with
          net := sys.net.close c
          position := .waiting
          conns := mrtSrvUnlinkConn sys.conns c }
  | send {sys : RouterSys} {c d : Conn} {data : List Byte} {rest : List Conn}
      {taken : Option Nat} (position : sys.position = .routing c data (d :: rest))
      (inside : ∀ count ∈ taken, count ≤ data.length) :
      Step sys (.send d taken)
        { sys with
          position := .routing c data rest
          calls := sys.calls ++ [⟨d, data, taken⟩] }
  | sent {sys : RouterSys} {c : Conn} {data : List Byte}
      (position : sys.position = .routing c data []) :
      Step sys .sent { sys with position := .receiving c }

/-! ### What is routed -/

/-- The calls that are left in the loop of `mrt_srv_send`. -/
def RouterPosition.pending : RouterPosition → List (Conn × List Byte)
  | .routing _ data rest => rest.map (·, data)
  | _ => []

/-- The calls that have to be made for what was received. -/
def Chunk.calls (chunk : Chunk) : List (Conn × List Byte) := chunk.conns.map (·, chunk.data)

/-- What was received of a client. -/
def dataOf (c : Conn) (chunks : List Chunk) : List Byte :=
  (chunks.filter (·.sender = c)).flatMap Chunk.data

/-- A chunk goes once to each of several clients, of which its sender is one. -/
structure Chunk.Proper (chunk : Chunk) : Prop where
  distinct : chunk.conns.Nodup
  sender : chunk.sender ∈ chunk.conns

structure Routing (sys : RouterSys) : Prop where
  sound : sys.net.Sound sys.position.conn
  distinct : sys.conns.Nodup
  conns : ∀ c, c ∈ sys.conns ↔ sys.net.queue.watched c = true
  taken : ∀ c, sys.net.taken c = dataOf c sys.chunks
  calls : sys.calls.map (fun call => (call.conn, call.data)) ++ sys.position.pending =
    sys.chunks.flatMap Chunk.calls
  proper : ∀ chunk ∈ sys.chunks, chunk.Proper

theorem Routing.start : Routing start where
  sound := Net.Sound.start
  distinct := List.nodup_nil
  conns _ := iff_of_false List.not_mem_nil Bool.false_ne_true
  taken _ := rfl
  calls := rfl
  proper _ := (absurd · List.not_mem_nil)

theorem dataOf_concat (c : Conn) (chunks : List Chunk) (chunk : Chunk) :
    dataOf c (chunks ++ [chunk]) =
      dataOf c chunks ++ if chunk.sender = c then chunk.data else [] := by
  rw [dataOf, List.filter_append, List.flatMap_append, ← dataOf]
  split
  · next same => simp [same]
  · next different => simp [different]

theorem Routing.step {before after : RouterSys} {event : RouterEvent} (routing : Routing before)
    (next : Step before event after) : Routing after := by
  obtain ⟨sound, distinct, conns, taken, calls, proper⟩ := routing
  cases next with
  | @net event enabled =>
      refine ⟨sound.after enabled, distinct, ?_, ?_, calls, proper⟩
      · rw [Net.watched_after]
        exact conns
      · rw [Net.taken_after]
        exact taken
  | waitListening position _ =>
      rw [position] at sound calls
      exact ⟨sound.ffkqWaitListening, distinct, conns, taken, calls, proper⟩
  | wait position edge =>
      rw [position] at sound calls
      exact ⟨sound.ffkqWait edge, distinct, conns, taken, calls, proper⟩
  | @accept c rest position first =>
      rw [position] at sound calls
      have queued := sound.queued c (first ▸ List.mem_cons_self)
      have fresh : c ∉ before.conns := by
        rw [conns, queued.2]
        exact Bool.false_ne_true
      refine ⟨sound.accept first, ?_, ?_, taken, calls, proper⟩
      · apply List.Nodup.append distinct (List.nodup_singleton c)
        exact List.disjoint_singleton.mpr fresh
      · intro other
        rw [List.mem_append, List.mem_singleton, conns]
        simp only [Net.accept, EdgeQueue.watch, Function.update_apply]
        split
        · next same => exact iff_of_true (Or.inr same) rfl
        · next different => exact ⟨fun either => either.resolve_right different, Or.inl⟩
  | acceptAgain position _ =>
      rw [position] at sound calls
      exact ⟨sound, distinct, conns, taken, calls, proper⟩
  | @recv c count position _ _ _ =>
      rw [position] at sound calls
      refine ⟨sound.recv count, distinct, conns, ?_, ?_, ?_⟩
      · intro other
        rw [dataOf_concat, ← taken other]
        by_cases same : other = c
        · rw [same, if_pos rfl]
          simp only [Net.recv, Function.update_self]
        · rw [if_neg (Ne.symm same), List.append_nil]
          simp only [Net.recv, Function.update_of_ne same]
      · rw [List.flatMap_append, ← calls]
        simp [RouterPosition.pending, Chunk.calls]
      · intro chunk member
        rcases List.mem_append.mp member with old | new
        · exact proper chunk old
        · rw [List.mem_singleton.mp new]
          exact ⟨distinct, (conns c).mpr (sound.working c rfl)⟩
  | recvAgain position nothing running =>
      rw [position] at sound calls
      exact ⟨sound.leave nothing running, distinct, conns, taken, calls, proper⟩
  | @recvEnd c position nothing ended =>
      rw [position] at sound calls
      obtain ⟨stillDistinct, others⟩ := unlink_spec distinct c
      refine ⟨sound.close nothing ended, stillDistinct, ?_, taken, calls, proper⟩
      intro other
      rw [others, conns]
      simp only [Net.close, EdgeQueue.unwatch, Function.update_apply]
      split
      · next same => exact iff_of_false (fun both => both.2 same) Bool.false_ne_true
      · next different => exact ⟨fun both => both.1, fun watched => ⟨watched, different⟩⟩
  | send position _ =>
      rw [position] at sound calls
      refine ⟨sound, distinct, conns, taken, ?_, proper⟩
      rw [← calls]
      simp [RouterPosition.pending]
  | sent position =>
      rw [position] at sound calls
      exact ⟨sound, distinct, conns, taken, calls, proper⟩

/-! ### What a client gets -/

/-- A chunk is for a client that is connected, once. -/
theorem Chunk.Proper.calls_of {chunk : Chunk} (proper : chunk.Proper) (d : Conn) :
    (chunk.calls.filter (·.1 = d)).map Prod.snd =
      if d ∈ chunk.conns then [chunk.data] else [] := by
  have ofDistinct : ∀ conns : List Conn, conns.Nodup →
      ((conns.map (·, chunk.data)).filter (·.1 = d)).map Prod.snd =
        if d ∈ conns then [chunk.data] else [] := by
    intro conns distinct
    induction conns with
    | nil => rfl
    | cons first rest inductionHypothesis =>
        obtain ⟨absent, others⟩ := List.nodup_cons.mp distinct
        have later := inductionHypothesis others
        by_cases same : first = d
        · rw [same] at absent
          rw [if_neg absent] at later
          simp [same, later]
        · simp [same, Ne.symm same, later]
  exact ofDistinct chunk.conns proper.distinct

/-- What was passed to `ffsock_send` for a client. -/
def handed (d : Conn) (calls : List SendCall) : List (List Byte) :=
  (calls.filter (·.conn = d)).map (·.data)

/-- The chunks that were received while a client was connected. -/
def meant (d : Conn) (chunks : List Chunk) : List (List Byte) :=
  (chunks.filter (d ∈ ·.conns)).map (·.data)

theorem meant_eq (d : Conn) {chunks : List Chunk} (proper : ∀ chunk ∈ chunks, chunk.Proper) :
    ((chunks.flatMap Chunk.calls).filter (·.1 = d)).map Prod.snd = meant d chunks := by
  induction chunks with
  | nil => rfl
  | cons first rest inductionHypothesis =>
      have once := (proper first List.mem_cons_self).calls_of d
      have later := inductionHypothesis fun chunk member =>
        proper chunk (List.mem_cons_of_mem first member)
      rw [List.flatMap_cons, List.filter_append, List.map_append, once, later]
      by_cases member : d ∈ first.conns
      · simp [meant, member]
      · simp [meant, member]

theorem handed_eq (d : Conn) (calls : List SendCall) :
    ((calls.map fun call => (call.conn, call.data)).filter (·.1 = d)).map Prod.snd =
      handed d calls := by
  rw [List.filter_map, List.map_map]
  rfl

/-- What a client was handed is what was received since it is connected, without what is left in
the loop. -/
theorem Routing.handed_append {sys : RouterSys} (routing : Routing sys) (d : Conn) :
    handed d sys.calls ++ (sys.position.pending.filter (·.1 = d)).map Prod.snd =
      meant d sys.chunks := by
  rw [← handed_eq, ← List.map_append, ← List.filter_append, routing.calls,
    meant_eq d routing.proper]

theorem routing_run {trace : List RouterEvent} {sys : RouterSys} (run : Run Step start trace sys) :
    Routing sys :=
  run.invariant Routing Routing.start fun _ _ _ routing next => routing.step next

/-- Whatever the clients do and whenever the kernel reports it: the server's list has the clients
that were accepted and not closed, each once; what was received of a client is the beginning of
what it has sent; and to each client, its sender included, goes every chunk that was received while
it was connected, once and in order. Where the server waits and nothing is reported, all that the
accepted clients have sent was received and passed on, and those that are done were closed. -/
theorem messages_routed {trace : List RouterEvent} {sys : RouterSys}
    (run : Run Step start trace sys) :
    (sys.conns.Nodup ∧ ∀ c, c ∈ sys.conns ↔
      c ∈ sys.net.opened ∧ c ∉ sys.net.backlog ∧ sys.net.closed c = false) ∧
    (∀ chunk ∈ sys.chunks, chunk.sender ∈ chunk.conns) ∧
    (∀ c, dataOf c sys.chunks <+: sys.net.sent c) ∧
    (∀ d, handed d sys.calls <+: meant d sys.chunks) ∧
    (sys.position = .waiting → (∀ c, sys.net.queue.edge c = false) →
      (∀ d, handed d sys.calls = meant d sys.chunks) ∧
        ∀ c ∈ sys.net.opened, c ∉ sys.net.backlog →
          dataOf c sys.chunks = sys.net.sent c ∧
            (sys.net.closed c = true ↔ sys.net.queue.ended c = true)) := by
  have routing := routing_run run
  have sound := routing.sound
  refine ⟨⟨routing.distinct, fun c => ?_⟩, fun chunk member => (routing.proper chunk member).sender,
    fun c => ?_, fun d => ?_, fun position silent => ⟨fun d => ?_, fun c member accepted => ?_⟩⟩
  · rw [routing.conns, sound.watched_iff]
  · rw [sound.stream c, routing.taken c]
    exact List.prefix_append _ _
  · exact ⟨_, routing.handed_append d⟩
  · have all := routing.handed_append d
    rw [position] at all
    exact (List.append_nil _).symm.trans all
  · rw [position] at sound
    obtain ⟨received, closed⟩ := sound.quiet (silent c) member accepted
    exact ⟨(routing.taken c).symm.trans received, closed⟩

/-- Two clients connect, and one of them sends two bytes. -/
def twoClients : List RouterEvent :=
  [.net (.connect 1), .waitListening, .accept 1, .recvAgain, .net (.connect 2), .waitListening,
    .accept 2, .recvAgain, .net (.arrive 1 [5, 6]), .wait 1, .recv 1 2, .send 1 (some 2),
    .send 2 none, .sent, .recvAgain]

/-- Both get them. -/
theorem messages_routed_two : ∃ sys, Run Step start twoClients sys ∧
    dataOf 1 sys.chunks <+: [5, 6] ∧ handed 2 sys.calls = [[5, 6]] := by
  have reached : ∃ sys, Run Step start twoClients sys ∧ sys.net.sent 1 = [5, 6] ∧
      handed 2 sys.calls = [[5, 6]] := by
    refine ⟨_, .snoc (.snoc (.snoc (.snoc (.snoc (.snoc (.snoc (.snoc (.snoc (.snoc (.snoc (.snoc
      (.snoc (.snoc (.snoc .refl (.net ?_)) (.waitListening rfl rfl)) (.accept rfl rfl))
      (.recvAgain rfl rfl rfl)) (.net ?_)) (.waitListening rfl rfl)) (.accept rfl rfl))
      (.recvAgain rfl rfl rfl)) (.net ?_)) (.wait rfl rfl)) (.recv rfl ?_ ?_ ?_))
      (.send rfl ?_)) (.send rfl ?_)) (.sent rfl)) (.recvAgain rfl rfl rfl), rfl, rfl⟩
    all_goals decide
  obtain ⟨sys, run, sent, got⟩ := reached
  refine ⟨sys, run, ?_, got⟩
  have received := (messages_routed run).2.2.1 1
  rw [sent] at received
  exact received

end Ffos.Queue.Router
