/-
Module: Ffos.Socket.Receive
Purpose: `ffsock_recv_async` of FFOS/socket.h on Windows: what it receives in any run, and
  what a caller of it gets from a caller of `ffsock_send_async` at the other end.
Trusted boundary: `recv` and `ReadFile` on a socket; a network that delivers the bytes it is
  handed in their order
Main exports: Os, recvLen, Stream, ffsockRecvAsync, ffsockRecvAsync_honest, received,
  stream_received_exactly, Connection, transfer_in_order
-/
import Ffos.Kqtask.Overlapped
import Ffos.Socket.AsyncSend

namespace Ffos.Socket.Receive

open Ffos.Lib Ffos.Kqtask

/-- The answers of the system in one call: the error that the first call fails with, and
the error that the operation cannot be begun with. Without one they do their work. A
first call may say that it would block when something comes just after it. -/
structure Os where
  recv : Option Nat
  readFile : Option Nat
deriving DecidableEq, Repr

/-- `ffmin(cap, 0xffffffff)` as the `int` that `recv` gets. -/
def recvLen (cap : Nat) : Int := (BitVec.ofNat 32 (min cap 0xffffffff)).toInt

/-! ### Streams -/

/-- The receiving side of a TCP connection and the buffer of the caller: the bytes that
have come, those of them that were not received, whether the peer has closed its side. -/
structure Stream where
  arrived : List Byte
  queue : List Byte
  fin : Bool
  buf : List Byte
deriving DecidableEq, Repr

/-- There is something to receive. -/
def Stream.ready (stream : Stream) : Bool := stream.fin || !stream.queue.isEmpty

/-- `recv` that does not fail: the next bytes. -/
def Stream.recv (stream : Stream) (len : Nat) : Nat × Stream :=
  let n := min len stream.queue.length
  (n, { stream with queue := stream.queue.drop n, buf := ffmemCopy stream.buf stream.queue n })

/-- `ffsock_recv_async`. The operation reads no byte: it ends when there is one. -/
def ffsockRecvAsync : TaskCode Stream Nat Os where
  finish _ _ := none
  attempt os cap stream :=
    match os.recv with
    | some error =>
        if error = wsaeWouldBlock then .goesOn stream else .returns (-1) (some error) stream
    | none =>
        if stream.ready then
          let (r, stream) := stream.recv (recvLen cap).toNat
          .returns r none stream
        else .goesOn stream
  begin os _ stream :=
    match os.readFile with
    | some error => (.failed error, stream)
    | none => if stream.ready then (.done 0, stream) else (.pending, stream)
  doneError := some Kqtask.errorIoPending

/-- What comes from the peer. -/
inductive StreamChange where
  | arrive (bytes : List Byte)
  | close
deriving DecidableEq, Repr

/-- The errors that a call may fail with. -/
def Os.Plain (os : Os) : Prop :=
  os.recv ≠ some Kqtask.errorIoPending ∧ os.readFile ≠ some Kqtask.errorIoPending

/-- The system around a stream. A length that is negative as an `int` is refused. -/
def streamWorld : World Stream Nat Os StreamChange where
  proper os cap := os.Plain ∧ (recvLen cap < 0 → os.recv ≠ none)
  completes _ before outcome after :=
    after = before ∧
      (outcome = .finished 0 ∧ before.ready = true ∨
        ∃ error, outcome = .failed error ∧ error ≠ Kqtask.errorIoIncomplete ∧
          error ≠ Kqtask.errorIoPending)
  changes
    | .arrive bytes, before, after =>
        before.fin = false ∧
          after = { before with arrived := before.arrived ++ bytes, queue := before.queue ++ bytes }
    | .close, before, after => after = { before with fin := true }

theorem ffsockRecvAsync_honest : Honest ffsockRecvAsync streamWorld where
  finish _ _ _ _ _ finish := nomatch finish
  attempt os cap stream r error after proper attempt := by
    simp only [ffsockRecvAsync] at attempt
    split at attempt
    case h_1 code recv =>
      split at attempt
      · cases attempt
      · cases attempt
        refine .inr ⟨code, rfl, fun pending => ?_⟩
        exact proper.1.1 (recv.trans (congrArg some pending))
    case h_2 =>
      split at attempt
      · cases attempt
        exact .inl (Int.natCast_nonneg _)
      · cases attempt
  failed os cap stream error after proper begin := by
    simp only [ffsockRecvAsync] at begin
    split at begin
    case h_1 code readFile =>
      cases begin
      exact fun pending => proper.1.2 (readFile.trans (congrArg some pending))
    case h_2 => split at begin <;> cases begin
  returns os cap stream r after _ begin := by
    simp only [ffsockRecvAsync] at begin
    split at begin
    · cases begin
    · split at begin <;> cases begin
  completes _ _ outcome _ completes := by
    rcases completes with ⟨_, ⟨rfl, _⟩ | ⟨error, rfl, notIncomplete, notPending⟩⟩
    · exact ⟨nofun, nofun⟩
    · exact ⟨fun same => notIncomplete (IoResult.failed.inj same),
        fun same => notPending (IoResult.failed.inj same)⟩

/-- The bytes that a call has returned. -/
def receivedBy : TaskEvent Stream Nat StreamChange → List Byte
  | .call _ called => called.after.env.buf.take called.r.toNat
  | _ => []

/-- The bytes that the caller has got, call after call. -/
def received (trace : List (TaskEvent Stream Nat StreamChange)) : List Byte :=
  trace.flatMap receivedBy

/-- The second half of the function: it receives, or leaves the stream alone. -/
theorem ffsockRecvAsync_start (os : Os) (cap : Nat) (collected : Option IoResult)
    (sys : TaskSys Stream Nat) :
    (ffsockRecvAsync.start os cap collected sys).r = -1 ∧
        (ffsockRecvAsync.start os cap collected sys).after.env = sys.env ∨
      sys.env.ready = true ∧
        (ffsockRecvAsync.start os cap collected sys).r = (sys.env.recv (recvLen cap).toNat).1 ∧
        (ffsockRecvAsync.start os cap collected sys).after.env =
          (sys.env.recv (recvLen cap).toNat).2 := by
  have begins : (ffsockRecvAsync.begin os cap sys.env).2 = sys.env ∧
      ∀ r, (ffsockRecvAsync.begin os cap sys.env).1 ≠ .returns r := by
    simp only [ffsockRecvAsync]
    split
    · exact ⟨rfl, fun _ => nofun⟩
    · split <;> exact ⟨rfl, fun _ => nofun⟩
  have operation : ffsockRecvAsync.attempt os cap sys.env = .goesOn sys.env →
      (ffsockRecvAsync.start os cap collected sys).r = -1 ∧
        (ffsockRecvAsync.start os cap collected sys).after.env = sys.env := by
    intro goesOn
    unfold TaskCode.start
    rw [goesOn]
    generalize begun : ffsockRecvAsync.begin os cap sys.env = result at begins
    obtain ⟨began, env⟩ := result
    obtain ⟨same, notReturns⟩ := begins
    cases began with
    | returns r => exact absurd rfl (notReturns r)
    | done | pending | failed => simp only [begun]; exact ⟨trivial, same⟩
  by_cases blocks : ffsockRecvAsync.attempt os cap sys.env = .goesOn sys.env
  · exact .inl (operation blocks)
  · cases answer : os.recv with
    | some error =>
        have fails : error ≠ wsaeWouldBlock := by
          intro same
          apply blocks
          simp only [ffsockRecvAsync, answer, same, if_true]
        refine .inl ?_
        unfold TaskCode.start
        simp only [ffsockRecvAsync, answer, if_neg fails]
        exact ⟨trivial, trivial⟩
    | none =>
        have ready : sys.env.ready = true := by
          by_contra notReady
          apply blocks
          simp only [ffsockRecvAsync, answer, if_neg notReady]
        refine .inr ⟨ready, ?_⟩
        unfold TaskCode.start
        simp only [ffsockRecvAsync, answer, if_pos ready]
        exact ⟨trivial, trivial⟩

/-- So does a call. -/
theorem ffsockRecvAsync_call (os : Os) (cap : Nat) (sys : TaskSys Stream Nat) :
    (ffsockRecvAsync.call os cap sys).r = -1 ∧
        (ffsockRecvAsync.call os cap sys).after.env = sys.env ∨
      sys.env.ready = true ∧
        (ffsockRecvAsync.call os cap sys).r = (sys.env.recv (recvLen cap).toNat).1 ∧
        (ffsockRecvAsync.call os cap sys).after.env =
          (sys.env.recv (recvLen cap).toNat).2 := by
  unfold TaskCode.call
  split
  · dsimp only
    split
    · split <;> exact .inl ⟨rfl, rfl⟩
    · exact ffsockRecvAsync_start os cap _ _
  · exact ffsockRecvAsync_start os cap none sys

/-- What a call returns comes from the front of the queue. -/
theorem Stream.recv_eq (stream : Stream) (len : Nat) :
    (stream.recv len).2.buf.take (stream.recv len).1 ++ (stream.recv len).2.queue =
      stream.queue := by
  simp only [Stream.recv]
  rw [ffmemCopy_take _ (Nat.min_le_right _ _), List.take_append_drop]

/-- The bytes that have come are those received and those in the queue. -/
def Stream.Exact (trace : List (TaskEvent Stream Nat StreamChange)) (stream : Stream) : Prop :=
  stream.arrived = received trace ++ stream.queue

theorem Stream.Exact.step {past : List (TaskEvent Stream Nat StreamChange)}
    {before after : TaskSys Stream Nat} {event : TaskEvent Stream Nat StreamChange}
    (exact : Stream.Exact past before.env)
    (next : Step ffsockRecvAsync streamWorld before event after) :
    Stream.Exact (past ++ [event]) after.env := by
  unfold Stream.Exact at exact ⊢
  unfold received at exact ⊢
  rw [List.flatMap_append, List.flatMap_singleton]
  cases next with
  | call os cap =>
      rcases ffsockRecvAsync_call os cap before with ⟨r, env⟩ | ⟨_, r, env⟩
      · simp only [receivedBy, r, env]
        simpa using exact
      · simp only [receivedBy, r, env]
        rw [List.append_assoc, Int.toNat_natCast, Stream.recv_eq]
        exact exact
  | complete _ completes =>
      obtain ⟨rfl, _⟩ := completes
      simpa [receivedBy] using exact
  | packet => simpa [receivedBy] using exact
  | @world change _ changes =>
      cases change with
      | arrive bytes =>
          obtain ⟨_, rfl⟩ := changes
          simp [receivedBy, exact]
      | close =>
          obtain rfl := changes
          simpa [receivedBy] using exact

theorem stream_exact {start final : TaskSys Stream Nat}
    {trace : List (TaskEvent Stream Nat StreamChange)}
    (nothing : start.env.arrived = start.env.queue)
    (run : Run (Step ffsockRecvAsync streamWorld) start trace final) :
    Stream.Exact trace final.env := by
  apply run.history (fun past (sys : TaskSys Stream Nat) => Stream.Exact past sys.env) nothing
  intro past before event after exact next
  exact exact.step next

/-- A call that returns 0 bytes, with room for some, has found the end of the stream. -/
theorem recv_zero {os : Os} {cap : Nat} {sys : TaskSys Stream Nat} (room : 0 < recvLen cap)
    (zero : (ffsockRecvAsync.call os cap sys).r = 0) :
    (ffsockRecvAsync.call os cap sys).after.env.fin = true ∧
      (ffsockRecvAsync.call os cap sys).after.env.queue = [] := by
  rcases ffsockRecvAsync_call os cap sys with ⟨r, _⟩ | ⟨ready, r, env⟩
  · rw [zero] at r
    cases r
  · have empty : sys.env.queue = [] := by
      rw [zero] at r
      simp only [Stream.recv] at r
      have none : sys.env.queue.length = 0 := by omega
      exact List.length_eq_zero_iff.mp none
    rw [env]
    simp only [Stream.recv, empty]
    refine ⟨?_, List.drop_nil⟩
    simpa [Stream.ready, empty] using ready

/-- However calls, packets and the peer take turns, the bytes that a caller of
`ffsock_recv_async` gets are the bytes that have come, in order and without a gap, up to
those still in the queue; and when it gets 0 it has all that ever came and the peer has
closed its side. -/
theorem stream_received_exactly {start final : TaskSys Stream Nat}
    {trace : List (TaskEvent Stream Nat StreamChange)}
    (nothing : start.env.arrived = start.env.queue)
    (run : Run (Step ffsockRecvAsync streamWorld) start trace final) :
    final.env.arrived = received trace ++ final.env.queue ∧
      ∀ past cap called future, trace = past ++ .call cap called :: future → called.r = 0 →
        0 < recvLen cap →
        called.after.env.fin = true ∧
          called.after.env.arrived = received (past ++ [.call cap called]) := by
  refine ⟨stream_exact nothing run, ?_⟩
  rintro past cap called future rfl zero room
  obtain ⟨before, after, earlier, next, _⟩ := run.step_at
  have exact := stream_exact nothing (earlier.snoc next)
  cases next with
  | call os =>
      obtain ⟨fin, empty⟩ := recv_zero room zero
      refine ⟨fin, ?_⟩
      have same : (ffsockRecvAsync.call os cap before).after.env.arrived =
          received (past ++ [.call cap (ffsockRecvAsync.call os cap before)]) ++
            (ffsockRecvAsync.call os cap before).after.env.queue := exact
      rw [same, empty, List.append_nil]

/-- A connection on which nothing has come, and a task that is not in use. -/
def freshStream : TaskSys Stream Nat where
  task := { overlapped := .zero, active := 0 }
  env := { arrived := [], queue := [], fin := false, buf := [] }
  lastError := 0
  packets := 0
  waiting := false

theorem proper_plain : streamWorld.proper ⟨none, none⟩ 10 :=
  ⟨⟨nofun, nofun⟩, fun negative => absurd negative (by decide)⟩

/-- Bytes come as long as the peer has not closed its side. -/
theorem arrives (sys : TaskSys Stream Nat) (bytes : List Byte) (notClosed : sys.env.fin = false) :
    Step ffsockRecvAsync streamWorld sys (.world (.arrive bytes))
      { sys with env := { sys.env with
          arrived := sys.env.arrived ++ bytes, queue := sys.env.queue ++ bytes } } :=
  .world ⟨notClosed, rfl⟩

/-- An operation ends when there is something to receive. -/
theorem ends_ready (sys : TaskSys Stream Nat) {cap : Nat}
    (running : sys.task.overlapped = .running cap) (ready : sys.env.ready = true) :
    Step ffsockRecvAsync streamWorld sys (.complete (.finished 0))
      { sys with
        task := { sys.task with overlapped := .ended (.finished 0) }
        packets := sys.packets + 1 } :=
  .complete running ⟨rfl, .inl ⟨rfl, ready⟩⟩

/-- A call that begins an operation, a byte that comes and ends it, and a call that
returns the byte. -/
theorem stream_received_exactly_one :
    ∃ trace final, Run (Step ffsockRecvAsync streamWorld) freshStream trace final ∧
      received trace = [7] ∧ final.env.arrived = received trace ++ final.env.queue := by
  have begun : Run (Step ffsockRecvAsync streamWorld) freshStream _ _ :=
    .single (.call ⟨none, none⟩ 10 proper_plain)
  have run := ((begun.snoc (arrives _ [7] rfl)).snoc (ends_ready _ rfl rfl)).snoc
    (.call ⟨none, none⟩ 10 proper_plain)
  exact ⟨_, _, run, by decide, (stream_received_exactly rfl run).1⟩

/-! ### From one end to the other -/

/-- A connection: the caller that sends, how many of the bytes handed to its socket are
delivered, and the caller that receives. -/
structure Connection (sender : Sender) where
  sending : Caller sender
  delivered : Nat
  receiving : TaskSys Stream Nat

/-- The next bytes on their way, in the order in which they were handed over. -/
def Connection.next {sender : Sender} (connection : Connection sender) (count : Nat) : List Byte :=
  (connection.sending.net.handed.drop connection.delivered).take count

/-- A step of one end, or of the network between them. -/
inductive Connection.Step {sender : Sender} :
    Connection sender → Option (TaskEvent Stream Nat StreamChange) → Connection sender → Prop where
  | send {connection : Connection sender} {os : Socket.Os} {after : Caller sender}
      (call : connection.sending.call os = some after) :
      Connection.Step connection none { connection with sending := after }
  | deliver {connection : Connection sender} {count : Nat} {after : TaskSys Stream Nat}
      (handed : connection.delivered + count ≤ connection.sending.net.handed.length)
      (arrives : Kqtask.Step ffsockRecvAsync streamWorld connection.receiving
        (.world (.arrive (connection.next count))) after) :
      Connection.Step connection (some (.world (.arrive (connection.next count))))
        { connection with delivered := connection.delivered + count, receiving := after }
  | receive {connection : Connection sender} {event : TaskEvent Stream Nat StreamChange}
      {after : TaskSys Stream Nat} (inside : ∀ bytes, event ≠ .world (.arrive bytes))
      (step : Kqtask.Step ffsockRecvAsync streamWorld connection.receiving event after) :
      Connection.Step connection (some event) { connection with receiving := after }

/-- A connection on which nothing was sent. -/
structure Connection.Fresh {sender : Sender} (connection : Connection sender) : Prop where
  sending : connection.sending.Fresh
  delivered : connection.delivered = 0
  receiving : connection.receiving.env.arrived = [] ∧ connection.receiving.env.queue = []

/-- Steps other than an arrival bring no bytes. -/
theorem arrived_of_inside {before after : TaskSys Stream Nat}
    {event : TaskEvent Stream Nat StreamChange} (inside : ∀ bytes, event ≠ .world (.arrive bytes))
    (step : Kqtask.Step ffsockRecvAsync streamWorld before event after) :
    after.env.arrived = before.env.arrived := by
  cases step with
  | call os cap =>
      rcases ffsockRecvAsync_call os cap before with ⟨_, env⟩ | ⟨_, _, env⟩
      · exact congrArg Stream.arrived env
      · exact (congrArg Stream.arrived env).trans rfl
  | complete _ completes => exact congrArg Stream.arrived completes.1
  | packet => rfl
  | @world change _ changes =>
      cases change with
      | arrive bytes => exact absurd rfl (inside bytes)
      | close =>
          obtain rfl := changes
          rfl

/-- A call acknowledges no less than before. -/
theorem acked_le_of_call {sender : Sender} {before after : Caller sender} {os : Socket.Os}
    (called : before.call os = some after) : before.acked ≤ after.acked := by
  unfold Caller.call at called
  split at called
  · cases called
  · split at called
    · cases called
    · split at called <;> cases called
      · exact Nat.le_add_right _ _
      · exact Nat.le_refl _

/-- What the two ends of a connection know of the data. -/
structure Connection.Aligned {sender : Sender} (data : List Byte)
    (past : List (Option (TaskEvent Stream Nat StreamChange))) (connection : Connection sender) :
    Prop where
  sending : connection.sending.InStep data
  bound : connection.delivered ≤ data.length ∧
    connection.delivered ≤ connection.sending.acked + 1
  arrived : connection.receiving.env.arrived = data.take connection.delivered
  received : Stream.Exact (past.filterMap id) connection.receiving.env

/-- What was handed over is the beginning of the data, up to one byte after what was
acknowledged. -/
theorem handed_of_inStep {sender : Sender} {data : List Byte} {caller : Caller sender}
    (inStep : caller.InStep data) :
    ∃ count, count ≤ caller.acked + 1 ∧ count ≤ data.length ∧ caller.acked ≤ count ∧
      caller.net.handed = data.take count := by
  obtain ⟨_, ledger, showing, balanced⟩ := inStep
  obtain ⟨ahead, few, bound, handed, _⟩ := balanced.handed_eq
  rw [← showing.handed_eq] at handed
  exact ⟨caller.acked + ahead, by omega, bound, Nat.le_add_right _ _, handed⟩

theorem Connection.Aligned.step {sender : Sender} (sound : sender.Sound) {data : List Byte}
    {past : List (Option (TaskEvent Stream Nat StreamChange))} {before after : Connection sender}
    {event : Option (TaskEvent Stream Nat StreamChange)} (aligned : before.Aligned data past)
    (step : Connection.Step before event after) : after.Aligned data (past ++ [event]) := by
  obtain ⟨sending, bound, arrived, received⟩ := aligned
  cases step with
  | send call =>
      have more := acked_le_of_call call
      refine ⟨sending.call sound call, ⟨bound.1, ?_⟩, arrived, ?_⟩
      · dsimp only
        omega
      · rw [List.filterMap_append]
        simpa using received
  | @deliver count afterReceiving handed arrives =>
      obtain ⟨total, few, inside, _, same⟩ := handed_of_inStep sending
      have room : before.delivered + count ≤ total := by
        rw [same, List.length_take] at handed
        omega
      have exact := received.step arrives
      refine ⟨sending, ⟨?_, ?_⟩, ?_, ?_⟩
      · dsimp only
        omega
      · dsimp only
        omega
      · cases arrives with
        | world changes =>
            obtain ⟨_, rfl⟩ := changes
            dsimp only
            rw [arrived, Connection.next, same, List.take_add, List.drop_take, List.take_take,
              Nat.min_eq_left (by omega)]
      · rw [List.filterMap_append]
        simpa using exact
  | receive inside step =>
      refine ⟨sending, bound, (arrived_of_inside inside step).trans arrived, ?_⟩
      rw [List.filterMap_append]
      simpa using received.step step

/-- Whatever the two ends and the network do, what the receiving caller has got from
`ffsock_recv_async`, with what waits in its socket, is the beginning of the data of the
caller of `ffsock_send_async` or `ffsock_sendv_async`, one byte more than was
acknowledged to it at most; and it is all that was acknowledged as soon as the network
has delivered what it was handed. -/
theorem transfer_in_order {sender : Sender} (sound : sender.Sound)
    {start final : Connection sender} {trace : List (Option (TaskEvent Stream Nat StreamChange))}
    (fresh : start.Fresh) (run : Run Connection.Step start trace final) :
    ∃ count, count ≤ final.sending.acked + 1 ∧
      received (trace.filterMap id) ++ final.receiving.env.queue =
        (sender.content start.sending.rest).take count ∧
      (final.delivered = final.sending.net.handed.length → final.sending.acked ≤ count) := by
  have aligned : final.Aligned (sender.content start.sending.rest) trace := by
    apply run.history (fun past (connection : Connection sender) =>
      connection.Aligned (sender.content start.sending.rest) past)
    · refine ⟨fresh.sending.inStep, ?_, ?_, ?_⟩
      · rw [fresh.delivered]
        exact ⟨Nat.zero_le _, Nat.zero_le _⟩
      · rw [fresh.delivered, fresh.receiving.1, List.take_zero]
      · exact fresh.receiving.1.trans fresh.receiving.2.symm
    · exact fun past before event after aligned step => aligned.step sound step
  obtain ⟨sending, bound, arrived, exact⟩ := aligned
  refine ⟨final.delivered, bound.2, exact.symm.trans arrived, ?_⟩
  intro all
  obtain ⟨total, few, inside, acked, same⟩ := handed_of_inStep sending
  rw [all, same, List.length_take]
  omega

/-- Three bytes to send, on a connection that is new. -/
def freshConnection : Connection sendAsync := ⟨⟨.fresh, [1, 2, 3], 0, false⟩, 0, freshStream⟩

theorem call_not_arrival (cap : Nat) (called : Called Stream Nat) (bytes : List Byte) :
    (.call cap called : TaskEvent Stream Nat StreamChange) ≠ .world (.arrive bytes) := nofun

/-- One byte that is accepted, delivered and received. -/
theorem transfer_in_order_one :
    ∃ trace final, Run Connection.Step freshConnection trace final ∧
      received (trace.filterMap id) = [1] ∧
      ∃ count, count ≤ final.sending.acked + 1 ∧
        received (trace.filterMap id) ++ final.receiving.env.queue =
          (sendAsync.content freshConnection.sending.rest).take count ∧
        (final.delivered = final.sending.net.handed.length → final.sending.acked ≤ count) := by
  have sent : Run Connection.Step freshConnection _ _ :=
    .single (@Connection.Step.send _ _ ⟨.ok 1, .fails 0, .fails 0⟩ _ rfl)
  have run := (sent.snoc (@Connection.Step.deliver _ _ 1 _ (by decide) (arrives _ _ rfl))).snoc
    (.receive (call_not_arrival _ _) (.call ⟨none, none⟩ 10 proper_plain))
  have fresh : freshConnection.Fresh :=
    ⟨⟨rfl, rfl, by simp [freshConnection, Net.fresh], rfl⟩, rfl, rfl, rfl⟩
  exact ⟨_, _, run, by decide, transfer_in_order sendAsync_sound fresh run⟩

end Ffos.Socket.Receive
