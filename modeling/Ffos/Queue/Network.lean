/-
Module: Ffos.Queue.Network
Purpose: The sockets of a server and its kernel queue on Linux, as FFOS/queue.h and FFOS/socket.h
  use them: connections come and are accepted, bytes come and are received.
Trusted boundary: epoll reports a socket that is attached with EPOLLET whenever something comes to
  it, and when it is attached with something to be seen; it may report one without a reason
Main exports: Conn, Net, NetEvent, Net.after, Net.ffkqWait, Net.accept, Net.recv, Net.close,
  Net.Sound, Net.Sound.quiet
-/
import Ffos.Lib.ByteMemory
import Ffos.Lib.EdgeTriggered
import Mathlib.Data.List.Nodup

namespace Ffos.Queue

open Ffos.Lib

/-- A connection of a client, from when it is established. -/
abbrev Conn := Nat

/-- The kernel's side of a server: the queue with what waits in the sockets, the connections that
were not accepted and whether they are to be reported, and for each connection all that its client
has sent and that was received of it, and whether it was closed here. -/
structure Net where
  queue : EdgeQueue Conn Byte
  backlog : List Conn
  listening : Bool
  opened : List Conn
  sent : Conn → List Byte
  taken : Conn → List Byte
  closed : Conn → Bool

/-- No client has come. -/
def Net.start : Net where
  queue := EdgeQueue.idle
  backlog := []
  listening := false
  opened := []
  sent _ := []
  taken _ := []
  closed _ := false

/-! ### The clients -/

/-- A client connects, sends, or is done with sending; or the queue reports without a reason, for
instance that a client accepts data. -/
inductive NetEvent where
  | connect (c : Conn)
  | arrive (c : Conn) (bytes : List Byte)
  | finish (c : Conn)
  | signal (c : Conn)
  | signalListening
deriving DecidableEq, Repr

/-- When this can happen. -/
def NetEvent.Enabled (net : Net) : NetEvent → Prop
  | .connect c => c ∉ net.opened
  | .arrive c _ | .finish c => c ∈ net.opened ∧ net.queue.ended c = false
  | .signal c => net.queue.watched c = true
  | .signalListening => True

instance (net : Net) (event : NetEvent) : Decidable (event.Enabled net) :=
  match event with
  | .connect _ => inferInstanceAs (Decidable (_ ∉ _))
  | .arrive _ _ | .finish _ => inferInstanceAs (Decidable (_ ∧ _))
  | .signal _ => inferInstanceAs (Decidable (_ = _))
  | .signalListening => isTrue trivial

def Net.after (net : Net) : NetEvent → Net
  | .connect c =>
      { net with
        backlog := net.backlog ++ [c]
        listening := true
        opened := net.opened ++ [c] }
  | .arrive c bytes =>
      { net with
        queue := net.queue.arrive c bytes
        sent := Function.update net.sent c (net.sent c ++ bytes) }
  | .finish c => { net with queue := net.queue.finish c }
  | .signal c => { net with queue := net.queue.signal c }
  | .signalListening => { net with listening := true }

/-! ### The server -/

/-- `ffkq_wait` gives the listening socket. -/
def Net.ffkqWaitListening (net : Net) : Net := { net with listening := false }

/-- `ffkq_wait` gives a connection. -/
def Net.ffkqWait (net : Net) (c : Conn) : Net := { net with queue := net.queue.report c }

/-- `ffsock_accept` and `ffkq_attach_socket` for the first connection. -/
def Net.accept (net : Net) (c : Conn) (rest : List Conn) : Net :=
  { net with
    backlog := rest
    queue := net.queue.watch c }

/-- `ffsock_recv` gives this many bytes. -/
def Net.recv (net : Net) (c : Conn) (count : Nat) : Net :=
  { net with
    queue := net.queue.take c count
    taken := Function.update net.taken c (net.taken c ++ (net.queue.waiting c).take count) }

/-- `ffsock_close`. -/
def Net.close (net : Net) (c : Conn) : Net :=
  { net with
    queue := net.queue.unwatch c
    closed := Function.update net.closed c true }

/-- What the clients do changes nothing of what was received or accepted. -/
theorem Net.taken_after (net : Net) (event : NetEvent) : (net.after event).taken = net.taken := by
  cases event <;> rfl

theorem Net.watched_after (net : Net) (event : NetEvent) :
    (net.after event).queue.watched = net.queue.watched := by
  cases event <;> rfl

/-! ### What holds while the server works on one connection -/

structure Net.Sound (net : Net) (busy : Option Conn) : Prop where
  covered : net.queue.Covered busy
  stream : ∀ c, net.sent c = net.taken c ++ net.queue.waiting c
  place : ∀ c ∈ net.opened, c ∈ net.backlog ∨ net.queue.watched c = true ∨ net.closed c = true
  closed : ∀ c, net.closed c = true → net.queue.ended c = true ∧ net.queue.waiting c = []
  gone : ∀ c, net.closed c = true →
    c ∈ net.opened ∧ c ∉ net.backlog ∧ net.queue.watched c = false
  backlog : net.backlog.Nodup
  queued : ∀ c ∈ net.backlog, c ∈ net.opened ∧ net.queue.watched c = false
  known : ∀ c, net.queue.watched c = true → c ∈ net.opened
  reported : ∀ c, net.queue.edge c = true → net.queue.watched c = true
  working : ∀ c ∈ busy, net.queue.watched c = true

namespace Net.Sound

variable {net : Net} {busy : Option Conn} {c : Conn}

theorem start : Net.start.Sound none where
  covered := EdgeQueue.idle_covered none
  stream _ := rfl
  place _ := (absurd · List.not_mem_nil)
  closed _ := (absurd · Bool.false_ne_true)
  gone _ := (absurd · Bool.false_ne_true)
  backlog := List.nodup_nil
  queued _ := (absurd · List.not_mem_nil)
  known _ := (absurd · Bool.false_ne_true)
  reported _ := (absurd · Bool.false_ne_true)
  working _ := nofun

/-- A new connection is put into the backlog. -/
theorem connect (sound : net.Sound busy) (fresh : c ∉ net.opened) :
    (net.after (.connect c)).Sound busy where
  covered := sound.covered
  stream := sound.stream
  closed := sound.closed
  gone other closed := by
    obtain ⟨known, notQueued, notWatched⟩ := sound.gone other closed
    refine ⟨List.mem_append_left _ known, fun queued => ?_, notWatched⟩
    rcases List.mem_append.mp queued with old | new
    · exact notQueued old
    · rw [List.mem_singleton.mp new] at known
      exact fresh known
  place other member := by
    rcases List.mem_append.mp member with old | new
    · rcases sound.place other old with queued | accepted
      · exact Or.inl (List.mem_append_left _ queued)
      · exact Or.inr accepted
    · exact Or.inl (List.mem_append_right _ new)
  backlog := by
    apply List.Nodup.append sound.backlog (List.nodup_singleton c)
    apply List.disjoint_right.mpr
    intro other member queued
    rw [List.mem_singleton.mp member] at queued
    exact fresh (sound.queued c queued).1
  queued other member := by
    rcases List.mem_append.mp member with old | new
    · obtain ⟨known, notWatched⟩ := sound.queued other old
      exact ⟨List.mem_append_left _ known, notWatched⟩
    · rw [List.mem_singleton.mp new]
      refine ⟨List.mem_append_right _ (List.mem_singleton.mpr rfl), ?_⟩
      exact Bool.eq_false_iff.mpr fun watched => fresh (sound.known c watched)
  known other watched := List.mem_append_left _ (sound.known other watched)
  reported := sound.reported
  working := sound.working

/-- Only watched connections are reported when something comes. -/
theorem reported_of_update (sound : net.Sound busy) (other : Conn)
    (edge : Function.update net.queue.edge c (net.queue.edge c || net.queue.watched c) other =
      true) : net.queue.watched other = true := by
  rw [Function.update_apply] at edge
  split at edge
  · next same =>
    rw [same]
    rcases Bool.or_eq_true_iff.mp edge with before | watched
    · exact sound.reported c before
    · exact watched
  · exact sound.reported other edge

/-- What comes is kept behind what waits. -/
theorem arrive (sound : net.Sound busy) (running : net.queue.ended c = false)
    (bytes : List Byte) : (net.after (.arrive c bytes)).Sound busy where
  covered := sound.covered.arrive bytes
  stream other := by
    by_cases same : other = c
    · rw [same, Net.after, EdgeQueue.arrive]
      simp only [Function.update_self, sound.stream c, List.append_assoc]
    · simp only [Net.after, EdgeQueue.arrive, Function.update_of_ne same, sound.stream other]
  place := sound.place
  closed other gone := by
    have before := sound.closed other gone
    have same : other ≠ c := by
      rintro rfl
      rw [running] at before
      exact absurd before.1 Bool.false_ne_true
    simp only [Net.after, EdgeQueue.arrive, Function.update_of_ne same]
    exact before
  gone := sound.gone
  backlog := sound.backlog
  queued := sound.queued
  known := sound.known
  reported := sound.reported_of_update
  working := sound.working

theorem finish (sound : net.Sound busy) : (net.after (.finish c)).Sound busy where
  covered := sound.covered.finish
  stream := sound.stream
  place := sound.place
  closed other gone := by
    refine ⟨?_, (sound.closed other gone).2⟩
    simp only [Net.after, EdgeQueue.finish, Function.update_apply]
    split
    · rfl
    · exact (sound.closed other gone).1
  gone := sound.gone
  backlog := sound.backlog
  queued := sound.queued
  known := sound.known
  reported := sound.reported_of_update
  working := sound.working

/-- Whatever the clients do. -/
theorem after (sound : net.Sound busy) {event : NetEvent} (enabled : event.Enabled net) :
    (net.after event).Sound busy := by
  cases event with
  | connect c => exact sound.connect enabled
  | arrive c bytes => exact sound.arrive enabled.2 bytes
  | finish c => exact sound.finish
  | signal c =>
      refine ⟨sound.covered.signal, sound.stream, sound.place, sound.closed, sound.gone,
        sound.backlog, sound.queued, sound.known, ?_, sound.working⟩
      intro other edge
      simp only [Net.after, EdgeQueue.signal, Function.update_apply] at edge
      split at edge
      · next same =>
        rw [same]
        exact enabled
      · exact sound.reported other edge
  | signalListening =>
      exact ⟨sound.covered, sound.stream, sound.place, sound.closed, sound.gone, sound.backlog,
        sound.queued, sound.known, sound.reported, sound.working⟩

/-- The server goes to the connection that is reported. -/
theorem ffkqWait (sound : net.Sound none) (edge : net.queue.edge c = true) :
    (net.ffkqWait c).Sound (some c) := by
  refine ⟨sound.covered.report, sound.stream, sound.place, sound.closed, sound.gone,
    sound.backlog, sound.queued, sound.known, ?_, ?_⟩
  · intro other edge
    simp only [Net.ffkqWait, EdgeQueue.report, Function.update_apply] at edge
    split at edge
    · cases edge
    · exact sound.reported other edge
  · intro other same
    obtain rfl := Option.some.inj same
    exact sound.reported c edge

theorem ffkqWaitListening (sound : net.Sound busy) : net.ffkqWaitListening.Sound busy :=
  ⟨sound.covered, sound.stream, sound.place, sound.closed, sound.gone, sound.backlog, sound.queued,
    sound.known, sound.reported, sound.working⟩

/-- An accepted connection is watched, and the server is at it. -/
theorem accept (sound : net.Sound none) {rest : List Conn} (first : net.backlog = c :: rest) :
    (net.accept c rest).Sound (some c) where
  covered := by
    intro other watched waits
    exact Or.inl ((sound.covered.watch other watched waits).resolve_right nofun)
  stream := sound.stream
  place other member := by
    simp only [Net.accept, EdgeQueue.watch, Function.update_apply]
    rcases sound.place other member with queued | accepted
    · rw [first] at queued
      rcases List.mem_cons.mp queued with rfl | later
      · exact Or.inr (Or.inl (if_pos rfl))
      · exact Or.inl later
    · right
      split
      · exact Or.inl rfl
      · exact accepted
  closed := sound.closed
  gone other closed := by
    obtain ⟨known, notQueued, notWatched⟩ := sound.gone other closed
    rw [first, List.mem_cons, not_or] at notQueued
    simp only [Net.accept, EdgeQueue.watch, Function.update_of_ne notQueued.1]
    exact ⟨known, notQueued.2, notWatched⟩
  backlog := by
    have distinct := sound.backlog
    rw [first] at distinct
    exact (List.nodup_cons.mp distinct).2
  queued other member := by
    have distinct := sound.backlog
    rw [first] at distinct
    have different : other ≠ c := by
      rintro rfl
      exact (List.nodup_cons.mp distinct).1 member
    simp only [Net.accept, EdgeQueue.watch, Function.update_of_ne different]
    exact sound.queued other (first ▸ List.mem_cons_of_mem c member)
  known other watched := by
    by_cases same : other = c
    · rw [same]
      exact (sound.queued c (first ▸ List.mem_cons_self)).1
    · simp only [Net.accept, EdgeQueue.watch, Function.update_of_ne same] at watched
      exact sound.known other watched
  reported other edge := by
    simp only [Net.accept, EdgeQueue.watch, Function.update_apply] at edge ⊢
    split
    · rfl
    · next different =>
      rw [if_neg different] at edge
      exact sound.reported other edge
  working other same := by
    obtain rfl := Option.some.inj same
    exact Function.update_self ..

/-- Bytes are received. -/
theorem recv (sound : net.Sound (some c)) (count : Nat) : (net.recv c count).Sound (some c) where
  covered := sound.covered.take count
  stream other := by
    by_cases same : other = c
    · rw [same, Net.recv, EdgeQueue.take]
      simp only [Function.update_self, List.append_assoc, List.take_append_drop]
      exact sound.stream c
    · simp only [Net.recv, EdgeQueue.take, Function.update_of_ne same, sound.stream other]
  place := sound.place
  closed other gone := by
    obtain ⟨ended, nothing⟩ := sound.closed other gone
    refine ⟨ended, ?_⟩
    simp only [Net.recv, EdgeQueue.take, Function.update_apply]
    split
    · next same => rw [← same, nothing, List.drop_nil]
    · exact nothing
  gone := sound.gone
  backlog := sound.backlog
  queued := sound.queued
  known := sound.known
  reported := sound.reported
  working := sound.working

/-- The server leaves a connection where nothing is left. -/
theorem leave (sound : net.Sound (some c)) (nothing : net.queue.waiting c = [])
    (running : net.queue.ended c = false) : net.Sound none := by
  refine ⟨sound.covered.empty ?_, sound.stream, sound.place, sound.closed, sound.gone,
    sound.backlog, sound.queued, sound.known, sound.reported, nofun⟩
  rintro (items | ended)
  · exact items nothing
  · rw [running] at ended
    cases ended

/-- It closes a connection that has ended. -/
theorem close (sound : net.Sound (some c)) (nothing : net.queue.waiting c = [])
    (ended : net.queue.ended c = true) : (net.close c).Sound none where
  covered := sound.covered.unwatch
  stream := sound.stream
  place other member := by
    simp only [Net.close, EdgeQueue.unwatch, Function.update_apply]
    rcases sound.place other member with queued | accepted
    · exact Or.inl queued
    · right
      split
      · exact Or.inr rfl
      · exact accepted
  closed other gone := by
    by_cases same : other = c
    · rw [same]
      exact ⟨ended, nothing⟩
    · simp only [Net.close, Function.update_of_ne same] at gone
      exact sound.closed other gone
  gone other closed := by
    by_cases same : other = c
    · rw [same]
      have watched := sound.working c rfl
      refine ⟨sound.known c watched, fun queued => ?_, Function.update_self ..⟩
      rw [(sound.queued c queued).2] at watched
      cases watched
    · simp only [Net.close, EdgeQueue.unwatch, Function.update_of_ne same] at closed ⊢
      exact sound.gone other closed
  backlog := sound.backlog
  queued other member := by
    obtain ⟨known, notWatched⟩ := sound.queued other member
    refine ⟨known, ?_⟩
    simp only [Net.close, EdgeQueue.unwatch, Function.update_apply]
    split
    · rfl
    · exact notWatched
  known other watched := by
    simp only [Net.close, EdgeQueue.unwatch, Function.update_apply] at watched
    split at watched
    · cases watched
    · exact sound.known other watched
  reported other edge := by
    simp only [Net.close, EdgeQueue.unwatch, Function.update_apply] at edge ⊢
    split
    · next same =>
      rw [if_pos same] at edge
      cases edge
    · next different =>
      rw [if_neg different] at edge
      exact sound.reported other edge
  working := nofun

/-- The watched connections are those that were accepted and not closed. -/
theorem watched_iff (sound : net.Sound busy) (c : Conn) : net.queue.watched c = true ↔
    c ∈ net.opened ∧ c ∉ net.backlog ∧ net.closed c = false := by
  constructor
  · intro watched
    refine ⟨sound.known c watched, fun queued => ?_, ?_⟩
    · rw [(sound.queued c queued).2] at watched
      cases watched
    · apply Bool.eq_false_iff.mpr
      intro closed
      rw [(sound.gone c closed).2.2] at watched
      cases watched
  · rintro ⟨known, notQueued, open_⟩
    rcases (sound.place c known).resolve_left notQueued with watched | closed
    · exact watched
    · rw [open_] at closed
      cases closed

/-- Where nothing is reported, everything that the clients of the accepted connections have sent
was received, and those that are done with sending were closed. -/
theorem quiet (sound : net.Sound none) (silent : net.queue.edge c = false)
    (member : c ∈ net.opened) (accepted : c ∉ net.backlog) :
    net.taken c = net.sent c ∧ (net.closed c = true ↔ net.queue.ended c = true) := by
  rw [sound.stream c]
  rcases (sound.place c member).resolve_left accepted with watched | gone
  · obtain ⟨nothing, running⟩ := sound.covered.quiet watched silent
    rw [nothing, List.append_nil, running]
    refine ⟨rfl, fun gone => ?_, fun ended => absurd ended Bool.false_ne_true⟩
    rw [← running]
    exact (sound.closed c gone).1
  · obtain ⟨ended, nothing⟩ := sound.closed c gone
    rw [nothing, List.append_nil]
    exact ⟨rfl, fun _ => ended, fun _ => gone⟩

end Net.Sound

end Ffos.Queue
