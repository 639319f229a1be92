/-
Module: Ffos.TimerQueue.Ideal
Purpose: What a timer queue is for, on unbounded time: live timers with true
  deadlines, served in order of deadline and then of insertion. The true-time
  events of a run and the 32-bit events the code sees for them.
Trusted boundary: the statement of the ideal queue
Main exports: TimedEvent, Ideal, Ideal.Allows, Ideal.Step, Timed, TimedStep,
  Timed.InWindow
-/
import Ffos.TimerQueue.Model

namespace Ffos.TimerQueue

open Ffos.Lib

/-- Events of a run as an observer with an unbounded clock sees them. `tick` is
the passing of time; `addnode` carries the true deadline behind the node's key. -/
inductive TimedEvent (Node Func Param : Type) where
  | tick (time : Nat)
  | add (node : Node) (intervalMsec : BitVec 32) (func : Func) (param : Param)
  | addnode (node : Node) (deadline : Nat)
  | remove (node : Node) (result : Nat)
  | process
  | call (node : Node) (func : Func) (param : Param)
  | callbackReturn
  | processReturn (count : BitVec 32)

/-- The ideal queue. A live timer has its true deadline and the number of
insertions made before its last one. `now` is the time at which the latest call
of `process` was made and `made` the number of callbacks it has made. -/
structure Ideal (Node : Type) where
  time : Nat
  now : Nat
  made : Nat
  inserted : Nat
  live : Node → Option (Nat × Nat)

/-- Earlier deadline, or the same deadline and inserted earlier. -/
def Before (first second : Nat × Nat) : Prop :=
  first.1 < second.1 ∨ first.1 = second.1 ∧ first.2 < second.2

variable {Node Func Param : Type} [DecidableEq Node]

namespace Ideal

/-- No timer is live at time zero. -/
def start : Ideal Node :=
  { time := 0, now := 0, made := 0, inserted := 0, live := fun _ => none }

/-- Make a timer live, or renew it: it becomes the latest one inserted. -/
def insert (ideal : Ideal Node) (node : Node) (deadline : Nat) : Ideal Node :=
  { ideal with
    live := Function.update ideal.live node (some (deadline, ideal.inserted))
    inserted := ideal.inserted + 1 }

/-- Make a timer not live. -/
def drop (ideal : Ideal Node) (node : Node) : Ideal Node :=
  { ideal with live := Function.update ideal.live node none }

@[simp] theorem insert_live (ideal : Ideal Node) (node : Node) (deadline : Nat) :
    (ideal.insert node deadline).live =
      Function.update ideal.live node (some (deadline, ideal.inserted)) := rfl

@[simp] theorem drop_live (ideal : Ideal Node) (node : Node) :
    (ideal.drop node).live = Function.update ideal.live node none := rfl

/-- What each event means for the ideal queue. A one-shot timer is no longer
live when its function is called. -/
def apply (ideal : Ideal Node) : TimedEvent Node Func Param → Ideal Node
  | .tick time => { ideal with time := time }
  | .add node intervalMsec _ _ => ideal.insert node (ideal.time + intervalMsec.toInt.natAbs)
  | .addnode node deadline => ideal.insert node deadline
  | .remove node _ => ideal.drop node
  | .process => { ideal with now := ideal.time, made := 0 }
  | .call node _ _ => { ideal.drop node with made := ideal.made + 1 }
  | .callbackReturn => ideal
  | .processReturn _ => ideal

/-- The node is live and comes before every other live timer. -/
def Least (ideal : Ideal Node) (node : Node) (entry : Nat × Nat) : Prop :=
  ideal.live node = some entry ∧
    ∀ other otherEntry, ideal.live other = some otherEntry → other ≠ node →
      Before entry otherEntry

/-- Which observations the ideal queue makes possible. A function is called only
for the least live timer, and only once its deadline has come; `process` returns
only when no live timer's deadline has come, with the number of callbacks it has
made as far as a 32-bit result can tell. -/
def Allows (ideal : Ideal Node) : TimedEvent Node Func Param → Prop
  | .remove node result => result = 1 ↔ (ideal.live node).isSome
  | .call node _ _ => ∃ entry, ideal.Least node entry ∧ entry.1 ≤ ideal.now
  | .processReturn count =>
      (∀ node entry, ideal.live node = some entry → ideal.now < entry.1) ∧
        count.toNat = ideal.made % 2 ^ 32
  | _ => True

/-- One step of the ideal queue. -/
def Step (before : Ideal Node) (event : TimedEvent Node Func Param)
    (after : Ideal Node) : Prop :=
  before.Allows event ∧ after = before.apply event

/-- All the given times, the current time and the true deadlines of the live
timers lie in a window shorter than 2^31 ms. -/
def InWindow (ideal : Ideal Node) (more : List Nat) : Prop :=
  ∃ low, ∀ time,
    (time = ideal.time ∨ time ∈ more ∨ ∃ node order, ideal.live node = some (time, order)) →
      low ≤ time ∧ time < low + 2 ^ 31

end Ideal

/-! ### The code's machine on true time -/

/-- The machine and what the observer has recorded of its run. -/
structure Timed (Node Func Param : Type) where
  machine : Machine Node Func Param
  ideal : Ideal Node

/-- `interval_msec` of a one-shot timer: at most 0, and not `INT_MIN`, which has
no absolute value. -/
def OneShot (intervalMsec : BitVec 32) : Prop :=
  intervalMsec.toInt ≤ 0 ∧ -2 ^ 31 < intervalMsec.toInt

instance (intervalMsec : BitVec 32) : Decidable (OneShot intervalMsec) :=
  inferInstanceAs (Decidable (_ ∧ _))

/-- One step of the code with its true-time event. Every `now_msec` passed in is
the current time modulo 2^32, and time never decreases. -/
inductive TimedStep (rbt : Ffrbt Node) :
    Timed Node Func Param → TimedEvent Node Func Param → Timed Node Func Param → Prop where
  | tick {before : Timed Node Func Param} {time : Nat} (later : before.ideal.time ≤ time) :
      TimedStep rbt before (.tick time)
        ⟨before.machine, before.ideal.apply (.tick time : TimedEvent Node Func Param)⟩
  | add {before : Timed Node Func Param} {node : Node} {intervalMsec : BitVec 32}
      {func : Func} {param : Param} {machine : Machine Node Func Param}
      (oneShot : OneShot intervalMsec)
      (next : Step rbt before.machine
        (.add node (BitVec.ofNat 32 before.ideal.time) intervalMsec func param) machine) :
      TimedStep rbt before (.add node intervalMsec func param)
        ⟨machine, before.ideal.apply (.add node intervalMsec func param)⟩
  | addnode {before : Timed Node Func Param} {node : Node} {deadline : Nat}
      {machine : Machine Node Func Param}
      (keyed : (before.machine.queue.nodes node).key = BitVec.ofNat 32 deadline)
      (next : Step rbt before.machine (.addnode node) machine) :
      TimedStep rbt before (.addnode node deadline)
        ⟨machine, before.ideal.apply (.addnode node deadline : TimedEvent Node Func Param)⟩
  | remove {before : Timed Node Func Param} {node : Node} {result : Nat}
      {machine : Machine Node Func Param}
      (next : Step rbt before.machine (.remove node result) machine) :
      TimedStep rbt before (.remove node result)
        ⟨machine, before.ideal.apply (.remove node result : TimedEvent Node Func Param)⟩
  | process {before : Timed Node Func Param} {machine : Machine Node Func Param}
      (next : Step rbt before.machine (.process (BitVec.ofNat 32 before.ideal.time)) machine) :
      TimedStep rbt before .process
        ⟨machine, before.ideal.apply (.process : TimedEvent Node Func Param)⟩
  | call {before : Timed Node Func Param} {node : Node} {func : Func} {param : Param}
      {machine : Machine Node Func Param}
      (next : Step rbt before.machine (.call node func param) machine) :
      TimedStep rbt before (.call node func param)
        ⟨machine, before.ideal.apply (.call node func param)⟩
  | callbackReturn {before : Timed Node Func Param} {machine : Machine Node Func Param}
      (next : Step rbt before.machine .callbackReturn machine) :
      TimedStep rbt before .callbackReturn ⟨machine, before.ideal⟩
  | processReturn {before : Timed Node Func Param} {count : BitVec 32}
      {machine : Machine Node Func Param}
      (next : Step rbt before.machine (.processReturn count) machine) :
      TimedStep rbt before (.processReturn count) ⟨machine, before.ideal⟩

namespace Timed

/-- The state after `fftimerqueue_init`, at time zero. -/
def start (nodes : Node → TimerNode Func Param) : Timed Node Func Param :=
  { machine := Machine.start nodes, ideal := Ideal.start }

/-- The time of the `process` call that is under way, if there is one. -/
def processing (state : Timed Node Func Param) : List Nat :=
  if state.machine.position = .idle then [] else [state.ideal.now]

end Timed

end Ffos.TimerQueue
