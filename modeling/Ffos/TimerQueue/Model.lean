/-
Module: Ffos.TimerQueue.Model
Purpose: The timer queue of FFOS/timerqueue.h: node objects in the client's
  memory, the tree that links them, the five operations, and the machine that
  runs them with callbacks inside `fftimerqueue_process`.
Trusted boundary: the red-black tree of ffbase, taken as the parameter `Ffrbt`
Main exports: TimerNode, Fftimerqueue, Ffrbt, fftimerqueueAdd,
  fftimerqueueRemove, processIteration, Machine, Step
-/
import Ffos.Lib.OrderedTree
import Ffos.Lib.SerialNumber
import Ffos.Lib.Transition
import Mathlib.Logic.Function.Basic

namespace Ffos.TimerQueue

open Ffos.Lib

/-- `fftimerqueue_node`: the key of the embedded `rbtnode` and the four fields
after it. The tree links of `rbtnode` are in `Fftimerqueue.tree`. -/
structure TimerNode (Func Param : Type) where
  key : BitVec 32
  intervalMsec : BitVec 32
  active : Nat
  func : Func
  param : Param

/-- `fftimerqueue` together with the memory of the node objects. Nodes belong to
the client and are named by their addresses. -/
structure Fftimerqueue (Node Func Param : Type) where
  nodes : Node → TimerNode Func Param
  tree : BinaryTree Node
  len : Nat

/-- What timerqueue.h uses of ffbase's `ffrbtree`. `ffrbt_insert` lets
`tree.insert` link the node and then rebalances; `ffrbt_rm` unlinks a node by
its links. Neither changes the order of the other nodes. What `ffrbt_rm` does
to a node that is not linked is left open. -/
structure Ffrbt (Node : Type) [DecidableEq Node] where
  rebalance : BinaryTree Node → BinaryTree Node
  unlink : BinaryTree Node → Node → BinaryTree Node
  inorder_rebalance : ∀ tree, inorder (rebalance tree) = inorder tree
  inorder_unlink : ∀ tree node, (inorder tree).Nodup → node ∈ inorder tree →
    inorder (unlink tree node) = (inorder tree).erase node

/-- A tree that hangs to the right, with the given in-order sequence. -/
def spine {Node : Type} : List Node → BinaryTree Node
  | [] => .nil
  | node :: rest => .node node .nil (spine rest)

theorem inorder_spine {Node : Type} (nodes : List Node) : inorder (spine nodes) = nodes := by
  induction nodes with
  | nil => rfl
  | cons node rest inductionHypothesis => simp [spine, inductionHypothesis]

/-- The assumptions on `ffrbtree` are met by a tree that is never rebalanced on
insertion and is rebuilt as a spine on removal. -/
def Ffrbt.unbalanced (Node : Type) [DecidableEq Node] : Ffrbt Node where
  rebalance := id
  unlink tree node := spine ((inorder tree).erase node)
  inorder_rebalance _ := rfl
  inorder_unlink _ _ _ _ := inorder_spine _

variable {Node Func Param : Type} [DecidableEq Node]

namespace Fftimerqueue

/-- The node is linked in the tree. -/
def Linked (queue : Fftimerqueue Node Func Param) (node : Node) : Prop :=
  node ∈ inorder queue.tree

instance (queue : Fftimerqueue Node Func Param) (node : Node) :
    Decidable (queue.Linked node) :=
  inferInstanceAs (Decidable (node ∈ inorder queue.tree))

/-- Overwrite fields of one node object. -/
def write (queue : Fftimerqueue Node Func Param) (node : Node)
    (change : TimerNode Func Param → TimerNode Func Param) :
    Fftimerqueue Node Func Param :=
  { queue with nodes := Function.update queue.nodes node (change (queue.nodes node)) }

@[simp] theorem write_nodes_self (queue : Fftimerqueue Node Func Param) (node : Node)
    (change : TimerNode Func Param → TimerNode Func Param) :
    (queue.write node change).nodes node = change (queue.nodes node) :=
  Function.update_self ..

theorem write_nodes_of_ne (queue : Fftimerqueue Node Func Param) {node other : Node}
    (different : other ≠ node) (change : TimerNode Func Param → TimerNode Func Param) :
    (queue.write node change).nodes other = queue.nodes other :=
  Function.update_of_ne different ..

end Fftimerqueue

/-- `_fftmrq_node_insert`: compare by the signed 32-bit difference, equal keys
go to the right. -/
def fftmrqNodeInsert (key : Node → BitVec 32) (node : Node) (root : BinaryTree Node) :
    BinaryTree Node :=
  insertLeaf (fun parent => decide (serialDiff (key node) (key parent) < 0)) node root

/-- `fftimerqueue_init`: an empty tree over the given node memory. -/
def fftimerqueueInit (nodes : Node → TimerNode Func Param) :
    Fftimerqueue Node Func Param :=
  { nodes := nodes, tree := .nil, len := 0 }

section Operations

variable (rbt : Ffrbt Node)

/-- `ffrbt_insert(&tq->tree, &node->rbtnode, NULL)`. -/
def ffrbtInsert (queue : Fftimerqueue Node Func Param) (node : Node) :
    Fftimerqueue Node Func Param :=
  { queue with
    tree := rbt.rebalance
      (fftmrqNodeInsert (fun other => (queue.nodes other).key) node queue.tree)
    len := queue.len + 1 }

/-- `ffrbt_rm(&tq->tree, &node->rbtnode)`. -/
def ffrbtRm (queue : Fftimerqueue Node Func Param) (node : Node) :
    Fftimerqueue Node Func Param :=
  { queue with
    tree := rbt.unlink queue.tree node
    len := queue.len - 1 }

/-- `ffrbt_insert(..); node->active = 1;` -/
def link (queue : Fftimerqueue Node Func Param) (node : Node) :
    Fftimerqueue Node Func Param :=
  (ffrbtInsert rbt queue node).write node fun fields => { fields with active := 1 }

/-- `ffrbt_rm(..); node->active = 0;` -/
def unlink (queue : Fftimerqueue Node Func Param) (node : Node) :
    Fftimerqueue Node Func Param :=
  (ffrbtRm rbt queue node).write node fun fields => { fields with active := 0 }

/-- `fftimerqueue_remove`: the result and the queue after the call. -/
def fftimerqueueRemove (queue : Fftimerqueue Node Func Param) (node : Node) :
    Nat × Fftimerqueue Node Func Param :=
  if (queue.nodes node).active ≠ 0 then (1, unlink rbt queue node) else (0, queue)

/-- `fftimerqueue_addnode`. -/
def fftimerqueueAddnode (queue : Fftimerqueue Node Func Param) (node : Node) :
    Fftimerqueue Node Func Param :=
  link rbt (fftimerqueueRemove rbt queue node).2 node

/-- The field writes of `fftimerqueue_add`, made before the node is unlinked. -/
def setFields (nowMsec intervalMsec : BitVec 32) (func : Func) (param : Param)
    (fields : TimerNode Func Param) : TimerNode Func Param :=
  { fields with
    intervalMsec := intervalMsec
    key := nowMsec + intervalMsec.abs
    func := func
    param := param }

/-- `fftimerqueue_add`. -/
def fftimerqueueAdd (queue : Fftimerqueue Node Func Param) (node : Node)
    (nowMsec intervalMsec : BitVec 32) (func : Func) (param : Param) :
    Fftimerqueue Node Func Param :=
  fftimerqueueAddnode rbt
    (queue.write node (setFields nowMsec intervalMsec func param)) node

/-- `ffmax` on `ffuint` operands. -/
def ffmax (a b : BitVec 32) : BitVec 32 :=
  if b.toNat < a.toNat then a else b

/-- The key that `fftimerqueue_process` writes into a periodic node: the unsigned
maximum of the two candidates. -/
def advanceKey (key nowMsec : BitVec 32) (fields : TimerNode Func Param) :
    TimerNode Func Param :=
  { fields with key := ffmax (key + fields.intervalMsec) (nowMsec + 1) }

/-- The part of `fftimerqueue_process` that puts an expired node back if it is
periodic. -/
def rearm (queue : Fftimerqueue Node Func Param) (node : Node)
    (key nowMsec : BitVec 32) : Fftimerqueue Node Func Param :=
  if 0 < (queue.nodes node).intervalMsec.toInt then
    link rbt (queue.write node (advanceKey key nowMsec)) node
  else queue

/-- One iteration of the loop of `fftimerqueue_process` up to the callback:
`none` is the `break`, otherwise the node whose function is called next and the
queue at entry to that function. -/
def processIteration (queue : Fftimerqueue Node Func Param) (nowMsec : BitVec 32) :
    Option (Node × Fftimerqueue Node Func Param) :=
  match leftmost queue.tree with
  | none => none
  | some node =>
      let key := (queue.nodes node).key
      if 0 < serialDiff key nowMsec then none
      else some (node, rearm rbt (unlink rbt queue node) node key nowMsec)

end Operations

/-! ### The machine

Operations are called by the client between calls of `fftimerqueue_process`, or
by a callback in the middle of it. A callback is therefore not a function of the
model: it is whatever operations happen between `call` and `callbackReturn`. -/

/-- Where the thread that owns the queue is. `count` is the local `n`. -/
inductive Position where
  | idle
  | loop (nowMsec count : BitVec 32)
  | callback (nowMsec count : BitVec 32)
deriving DecidableEq

/-- The client or a callback is in control, so it may call an operation. -/
def Position.client : Position → Bool
  | .loop .. => false
  | _ => true

/-- The queue and the position of its thread. -/
structure Machine (Node Func Param : Type) where
  queue : Fftimerqueue Node Func Param
  position : Position

/-- Observable events: calls with their arguments and results, and callbacks. -/
inductive Event (Node Func Param : Type) where
  | add (node : Node) (nowMsec intervalMsec : BitVec 32) (func : Func) (param : Param)
  | addnode (node : Node)
  | remove (node : Node) (result : Nat)
  | process (nowMsec : BitVec 32)
  | call (node : Node) (func : Func) (param : Param)
  | callbackReturn
  | processReturn (count : BitVec 32)

/-- The event puts the node into the queue. -/
def Event.Adds (event : Event Node Func Param) (node : Node) : Prop :=
  (∃ nowMsec intervalMsec func param, event = .add node nowMsec intervalMsec func param) ∨
    event = .addnode node

/-- The event calls the node's function. -/
def Event.Calls (event : Event Node Func Param) (node : Node) : Prop :=
  ∃ func param, event = .call node func param

/-- One step of the thread that owns the queue. -/
inductive Step (rbt : Ffrbt Node) :
    Machine Node Func Param → Event Node Func Param → Machine Node Func Param → Prop where
  | add {state : Machine Node Func Param} (node : Node) (nowMsec intervalMsec : BitVec 32)
      (func : Func) (param : Param) (client : state.position.client = true) :
      Step rbt state (.add node nowMsec intervalMsec func param)
        { state with
          queue := fftimerqueueAdd rbt state.queue node nowMsec intervalMsec func param }
  | addnode {state : Machine Node Func Param} (node : Node)
      (client : state.position.client = true) :
      Step rbt state (.addnode node)
        { state with queue := fftimerqueueAddnode rbt state.queue node }
  | remove {state : Machine Node Func Param} (node : Node)
      (client : state.position.client = true) :
      Step rbt state (.remove node (fftimerqueueRemove rbt state.queue node).1)
        { state with queue := (fftimerqueueRemove rbt state.queue node).2 }
  | process {state : Machine Node Func Param} (nowMsec : BitVec 32)
      (idle : state.position = .idle) :
      Step rbt state (.process nowMsec) { state with position := .loop nowMsec 0 }
  | call {state : Machine Node Func Param} {nowMsec count : BitVec 32} {node : Node}
      {queue : Fftimerqueue Node Func Param}
      (looping : state.position = .loop nowMsec count)
      (expired : processIteration rbt state.queue nowMsec = some (node, queue)) :
      Step rbt state (.call node (queue.nodes node).func (queue.nodes node).param)
        { queue := queue, position := .callback nowMsec count }
  | callbackReturn {state : Machine Node Func Param} {nowMsec count : BitVec 32}
      (calling : state.position = .callback nowMsec count) :
      Step rbt state .callbackReturn { state with position := .loop nowMsec (count + 1) }
  | processReturn {state : Machine Node Func Param} {nowMsec count : BitVec 32}
      (looping : state.position = .loop nowMsec count)
      (finished : processIteration rbt state.queue nowMsec = none) :
      Step rbt state (.processReturn count) { state with position := .idle }

/-- The state after `fftimerqueue_init`. -/
def Machine.start (nodes : Node → TimerNode Func Param) : Machine Node Func Param :=
  { queue := fftimerqueueInit nodes, position := .idle }

end Ffos.TimerQueue
