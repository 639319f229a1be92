/-
Module: Ffos.TimerQueue.Membership
Purpose: The `active` flag, the tree and its length agree in every state of
  every run, whatever the keys, the intervals and the callbacks are.
Trusted boundary: none
Main exports: WellLinked, Step.wellLinked, membership_invariant
-/
import Ffos.TimerQueue.Model
import Mathlib.Data.List.Nodup
import Mathlib.Data.Set.Card

namespace Ffos.TimerQueue

open Ffos.Lib

variable {Node Func Param : Type} [DecidableEq Node]

/-- The flag of every node says whether it is linked, no node is linked twice,
and `len` counts the linked nodes. -/
structure WellLinked (queue : Fftimerqueue Node Func Param) : Prop where
  nodup : (inorder queue.tree).Nodup
  flag : ∀ node, (queue.nodes node).active = if queue.Linked node then 1 else 0
  len : queue.len = (inorder queue.tree).length

namespace WellLinked

variable {queue : Fftimerqueue Node Func Param}

theorem active_one_iff (linked : WellLinked queue) (node : Node) :
    (queue.nodes node).active = 1 ↔ queue.Linked node := by
  rw [linked.flag]
  split <;> simp_all

theorem active_ne_zero_iff (linked : WellLinked queue) (node : Node) :
    (queue.nodes node).active ≠ 0 ↔ queue.Linked node := by
  rw [linked.flag]
  split <;> simp_all

/-- `len` is the number of nodes whose flag is set. -/
theorem len_eq_ncard (linked : WellLinked queue) :
    queue.len = Set.ncard {node | (queue.nodes node).active = 1} := by
  have members : {node | (queue.nodes node).active = 1} =
      ((inorder queue.tree).toFinset : Set Node) := by
    ext node
    simp only [Set.mem_ofPred_eq, List.coe_toFinset]
    exact linked.active_one_iff node
  rw [members, Set.ncard_coe_finset, List.toFinset_card_of_nodup linked.nodup, linked.len]

/-- An empty tree agrees with node objects whose flags are clear. -/
theorem start {nodes : Node → TimerNode Func Param}
    (zeroed : ∀ node, (nodes node).active = 0) : WellLinked (fftimerqueueInit nodes) where
  nodup := List.nodup_nil
  flag node := by simp [fftimerqueueInit, Fftimerqueue.Linked, zeroed]
  len := rfl

/-- Writes that leave the flag alone keep the agreement. -/
theorem write (linked : WellLinked queue) (node : Node)
    (change : TimerNode Func Param → TimerNode Func Param)
    (keepsFlag : ∀ fields, (change fields).active = fields.active) :
    WellLinked (queue.write node change) where
  nodup := linked.nodup
  flag other := by
    have same : ((queue.write node change).nodes other).active =
        (queue.nodes other).active := by
      by_cases here : other = node
      · subst here
        rw [Fftimerqueue.write_nodes_self, keepsFlag]
      · rw [Fftimerqueue.write_nodes_of_ne _ here]
    rw [same]
    exact linked.flag other
  len := linked.len

end WellLinked

/-! ### What linking and unlinking do -/

section Links

variable (rbt : Ffrbt Node) (queue : Fftimerqueue Node Func Param) (node : Node)

theorem inorder_link :
    inorder (link rbt queue node).tree =
      inorder (fftmrqNodeInsert (fun other => (queue.nodes other).key) node queue.tree) :=
  rbt.inorder_rebalance _

theorem inorder_link_perm :
    (inorder (link rbt queue node).tree).Perm (node :: inorder queue.tree) := by
  rw [inorder_link]
  exact inorder_insertLeaf_perm _ _ _

theorem linked_link_iff (other : Node) :
    (link rbt queue node).Linked other ↔ other = node ∨ queue.Linked other := by
  rw [Fftimerqueue.Linked, (inorder_link_perm rbt queue node).mem_iff, List.mem_cons]
  exact Iff.rfl

variable {node}

/-- Linking a node writes no other node object. -/
theorem link_nodes_of_ne {other : Node} (different : other ≠ node) :
    (link rbt queue node).nodes other = queue.nodes other :=
  Fftimerqueue.write_nodes_of_ne _ different _

/-- Unlinking a node writes no other node object. -/
theorem unlink_nodes_of_ne {other : Node} (different : other ≠ node) :
    (unlink rbt queue node).nodes other = queue.nodes other :=
  Fftimerqueue.write_nodes_of_ne _ different _

variable (node)

theorem link_nodes_self :
    (link rbt queue node).nodes node = { queue.nodes node with active := 1 } :=
  Fftimerqueue.write_nodes_self ..

theorem unlink_nodes_self :
    (unlink rbt queue node).nodes node = { queue.nodes node with active := 0 } :=
  Fftimerqueue.write_nodes_self ..

variable {queue node}

theorem inorder_unlink (linked : WellLinked queue) (member : queue.Linked node) :
    inorder (unlink rbt queue node).tree = (inorder queue.tree).erase node :=
  rbt.inorder_unlink _ _ linked.nodup member

theorem linked_unlink_iff (linked : WellLinked queue) (member : queue.Linked node)
    (other : Node) :
    (unlink rbt queue node).Linked other ↔ other ≠ node ∧ queue.Linked other := by
  rw [Fftimerqueue.Linked, inorder_unlink rbt linked member, linked.nodup.mem_erase_iff]
  exact Iff.rfl

/-- Linking a node that is not linked keeps the agreement. -/
theorem WellLinked.link (linked : WellLinked queue) (absent : ¬ queue.Linked node) :
    WellLinked (link rbt queue node) where
  nodup := by
    rw [(inorder_link_perm rbt queue node).nodup_iff]
    exact List.nodup_cons.mpr ⟨absent, linked.nodup⟩
  flag other := by
    simp only [linked_link_iff]
    by_cases here : other = node
    · subst here
      simp [link_nodes_self]
    · rw [link_nodes_of_ne rbt queue here, linked.flag]
      simp [here]
  len := by
    rw [(inorder_link_perm rbt queue node).length_eq, List.length_cons, ← linked.len]
    rfl

/-- Unlinking a linked node keeps the agreement. -/
theorem WellLinked.unlink (linked : WellLinked queue) (member : queue.Linked node) :
    WellLinked (unlink rbt queue node) where
  nodup := by
    rw [inorder_unlink rbt linked member]
    exact linked.nodup.erase node
  flag other := by
    simp only [linked_unlink_iff rbt linked member]
    by_cases here : other = node
    · subst here
      simp [unlink_nodes_self]
    · rw [unlink_nodes_of_ne rbt queue here, linked.flag]
      simp [here]
  len := by
    rw [inorder_unlink rbt linked member, List.length_erase_of_mem member, ← linked.len]
    rfl

end Links

/-! ### The operations -/

section Operations

variable (rbt : Ffrbt Node) {queue : Fftimerqueue Node Func Param}

/-- `fftimerqueue_remove` unlinks the node if it is linked and does nothing
otherwise. -/
theorem fftimerqueueRemove_eq (linked : WellLinked queue) (node : Node) :
    (queue.Linked node ∧ fftimerqueueRemove rbt queue node = (1, unlink rbt queue node)) ∨
      (¬ queue.Linked node ∧ fftimerqueueRemove rbt queue node = (0, queue)) := by
  by_cases member : queue.Linked node
  · have flag := (linked.active_ne_zero_iff node).mpr member
    exact Or.inl ⟨member, if_pos flag⟩
  · have flag := mt (linked.active_ne_zero_iff node).mp member
    exact Or.inr ⟨member, if_neg flag⟩

theorem fftimerqueueRemove_result (linked : WellLinked queue) (node : Node) :
    (fftimerqueueRemove rbt queue node).1 = 1 ↔ queue.Linked node := by
  rcases fftimerqueueRemove_eq rbt linked node with ⟨member, equation⟩ | ⟨absent, equation⟩
  · simp [equation, member]
  · simp [equation, absent]

theorem WellLinked.remove (linked : WellLinked queue) (node : Node) :
    WellLinked (fftimerqueueRemove rbt queue node).2 := by
  rcases fftimerqueueRemove_eq rbt linked node with ⟨member, equation⟩ | ⟨_, equation⟩
  · rw [equation]
    exact linked.unlink rbt member
  · rw [equation]
    exact linked

theorem linked_remove_iff (linked : WellLinked queue) (node other : Node) :
    (fftimerqueueRemove rbt queue node).2.Linked other ↔
      other ≠ node ∧ queue.Linked other := by
  rcases fftimerqueueRemove_eq rbt linked node with ⟨member, equation⟩ | ⟨absent, equation⟩
  · rw [equation]
    exact linked_unlink_iff rbt linked member other
  · rw [equation]
    constructor
    · intro present
      refine ⟨?_, present⟩
      rintro rfl
      exact absent present
    · exact And.right

/-- After `fftimerqueue_remove` the node is not linked. -/
theorem not_linked_remove (linked : WellLinked queue) (node : Node) :
    ¬ (fftimerqueueRemove rbt queue node).2.Linked node := by
  rw [linked_remove_iff rbt linked]
  exact fun both => both.1 rfl

theorem WellLinked.addnode (linked : WellLinked queue) (node : Node) :
    WellLinked (fftimerqueueAddnode rbt queue node) :=
  (linked.remove rbt node).link rbt (not_linked_remove rbt linked node)

theorem linked_addnode_iff (linked : WellLinked queue) (node other : Node) :
    (fftimerqueueAddnode rbt queue node).Linked other ↔
      other = node ∨ queue.Linked other := by
  rw [fftimerqueueAddnode, linked_link_iff, linked_remove_iff rbt linked]
  by_cases here : other = node <;> simp [here]

/-- The key is overwritten while the node may still be linked; unlinking it then
works from the links, so the agreement does not depend on the old key. -/
theorem WellLinked.add (linked : WellLinked queue) (node : Node)
    (nowMsec intervalMsec : BitVec 32) (func : Func) (param : Param) :
    WellLinked (fftimerqueueAdd rbt queue node nowMsec intervalMsec func param) :=
  (linked.write node (setFields nowMsec intervalMsec func param) fun _ => rfl).addnode rbt node

theorem linked_add_iff (linked : WellLinked queue) (node other : Node)
    (nowMsec intervalMsec : BitVec 32) (func : Func) (param : Param) :
    (fftimerqueueAdd rbt queue node nowMsec intervalMsec func param).Linked other ↔
      other = node ∨ queue.Linked other :=
  linked_addnode_iff rbt
    (linked.write node (setFields nowMsec intervalMsec func param) fun _ => rfl) node other

/-- What one iteration of the loop does when it does not stop: the leftmost node
has expired, is unlinked, and is put back if it is periodic. -/
theorem processIteration_some {nowMsec : BitVec 32} {node : Node}
    {after : Fftimerqueue Node Func Param}
    (expired : processIteration rbt queue nowMsec = some (node, after)) :
    leftmost queue.tree = some node ∧
      ¬ 0 < serialDiff (queue.nodes node).key nowMsec ∧
      after = rearm rbt (unlink rbt queue node) node (queue.nodes node).key nowMsec := by
  unfold processIteration at expired
  cases minimum : leftmost queue.tree with
  | none => simp [minimum] at expired
  | some first =>
      simp only [minimum] at expired
      split at expired
      · simp at expired
      · rename_i past
        obtain ⟨rfl, rfl⟩ := Prod.mk.inj (Option.some.inj expired)
        exact ⟨rfl, past, rfl⟩

omit [DecidableEq Node] in
theorem linked_of_leftmost {node : Node} (minimum : leftmost queue.tree = some node) :
    queue.Linked node := by
  rw [leftmost_eq_head] at minimum
  exact List.mem_of_mem_head? minimum

theorem WellLinked.rearm (linked : WellLinked queue) {node : Node}
    (absent : ¬ queue.Linked node) (key nowMsec : BitVec 32) :
    WellLinked (rearm rbt queue node key nowMsec) := by
  unfold TimerQueue.rearm
  split
  · exact (linked.write node (advanceKey key nowMsec) fun _ => rfl).link rbt absent
  · exact linked

theorem linked_rearm {node other : Node} (different : other ≠ node)
    (key nowMsec : BitVec 32) :
    (rearm rbt queue node key nowMsec).Linked other ↔ queue.Linked other := by
  unfold rearm
  split
  · rw [linked_link_iff]
    simp only [different, false_or]
    exact Iff.rfl
  · exact Iff.rfl

theorem WellLinked.processIteration (linked : WellLinked queue) {nowMsec : BitVec 32}
    {node : Node} {after : Fftimerqueue Node Func Param}
    (expired : processIteration rbt queue nowMsec = some (node, after)) :
    WellLinked after := by
  obtain ⟨minimum, _, rfl⟩ := processIteration_some rbt expired
  have member := linked_of_leftmost minimum
  apply (linked.unlink rbt member).rearm rbt
  rw [linked_unlink_iff rbt linked member]
  exact fun both => both.1 rfl

end Operations

/-! ### Runs -/

section Runs

variable {rbt : Ffrbt Node} {state after : Machine Node Func Param}
  {event : Event Node Func Param}

/-- Every step keeps the agreement. -/
theorem Step.wellLinked (linked : WellLinked state.queue)
    (next : Step rbt state event after) : WellLinked after.queue := by
  cases next with
  | add node nowMsec intervalMsec func param _ =>
      exact linked.add rbt node nowMsec intervalMsec func param
  | addnode node _ => exact linked.addnode rbt node
  | remove node _ => exact linked.remove rbt node
  | process nowMsec _ => exact linked
  | call _ expired => exact linked.processIteration rbt expired
  | callbackReturn _ => exact linked
  | processReturn _ _ => exact linked

/-- A node that is not linked stays so until an event adds it. -/
theorem Step.not_linked (linked : WellLinked state.queue)
    (next : Step rbt state event after) {node : Node}
    (absent : ¬ state.queue.Linked node) (notAdded : ¬ event.Adds node) :
    ¬ after.queue.Linked node := by
  cases next with
  | add other nowMsec intervalMsec func param _ =>
      have different : node ≠ other := by
        rintro rfl
        exact notAdded (Or.inl ⟨_, _, _, _, rfl⟩)
      simp [linked_add_iff rbt linked, different, absent]
  | addnode other _ =>
      have different : node ≠ other := by
        rintro rfl
        exact notAdded (Or.inr rfl)
      simp [linked_addnode_iff rbt linked, different, absent]
  | remove other _ => simp [linked_remove_iff rbt linked, absent]
  | process nowMsec _ => exact absent
  | @call _ _ other queue _ expired =>
      obtain ⟨minimum, _, rfl⟩ := processIteration_some rbt expired
      have member := linked_of_leftmost minimum
      have different : node ≠ other := by
        rintro rfl
        exact absent member
      simp [linked_rearm rbt different, linked_unlink_iff rbt linked member, absent]
  | callbackReturn _ => exact absent
  | processReturn _ _ => exact absent

/-- A function is called only for a node that is linked just before. -/
theorem Step.linked_of_calls (next : Step rbt state event after) {node : Node}
    (calls : event.Calls node) : state.queue.Linked node := by
  obtain ⟨func, param, rfl⟩ := calls
  cases next with
  | call _ expired => exact linked_of_leftmost (processIteration_some rbt expired).1

/-- A run without an event that adds the node leaves it out of the tree. -/
theorem Run.not_linked {trace : List (Event Node Func Param)}
    (run : Run (Step rbt) state trace after) (linked : WellLinked state.queue)
    {node : Node} (absent : ¬ state.queue.Linked node)
    (notAdded : ∀ event ∈ trace, ¬ event.Adds node) :
    ¬ after.queue.Linked node := by
  have both : WellLinked after.queue ∧ ¬ after.queue.Linked node := by
    induction run with
    | refl => exact ⟨linked, absent⟩
    | snoc run next inductionHypothesis =>
        obtain ⟨linkedBefore, absentBefore⟩ :=
          inductionHypothesis fun event member => notAdded event (by simp [member])
        exact ⟨next.wellLinked linkedBefore,
          next.not_linked linkedBefore absentBefore (notAdded _ (by simp))⟩
  exact both.2

/-- Every reachable state agrees. -/
theorem reachable_wellLinked {nodes : Node → TimerNode Func Param}
    (zeroed : ∀ node, (nodes node).active = 0) {trace : List (Event Node Func Param)}
    (run : Run (Step rbt) (Machine.start nodes) trace state) : WellLinked state.queue :=
  run.invariant (fun state => WellLinked state.queue) (WellLinked.start zeroed)
    fun _ _ _ linked next => next.wellLinked linked

/-- Between a removal of a node and the next call of its function there is an
event that adds it. -/
theorem added_between {nodes : Node → TimerNode Func Param}
    (zeroed : ∀ node, (nodes node).active = 0)
    {past middle rest : List (Event Node Func Param)} {node : Node} {result : Nat}
    {func : Func} {param : Param}
    (run : Run (Step rbt) (Machine.start nodes)
      ((past ++ .remove node result :: middle) ++ .call node func param :: rest) state) :
    ∃ event ∈ middle, event.Adds node := by
  by_contra none
  obtain ⟨before, _, first, called, _⟩ := run.step_at
  obtain ⟨earlier, removed, start, removal, between⟩ := first.step_at
  have linked := reachable_wellLinked zeroed start
  have absent : ¬ removed.queue.Linked node := by
    cases removal
    exact not_linked_remove rbt linked node
  have stillAbsent : ¬ before.queue.Linked node := by
    apply Run.not_linked between (removal.wellLinked linked) absent
    intro event member adds
    exact none ⟨event, member, adds⟩
  exact stillAbsent (called.linked_of_calls ⟨func, param, rfl⟩)

end Runs

/-- In every state that is reached from zeroed nodes, after every operation and at
entry to every callback: the flag is 1 exactly for linked nodes, a node is linked
at most once, and `len` is the number of active nodes; `fftimerqueue_remove` tells
whether the node was linked; and the function of a removed node is not called
again until the node is added again. -/
theorem membership_invariant (rbt : Ffrbt Node) {nodes : Node → TimerNode Func Param}
    (zeroed : ∀ node, (nodes node).active = 0)
    {trace : List (Event Node Func Param)} {state : Machine Node Func Param}
    (run : Run (Step rbt) (Machine.start nodes) trace state) :
    (∀ node, (state.queue.nodes node).active = 1 ↔ state.queue.Linked node) ∧
      (∀ node, (inorder state.queue.tree).count node ≤ 1) ∧
      state.queue.len = Set.ncard {node | (state.queue.nodes node).active = 1} ∧
      (∀ node, (fftimerqueueRemove rbt state.queue node).1 = 1 ↔ state.queue.Linked node) ∧
      ∀ past middle rest node result func param,
        trace = (past ++ .remove node result :: middle) ++ .call node func param :: rest →
          ∃ event ∈ middle, event.Adds node := by
  have linked := reachable_wellLinked zeroed run
  refine ⟨linked.active_one_iff, ?_, linked.len_eq_ncard, ?_, ?_⟩
  · intro node
    exact List.nodup_iff_count_le_one.mp linked.nodup node
  · exact fftimerqueueRemove_result rbt linked
  · rintro past middle rest node result func param rfl
    exact added_between zeroed run

/-- A node is added, removed and added again before its function is called. -/
theorem membership_invariant_readded :
    ∃ (trace : List (Event Unit Unit Unit)) (state : Machine Unit Unit Unit),
      Run (Step (Ffrbt.unbalanced Unit)) (Machine.start fun _ => ⟨0, 0, 0, (), ()⟩) trace state ∧
        ((state.queue.nodes ()).active = 1 ↔ state.queue.Linked ()) := by
  have added : Run (Step (Ffrbt.unbalanced Unit))
      (Machine.start fun _ => ⟨0, 0, 0, (), ()⟩) _ _ :=
    Run.single (Step.add () 1 (-2) () () rfl)
  have removed := added.snoc (Step.remove () rfl)
  have readded := removed.snoc (Step.add () 2 3 () () rfl)
  have processing := readded.snoc (Step.process 6 rfl)
  have called := processing.snoc (Step.call rfl rfl)
  exact ⟨_, _, called,
    (membership_invariant (Ffrbt.unbalanced Unit) (fun _ => rfl) called).1 ()⟩

end Ffos.TimerQueue
