/-
Module: Ffos.TimerQueue.Termination
Purpose: Whole calls of `fftimerqueue_process` with callbacks that leave the queue alone end,
  whatever the keys are and however the tree is ordered.
Trusted boundary: none
Main exports: fftimerqueueProcess, lateness, pending, lateness_ffmax_lt, pending_processIteration_lt,
  process_returns_of_le, fftimerqueueProcess_returns
-/
import Ffos.TimerQueue.Membership
import Mathlib.Algebra.BigOperators.Group.List.Basic

namespace Ffos.TimerQueue

open Ffos.Lib

variable {Node Func Param : Type} [DecidableEq Node]

/-- `fftimerqueue_process` with callbacks that do not touch the queue: the nodes whose
functions are called, in order, and the queue after it. It is none if the loop has not
ended after that many iterations. -/
def fftimerqueueProcess (rbt : Ffrbt Node) (nowMsec : BitVec 32) :
    Nat → Fftimerqueue Node Func Param → Option (List Node × Fftimerqueue Node Func Param)
  | 0, _ => none
  | iterations + 1, queue =>
      match processIteration rbt queue nowMsec with
      | none => some ([], queue)
      | some (node, after) =>
          (fftimerqueueProcess rbt nowMsec iterations after).map fun (calls, final) =>
            (node :: calls, final)

/-! ### The measure -/

/-- How late a key is: zero for one in the future, else the wrapped distance to now and one
more. -/
def lateness (nowMsec key : BitVec 32) : Nat :=
  if 0 < serialDiff key nowMsec then 0 else (nowMsec - key).toNat + 1

/-- The lateness of all linked nodes together. -/
def pending (nowMsec : BitVec 32) (queue : Fftimerqueue Node Func Param) : Nat :=
  ((inorder queue.tree).map fun node => lateness nowMsec (queue.nodes node).key).sum

/-- A key is in the future if it is less than half the range ahead. -/
theorem serialDiff_pos_iff (key nowMsec : BitVec 32) :
    0 < serialDiff key nowMsec ↔ 0 < (key - nowMsec).toNat ∧ (key - nowMsec).toNat < 2 ^ 31 := by
  have bound := (key - nowMsec).isLt
  rw [serialDiff, BitVec.toInt_eq_toNat_cond]
  split <;> omega

/-- Of the two candidates one is in the future. The other is on the way to it: it is also in
the future, or less late than before. So it does not matter which one the unsigned maximum
takes. -/
theorem lateness_ffmax_lt {nowMsec key interval : BitVec 32}
    (expired : ¬0 < serialDiff key nowMsec) (periodic : 0 < interval.toInt) :
    lateness nowMsec (ffmax (key + interval) (nowMsec + 1)) < lateness nowMsec key := by
  have keyBound := key.isLt
  have nowBound := nowMsec.isLt
  have intervalBounds : 0 < interval.toNat ∧ interval.toNat < 2 ^ 31 := by
    have bound := interval.isLt
    rw [BitVec.toInt_eq_toNat_cond] at periodic
    split at periodic <;> omega
  have late := expired
  rw [serialDiff_pos_iff, BitVec.toNat_sub] at late
  rw [lateness, lateness, if_neg expired]
  unfold ffmax
  by_cases stepped : (nowMsec + 1).toNat < (key + interval).toNat
  · rw [if_pos stepped]
    by_cases future : 0 < serialDiff (key + interval) nowMsec
    · rw [if_pos future]
      exact Nat.succ_pos _
    · rw [if_neg future]
      rw [serialDiff_pos_iff, BitVec.toNat_sub, BitVec.toNat_add] at future
      rw [BitVec.toNat_sub, BitVec.toNat_sub, BitVec.toNat_add]
      omega
  · have future : 0 < serialDiff (nowMsec + 1) nowMsec := by
      rw [serialDiff_pos_iff, BitVec.add_comm, BitVec.add_sub_cancel]
      decide
    rw [if_neg stepped, if_pos future]
    exact Nat.succ_pos _

/-! ### One iteration -/

variable {rbt : Ffrbt Node} {nowMsec : BitVec 32} {queue after : Fftimerqueue Node Func Param}
  {node : Node}

omit [DecidableEq Node] in
/-- The pending lateness is that of one node and of the others. -/
theorem pending_eq_of_perm {rest : List Node} (nodes : (inorder queue.tree).Perm (node :: rest)) :
    pending nowMsec queue = lateness nowMsec (queue.nodes node).key +
      (rest.map fun other => lateness nowMsec (queue.nodes other).key).sum := by
  rw [pending, (nodes.map _).sum_eq, List.map_cons, List.sum_cons]

omit [DecidableEq Node] in
/-- What a change of one node object leaves of the others. -/
theorem sum_lateness_congr {rest : List Node} (absent : node ∉ rest)
    (unchanged : ∀ other, other ≠ node → (after.nodes other).key = (queue.nodes other).key) :
    (rest.map fun other => lateness nowMsec (after.nodes other).key) =
      rest.map fun other => lateness nowMsec (queue.nodes other).key := by
  apply List.map_congr_left
  intro other member
  have different : other ≠ node := by
    rintro rfl
    exact absent member
  rw [unchanged other different]

/-- Every iteration takes some of the lateness away. -/
theorem pending_processIteration_lt (linked : WellLinked queue)
    (fired : processIteration rbt queue nowMsec = some (node, after)) :
    pending nowMsec after < pending nowMsec queue := by
  obtain ⟨minimum, expired, rfl⟩ := processIteration_some rbt fired
  have member := linked_of_leftmost minimum
  have others := inorder_unlink rbt linked member
  have absent : node ∉ (inorder queue.tree).erase node := linked.nodup.not_mem_erase
  have sameFields : (unlink rbt queue node).nodes node = { queue.nodes node with active := 0 } :=
    unlink_nodes_self rbt queue node
  rw [pending_eq_of_perm (List.perm_cons_erase member)]
  by_cases periodic : 0 < (queue.nodes node).intervalMsec.toInt
  · rw [rearm, if_pos (by rw [sameFields]; exact periodic)]
    have back := inorder_link_perm rbt ((unlink rbt queue node).write node
      (advanceKey (queue.nodes node).key nowMsec)) node
    have unlinked : inorder ((unlink rbt queue node).write node
        (advanceKey (queue.nodes node).key nowMsec)).tree = (inorder queue.tree).erase node :=
      others
    rw [unlinked] at back
    rw [pending_eq_of_perm back, sum_lateness_congr absent]
    · apply Nat.add_lt_add_right
      rw [link_nodes_self, Fftimerqueue.write_nodes_self, sameFields]
      exact lateness_ffmax_lt expired periodic
    · intro other different
      rw [link_nodes_of_ne rbt _ different, Fftimerqueue.write_nodes_of_ne _ different,
        unlink_nodes_of_ne rbt queue different]
  · rw [rearm, if_neg (by rw [sameFields]; exact periodic), pending, others,
      sum_lateness_congr absent]
    · apply Nat.lt_add_of_pos_left
      rw [lateness, if_neg expired]
      exact Nat.succ_pos _
    · intro other different
      rw [unlink_nodes_of_ne rbt queue different]

/-! ### The loop -/

/-- As many iterations as there is lateness, and one more, are enough. -/
theorem process_returns_of_le {amount : Nat} (linked : WellLinked queue)
    (within : pending nowMsec queue ≤ amount) :
    ∃ calls final, fftimerqueueProcess rbt nowMsec (amount + 1) queue = some (calls, final) ∧
      calls.length ≤ pending nowMsec queue := by
  induction amount generalizing queue with
  | zero =>
      cases step : processIteration rbt queue nowMsec with
      | none => exact ⟨[], queue, by simp only [fftimerqueueProcess, step], Nat.zero_le _⟩
      | some called =>
          have smaller := pending_processIteration_lt linked step
          exact absurd smaller (Nat.not_lt_of_le (Nat.le_trans within (Nat.zero_le _)))
  | succ amount inductionHypothesis =>
      cases step : processIteration rbt queue nowMsec with
      | none => exact ⟨[], queue, by simp only [fftimerqueueProcess, step], Nat.zero_le _⟩
      | some called =>
          obtain ⟨node, after⟩ := called
          have smaller := pending_processIteration_lt linked step
          have less : pending nowMsec after ≤ amount :=
            Nat.le_of_lt_succ (Nat.lt_of_lt_of_le smaller within)
          obtain ⟨calls, final, returned, few⟩ :=
            inductionHypothesis (linked.processIteration rbt step) less
          refine ⟨node :: calls, final, ?_, ?_⟩
          · rw [fftimerqueueProcess, step]
            simp only [returned, Option.map_some]
          · rw [List.length_cons]
            exact Nat.lt_of_le_of_lt few smaller

/-- `fftimerqueue_process` always ends: for any number of one-shot and periodic nodes, in a
tree of any order, with any keys and any time. The number of its calls is bounded by the
lateness of the nodes. -/
theorem fftimerqueueProcess_returns (rbt : Ffrbt Node) (queue : Fftimerqueue Node Func Param)
    (linked : WellLinked queue) (nowMsec : BitVec 32) :
    ∃ iterations calls final, fftimerqueueProcess rbt nowMsec iterations queue =
      some (calls, final) ∧ calls.length ≤ pending nowMsec queue :=
  ⟨_, process_returns_of_le linked (Nat.le_refl _)⟩

/-- A one-shot node half the range away, and a periodic node whose next key is again in the
past. -/
def unsortedQueue : Fftimerqueue Bool Unit Unit where
  nodes periodic :=
    if periodic then ⟨0xfffffff0, 8, 1, (), ()⟩ else ⟨0x80000000, 0xffffffff, 1, (), ()⟩
  tree := .node true (.node false .nil .nil) .nil
  len := 2

theorem unsortedQueue_wellLinked : WellLinked unsortedQueue where
  nodup := by decide
  flag node := by cases node <;> decide
  len := rfl

/-- The periodic node is called twice in one call, since the clock has wrapped. -/
theorem fftimerqueueProcess_returns_unsorted :
    (∃ iterations calls final,
      fftimerqueueProcess (Ffrbt.unbalanced Bool) 0 iterations unsortedQueue =
        some (calls, final) ∧ calls.length ≤ pending 0 unsortedQueue) ∧
      (fftimerqueueProcess (Ffrbt.unbalanced Bool) 0 4 unsortedQueue).map Prod.fst =
        some [false, true, true] :=
  ⟨fftimerqueueProcess_returns (Ffrbt.unbalanced Bool) unsortedQueue unsortedQueue_wellLinked 0,
    by decide⟩

end Ffos.TimerQueue
