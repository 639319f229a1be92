/-
Module: Ffos.Lib.OrderedTree
Purpose: Linking a leaf into a binary tree by a comparison, seen through the
  in-order sequence of the tree.
Trusted boundary: none
Main exports: inorder, leftmost, insertLeaf, leftmost_eq_head,
  inorder_insertLeaf, inorder_insertLeaf_perm
-/
import Mathlib.Data.Tree.Basic
import Mathlib.Data.List.Perm.Basic

namespace Ffos.Lib

universe u

variable {α : Type u}

/-- The values of a tree from left to right. -/
def inorder : BinaryTree α → List α
  | .nil => []
  | .node value left right => inorder left ++ value :: inorder right

/-- Walk down the left children to the last one. -/
def leftmost : BinaryTree α → Option α
  | .nil => none
  | .node value left _ => (leftmost left).or (some value)

/-- Walk down from the root, to the left where `goLeft` says so and to the right
elsewhere, and link the new value where the walk leaves the tree. -/
def insertLeaf (goLeft : α → Bool) (new : α) : BinaryTree α → BinaryTree α
  | .nil => .node new .nil .nil
  | .node value left right =>
      if goLeft value then .node value (insertLeaf goLeft new left) right
      else .node value left (insertLeaf goLeft new right)

@[simp] theorem inorder_nil : inorder (.nil : BinaryTree α) = [] := rfl

@[simp] theorem inorder_node (value : α) (left right : BinaryTree α) :
    inorder (.node value left right) = inorder left ++ value :: inorder right := rfl

/-- The leftmost value comes first in the in-order sequence. -/
theorem leftmost_eq_head : ∀ tree : BinaryTree α, leftmost tree = (inorder tree).head?
  | .nil => rfl
  | .node _ left _ => by
      rw [leftmost, leftmost_eq_head left, inorder_node, List.head?_append, List.head?_cons]

/-- Whatever the comparison says, linking a leaf adds exactly the new value. -/
theorem inorder_insertLeaf_perm (goLeft : α → Bool) (new : α) (tree : BinaryTree α) :
    (inorder (insertLeaf goLeft new tree)).Perm (new :: inorder tree) := by
  induction tree with
  | nil => exact List.Perm.refl _
  | node value left right leftIh rightIh =>
      rw [insertLeaf]
      split
      · rw [inorder_node, inorder_node, ← List.cons_append]
        exact leftIh.append_right _
      · rw [inorder_node, inorder_node]
        calc inorder left ++ value :: inorder (insertLeaf goLeft new right)
            _ |>.Perm (inorder left ++ value :: new :: inorder right) :=
                (rightIh.cons value).append_left _
            _ |>.Perm (inorder left ++ new :: value :: inorder right) :=
                (List.Perm.swap new value _).append_left _
            _ |>.Perm (new :: (inorder left ++ value :: inorder right)) :=
                List.perm_middle

/-- If the comparison splits the in-order sequence into a part to stay right of
and a part to go left of, the new value is linked exactly between them. The
shape of the tree does not matter. -/
theorem inorder_insertLeaf {goLeft : α → Bool} {new : α} {tree : BinaryTree α}
    {before after : List α} (sequence : inorder tree = before ++ after)
    (stayRight : ∀ value ∈ before, goLeft value = false)
    (stayLeft : ∀ value ∈ after, goLeft value = true) :
    inorder (insertLeaf goLeft new tree) = before ++ new :: after := by
  induction tree generalizing before after with
  | nil =>
      obtain ⟨rfl, rfl⟩ := List.append_eq_nil_iff.mp sequence.symm
      rfl
  | node value left right leftIh rightIh =>
      rw [inorder_node] at sequence
      rcases List.append_eq_append_iff.mp sequence with
        ⟨gap, rfl, rest⟩ | ⟨gap, leftEq, rfl⟩
      · cases gap with
        | nil =>
            -- the parts meet between the left subtree and the root
            obtain rfl : after = value :: inorder right := by simpa using rest.symm
            have left' : goLeft value = true := stayLeft value (by simp)
            rw [insertLeaf, if_pos left', inorder_node,
              leftIh (List.append_nil _).symm (by simpa using stayRight) (by simp)]
            simp
        | cons head tail =>
            obtain ⟨rfl, rightEq⟩ := List.cons.inj rest
            have right' : goLeft value = false := stayRight value (by simp)
            rw [insertLeaf, right', if_neg Bool.false_ne_true, inorder_node,
              rightIh rightEq (fun item member => stayRight item (by simp [member])) stayLeft]
            simp
      · have left' : goLeft value = true := stayLeft value (by simp)
        rw [insertLeaf, if_pos left', inorder_node,
          leftIh leftEq stayRight (fun item member => stayLeft item (by simp [member]))]
        simp

/-- A list in which every value that satisfies the predicate comes before every
value that does not is split by it. -/
theorem filter_append_filter_not {keep : α → Bool} {values : List α}
    (downward : values.Pairwise fun first second => keep second = true → keep first = true) :
    values = values.filter keep ++ values.filter fun value => !keep value := by
  induction values with
  | nil => rfl
  | cons head tail inductionHypothesis =>
      obtain ⟨headFirst, rest⟩ := List.pairwise_cons.mp downward
      cases kept : keep head with
      | true =>
          simp only [kept, List.filter_cons_of_pos, Bool.not_true, Bool.false_eq_true,
            not_false_eq_true, List.filter_cons_of_neg, List.cons_append]
          rw [← inductionHypothesis rest]
      | false =>
          have none : tail.filter keep = [] := by
            rw [List.filter_eq_nil_iff]
            intro value member kept'
            simp [headFirst value member kept'] at kept
          have all : tail.filter (fun value => !keep value) = tail := by
            rw [List.filter_eq_self]
            intro value member
            rw [List.filter_eq_nil_iff] at none
            simpa using none value member
          simp [kept, none, all]

end Ffos.Lib
