import Mathlib.Data.List.Basic

/-!
# Binary trees read in order

A binary search tree is a tree whose labels, read in order, form a sorted list, so
the order of a tree is a property of that list alone.
-/

namespace TelegraphCQ.Foundation

inductive BinTree (Label : Type*) where
  | leaf
  | node (label : Label) (left right : BinTree Label)
  deriving DecidableEq, Repr

namespace BinTree

variable {Label : Type*}

def inorder : BinTree Label → List Label
  | .leaf => []
  | .node label left right => left.inorder ++ label :: right.inorder

def Ordered (before : Label → Label → Prop) (tree : BinTree Label) : Prop :=
  tree.inorder.Pairwise before

theorem ordered_leaf (before : Label → Label → Prop) :
    Ordered before (.leaf : BinTree Label) := List.Pairwise.nil

variable {before : Label → Label → Prop} {label : Label} {left right : BinTree Label}

theorem ordered_node : Ordered before (.node label left right) ↔
      Ordered before left ∧ Ordered before right ∧ (∀ l ∈ left.inorder, before l label) ∧
        (∀ r ∈ right.inorder, before label r) ∧
        ∀ l ∈ left.inorder, ∀ r ∈ right.inorder, before l r := by
  unfold Ordered
  simp only [inorder, List.pairwise_append, List.pairwise_cons, List.mem_cons, forall_eq_or_imp]
  constructor
  · intro ⟨sortedLeft, ⟨labelRight, sortedRight⟩, across⟩
    exact ⟨sortedLeft, sortedRight, fun l member => (across l member).1, labelRight,
      fun l member => (across l member).2⟩
  · intro ⟨sortedLeft, sortedRight, leftLabel, labelRight, across⟩
    exact ⟨sortedLeft, ⟨labelRight, sortedRight⟩,
      fun l member => ⟨leftLabel l member, across l member⟩⟩

theorem ordered_node_of_trans (trans : ∀ a b c, before a b → before b c → before a c)
    (sortedLeft : Ordered before left) (sortedRight : Ordered before right)
    (leftLabel : ∀ l ∈ left.inorder, before l label)
    (labelRight : ∀ r ∈ right.inorder, before label r) :
    Ordered before (.node label left right) := by
  apply ordered_node.mpr
  refine ⟨sortedLeft, sortedRight, leftLabel, labelRight, ?_⟩
  intro l memberLeft r memberRight
  exact trans l label r (leftLabel l memberLeft) (labelRight r memberRight)

end BinTree

end TelegraphCQ.Foundation
