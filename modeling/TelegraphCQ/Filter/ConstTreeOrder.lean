import TelegraphCQ.Filter.ConstTreeCorrect

/-!
# The search order of a constant tree

The operator, applied to the constant of a node and to a constant below it, is true in the
right subtree and false in the left one.  An insertion asks for equal constants byte by
byte before it applies the operator, so that constants that the operator does not tell
apart can be stored in two nodes.  A removal that replaces a node by its successor then
brings such a constant to the wrong side.
-/

namespace TelegraphCQ.Filter

open Foundation List

section Order

variable {Const : Type}

def SearchOrder (oper : Const → Const → Bool) : ConstTree Const → Prop
  | .leaf => True
  | .node n left right =>
    (∀ m ∈ left.inorder, oper n.c m.c = false) ∧ (∀ m ∈ right.inorder, oper n.c m.c = true) ∧
      SearchOrder oper left ∧ SearchOrder oper right

instance decidableSearchOrder (oper : Const → Const → Bool) :
    ∀ tree, Decidable (SearchOrder oper tree)
  | .leaf => .isTrue trivial
  | .node _ left right =>
    have : Decidable (SearchOrder oper left) := decidableSearchOrder oper left
    have : Decidable (SearchOrder oper right) := decidableSearchOrder oper right
    inferInstanceAs (Decidable (_ ∧ _ ∧ _ ∧ _))

theorem searchOrder_of_keyed {oper : Const → Const → Bool} (order : OrderOper oper)
    {tree : ConstTree Const} (keyed : Keyed oper tree) : SearchOrder oper tree := by
  induction tree with
  | leaf => trivial
  | node n left right ihLeft ihRight =>
    obtain ⟨keyedLeft, keyedRight, leftBelow, rightAbove, -⟩ := BinTree.ordered_node.mp keyed
    refine ⟨?_, rightAbove, ihLeft keyedLeft, ihRight keyedRight⟩
    intro m member
    exact order.asymm (leftBelow m member)

/-! ## The predicates of the other queries -/

def ofOthers (queryid : Nat) (preds : List (Predicate Const)) : List (Predicate Const) :=
  preds.filter fun p => decide (p.queryid ≠ queryid)

theorem ofOthers_append (queryid : Nat) (preds more : List (Predicate Const)) :
    ofOthers queryid (preds ++ more) = ofOthers queryid preds ++ ofOthers queryid more :=
  filter_append _ _

theorem ofOthers_erase (queryid : Nat) (op : OptrType) (c : Const) (queries : List Nat) :
    ofOthers queryid ((queries.erase queryid).map fun q => ⟨q, op, c⟩) =
      ofOthers queryid (queries.map fun q => ⟨q, op, c⟩) := by
  induction queries with
  | nil => rfl
  | cons q queries ih =>
    by_cases own : q = queryid
    · rw [own, erase_cons_head]
      simp [ofOthers]
    · rw [erase_cons_tail (by simpa using own)]
      simp only [ofOthers, map_cons] at ih ⊢
      rw [filter_cons_of_pos (by simpa using own), filter_cons_of_pos (by simpa using own), ih]

variable {strictOp looseOp : OptrType}

def afterRemoval (queryid : Nat) (nodes : List (ConstNode Const)) : List (ConstNode Const) :=
  (nodes.map (ConstNode.removeQuery queryid)).filter fun n => decide (Populated n)

theorem ofOthers_afterRemoval (queryid : Nat) (nodes : List (ConstNode Const)) :
    ofOthers queryid ((afterRemoval queryid nodes).flatMap (nodePredicates strictOp looseOp)) =
      ofOthers queryid (nodes.flatMap (nodePredicates strictOp looseOp)) := by
  unfold afterRemoval
  rw [flatMap_populated, flatMap_map]
  induction nodes with
  | nil => rfl
  | cons n nodes ih =>
    rw [flatMap_cons, flatMap_cons, ofOthers_append, ofOthers_append, ih]
    simp [nodePredicates, ConstNode.removeQuery, ofOthers_append, ofOthers_erase]

theorem ofOthers_removeQuery (queryid : Nat) (tree : ConstTree Const) :
    ofOthers queryid (treePredicates strictOp looseOp (removeQueryConstTree queryid tree)) =
      ofOthers queryid (treePredicates strictOp looseOp tree) := by
  unfold treePredicates
  rw [inorder_removeQuery]
  exact ofOthers_afterRemoval queryid tree.inorder

end Order

/-! ## Runs -/

inductive ConstTreeOp (Const : Type) where
  | insert (c : Const) (queryid : Nat) (isRangeEQ : Bool)
  | removeQuery (queryid : Nat)
  deriving DecidableEq, Repr

section Runs

variable {Const : Type} [DecidableEq Const] (oper : Const → Const → Bool)

/-- What `add_query_to_gsf` and `ProcessRemoveQueryGSF` do to one of the two trees. -/
def constTreeStep (tree : ConstTree Const) :
    ConstTreeOp Const → List Unit × Except GSFilterFault (ConstTree Const)
  | .insert c queryid isRangeEQ =>
    ([], assertOrdered oper (addToConstTree oper c queryid isRangeEQ tree))
  | .removeQuery queryid => ([], assertOrdered oper (removeQueryConstTree queryid tree))

def constTreeMachine : Machine (ConstTree Const) (ConstTreeOp Const) Unit GSFilterFault where
  step := constTreeStep oper

def TellsApart (tree : ConstTree Const) : ConstTreeOp Const → Prop
  | .insert c _ _ => Separated oper c tree
  | .removeQuery _ => True

variable {oper}

theorem constTreeStep_keyed (order : OrderOper oper) {tree : ConstTree Const}
    {op : ConstTreeOp Const} (apart : TellsApart oper tree op) (keyed : Keyed oper tree) :
    ∃ next, constTreeStep oper tree op = ([], .ok next) ∧ Keyed oper next := by
  cases op with
  | insert c queryid isRangeEQ =>
    have keyedNext := @keyed_add _ _ _ c queryid isRangeEQ order _ apart keyed
    refine ⟨addToConstTree oper c queryid isRangeEQ tree, ?_, keyedNext⟩
    rw [constTreeStep, assertOrdered_of_keyed order keyedNext]
  | removeQuery queryid =>
    have keyedNext : Keyed oper (removeQueryConstTree queryid tree) := keyed_removeQuery keyed
    refine ⟨removeQueryConstTree queryid tree, ?_, keyedNext⟩
    rw [constTreeStep, assertOrdered_of_keyed order keyedNext]

/-- As long as the operator tells different constants apart, no assertion fails and the
tree is in order; a removal leaves the predicates of other queries as they are. -/
theorem const_tree_in_order (order : OrderOper oper) (ops : List (ConstTreeOp Const))
    (apart : (constTreeMachine oper).Guarded (TellsApart oper) .leaf ops) :
    ∃ tree, (constTreeMachine oper).run .leaf ops = ([], .ok tree) ∧ SearchOrder oper tree ∧
      ∀ queryid strictOp looseOp,
        ofOthers queryid
            (treePredicates strictOp looseOp (removeQueryConstTree queryid tree)) =
          ofOthers queryid (treePredicates strictOp looseOp tree) := by
  obtain ⟨outs, tree, ran, silent, keyed⟩ :=
    @Machine.run_guarded _ _ _ _ (constTreeMachine oper) (fun _ => True) (TellsApart oper)
      (fun _ outs tree => outs = [] ∧ Keyed oper tree) (fun _ _ _ => trivial)
      (by
        rintro ops op outs tree - cond ⟨silent, keyed⟩
        obtain ⟨next, stepped, keyedNext⟩ := constTreeStep_keyed order cond keyed
        exact ⟨[], next, stepped, by rw [silent, append_nil], keyedNext⟩)
      .leaf ⟨rfl, BinTree.ordered_leaf _⟩ ops trivial apart
  refine ⟨tree, by rw [ran, silent], searchOrder_of_keyed order keyed, ?_⟩
  intro queryid strictOp looseOp
  exact ofOthers_removeQuery queryid tree

/-- A root with two children is removed and its successor spliced in. -/
theorem const_tree_in_order_spliced :
    ∃ tree, (constTreeMachine (ltOper : Int → Int → Bool)).run .leaf
        [.insert 5 1 false, .insert 2 2 false, .insert 9 3 false, .insert 7 4 true,
          .removeQuery 1] = ([], .ok tree) ∧ SearchOrder ltOper tree ∧
      ∀ queryid strictOp looseOp,
        ofOthers queryid
            (treePredicates strictOp looseOp (removeQueryConstTree queryid tree)) =
          ofOthers queryid (treePredicates strictOp looseOp tree) := by
  refine const_tree_in_order strictOper_lt.order _ ?_
  have apart : ∀ (ops : List (ConstTreeOp Int)) tree,
      (constTreeMachine ltOper).Guarded (TellsApart ltOper) tree ops := by
    intro ops
    induction ops with
    | nil => exact fun _ => trivial
    | cons op ops ih =>
      intro tree
      refine ⟨?_, fun next _ => ih next⟩
      cases op with
      | insert c queryid isRangeEQ => exact strictOper_lt.separated c tree
      | removeQuery queryid => trivial
  exact apart _ _

end Runs

/-! ## Constants with two representations -/

/-- A decimal constant keeps the number of digits it was written with. -/
structure Numeric where
  hundredths : Int
  dscale : Nat
  deriving DecidableEq, Repr

def numericLt (a b : Numeric) : Bool := decide (a.hundredths < b.hundredths)

theorem numericLt_order : OrderOper numericLt := by
  constructor
  · intro a b c below above
    simp only [numericLt, decide_eq_true_eq] at below above ⊢
    omega
  · intro a b below
    simp only [numericLt, decide_eq_true_eq, decide_eq_false_iff_not] at below ⊢
    omega

def writtenTwice : ConstTree Numeric :=
  .node ⟨⟨0, 0⟩, [1], []⟩ (.node ⟨⟨-100, 0⟩, [2], []⟩ .leaf .leaf)
    (.node ⟨⟨100, 1⟩, [3], []⟩ (.node ⟨⟨100, 2⟩, [4], []⟩ .leaf .leaf) .leaf)

theorem removeQuery_writtenTwice : removeQueryConstTree 1 writtenTwice =
      .node ⟨⟨100, 2⟩, [4], []⟩ (.node ⟨⟨-100, 0⟩, [2], []⟩ .leaf .leaf)
        (.node ⟨⟨100, 1⟩, [3], []⟩ .leaf .leaf) := by
  simp [writtenTwice, removeQueryConstTree, ConstNode.removeQuery, removeNodeConstTree,
    findAndRemoveLeftmostConstTree]

/-- `0`, `-1`, `1.0` and `1.00` are inserted in this order and `0` is removed: `1.00` takes its
place, with `1.0` to its right. -/
theorem const_tree_out_of_order :
    (constTreeMachine numericLt).run .leaf
        [.insert ⟨0, 0⟩ 1 false, .insert ⟨-100, 0⟩ 2 false, .insert ⟨100, 1⟩ 3 false,
          .insert ⟨100, 2⟩ 4 false] = ([], .ok writtenTwice) ∧
      OrderOper numericLt ∧ SearchOrder numericLt writtenTwice ∧
      ¬ SearchOrder numericLt (removeQueryConstTree 1 writtenTwice) ∧
      (constTreeMachine numericLt).run writtenTwice [.removeQuery 1] =
        ([], .error .treeOutOfOrder) := by
  refine ⟨by decide +kernel, numericLt_order, by decide +kernel, ?_, ?_⟩
  · rw [removeQuery_writtenTwice]
    decide +kernel
  · simp only [Machine.run, constTreeMachine, constTreeStep, removeQuery_writtenTwice]
    decide +kernel

end TelegraphCQ.Filter
