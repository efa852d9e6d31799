import TelegraphCQ.Filter.ConstTree

/-!
# The range trees of a grouped filter

A constant tree is described by two facts about its nodes read in order: their
constants are sorted by the tree's operator, and the predicates they carry are the ones
inserted and not yet removed.  The traversal that skips subtrees marks exactly the
queries of the predicates that fail.
-/

namespace TelegraphCQ.Filter

open Foundation List

/-! ## Order -/

structure OrderOper {Const : Type} (oper : Const → Const → Bool) : Prop where
  trans : ∀ {a b c}, oper a b = true → oper b c = true → oper a c = true
  asymm : ∀ {a b}, oper a b = true → oper b a = false

structure StrictOper {Const : Type} (oper : Const → Const → Bool) : Prop where
  trans : ∀ {a b c}, oper a b = true → oper b c = true → oper a c = true
  asymm : ∀ {a b}, oper a b = true → oper b a = false
  total : ∀ {a b}, a ≠ b → oper a b = false → oper b a = true

variable {Const : Type} {oper : Const → Const → Bool}

theorem StrictOper.order (strict : StrictOper oper) : OrderOper oper := ⟨strict.trans, strict.asymm⟩

section Order

variable {Const : Type} [LinearOrder Const]

theorem strictOper_lt : StrictOper (ltOper : Const → Const → Bool) := by
  constructor
  · intro a b c
    simpa [ltOper] using lt_trans
  · intro a b below
    simp only [ltOper, decide_eq_true_eq, decide_eq_false_iff_not] at below ⊢
    exact lt_asymm below
  · intro a b different notBelow
    simp only [ltOper, decide_eq_true_eq, decide_eq_false_iff_not] at notBelow ⊢
    exact lt_of_le_of_ne (not_lt.mp notBelow) different.symm

theorem strictOper_gt : StrictOper (gtOper : Const → Const → Bool) := by
  constructor
  · intro a b c aboveB aboveC
    exact strictOper_lt.trans aboveC aboveB
  · intro a b above
    exact strictOper_lt.asymm above
  · intro a b different notAbove
    exact strictOper_lt.total different.symm notAbove

end Order

section Trees

variable {Const : Type} {oper : Const → Const → Bool}

def Keyed (oper : Const → Const → Bool) (tree : ConstTree Const) : Prop :=
  tree.Ordered fun m n => oper m.c n.c = true

theorem keyed_node (order : OrderOper oper) {n : ConstNode Const}
    {left right : ConstTree Const} (keyedLeft : Keyed oper left) (keyedRight : Keyed oper right)
    (leftBelow : ∀ m ∈ left.inorder, oper m.c n.c = true)
    (rightAbove : ∀ m ∈ right.inorder, oper n.c m.c = true) : Keyed oper (.node n left right) := by
  refine BinTree.ordered_node_of_trans ?_ keyedLeft keyedRight leftBelow rightAbove
  intro k l m
  exact order.trans

variable {tree : ConstTree Const}

theorem verifyConstTree_of_keyed (order : OrderOper oper) (keyed : Keyed oper tree)
    {parent : Option (Const × Bool)} (below : ∀ c expected, parent = some (c, expected) →
      ∀ n ∈ tree.inorder, oper c n.c = expected) : verifyConstTree oper parent tree = true := by
  induction tree generalizing parent with
  | leaf => rfl
  | node n left right ihLeft ihRight =>
    obtain ⟨keyedLeft, keyedRight, leftBelow, rightAbove, -⟩ := BinTree.ordered_node.mp keyed
    have verifiedLeft : verifyConstTree oper (some (n.c, false)) left = true := by
      apply ihLeft keyedLeft
      intro c expected given m member
      cases given
      exact order.asymm (leftBelow m member)
    have verifiedRight : verifyConstTree oper (some (n.c, true)) right = true := by
      apply ihRight keyedRight
      intro c expected given m member
      cases given
      exact rightAbove m member
    unfold verifyConstTree
    rw [verifiedLeft, verifiedRight, Bool.and_true, Bool.and_true]
    cases parent with
    | none => rfl
    | some given => simp [below given.1 given.2 rfl n (by simp [BinTree.inorder])]

theorem assertOrdered_of_keyed (order : OrderOper oper) (keyed : Keyed oper tree) :
    assertOrdered oper tree = .ok tree := by
  unfold assertOrdered
  rw [verifyConstTree_of_keyed order keyed (by simp)]
  rfl

def Separated (oper : Const → Const → Bool) (c : Const) (tree : ConstTree Const) : Prop :=
  ∀ n ∈ tree.inorder, n.c ≠ c → oper n.c c = false → oper c n.c = true

theorem StrictOper.separated (strict : StrictOper oper) (c : Const) (tree : ConstTree Const) :
    Separated oper c tree := by
  intro n _ different notBefore
  exact strict.total different notBefore

/-! ## Predicates of a tree -/

def nodePredicates (strictOp looseOp : OptrType) (n : ConstNode Const) :
    List (Predicate Const) :=
  n.queries.map (fun queryid => ⟨queryid, strictOp, n.c⟩) ++
    n.eqqueries.map (fun queryid => ⟨queryid, looseOp, n.c⟩)

def treePredicates (strictOp looseOp : OptrType) (tree : ConstTree Const) :
    List (Predicate Const) :=
  tree.inorder.flatMap (nodePredicates strictOp looseOp)

def insertedOp (strictOp looseOp : OptrType) (isRangeEQ : Bool) : OptrType :=
  if isRangeEQ then looseOp else strictOp

variable {strictOp looseOp : OptrType}

theorem treePredicates_node (n : ConstNode Const) (left right : ConstTree Const) :
    treePredicates strictOp looseOp (.node n left right) = treePredicates strictOp looseOp left ++
        (nodePredicates strictOp looseOp n ++ treePredicates strictOp looseOp right) := by
  simp [treePredicates, BinTree.inorder]

theorem nodePredicates_addQuery (queryid : Nat) (isRangeEQ : Bool) (n : ConstNode Const) :
    (nodePredicates strictOp looseOp (n.addQuery queryid isRangeEQ)).Perm
      (⟨queryid, insertedOp strictOp looseOp isRangeEQ, n.c⟩ ::
        nodePredicates strictOp looseOp n) := by
  cases isRangeEQ with
  | false => exact List.Perm.refl _
  | true => exact perm_middle

theorem c_addQuery (queryid : Nat) (isRangeEQ : Bool) (n : ConstNode Const) :
    (n.addQuery queryid isRangeEQ).c = n.c := by
  cases isRangeEQ <;> rfl

end Trees

/-! ## Insertion -/

section Insertion

variable {Const : Type} [DecidableEq Const] {oper : Const → Const → Bool}
  {strictOp looseOp : OptrType} {c : Const} {queryid : Nat} {isRangeEQ : Bool}

theorem treePredicates_add (tree : ConstTree Const) : (treePredicates strictOp looseOp
        (addToConstTree oper c queryid isRangeEQ tree)).Perm
      (⟨queryid, insertedOp strictOp looseOp isRangeEQ, c⟩ ::
        treePredicates strictOp looseOp tree) := by
  induction tree with
  | leaf =>
    cases isRangeEQ <;>
      simp [addToConstTree, treePredicates, BinTree.inorder, nodePredicates,
        ConstNode.addQuery, makeConstNode, insertedOp]
  | node n left right ihLeft ihRight =>
    unfold addToConstTree
    split_ifs with same above
    · rw [treePredicates_node, treePredicates_node, same]
      have added := @nodePredicates_addQuery Const strictOp looseOp queryid isRangeEQ n
      exact ((added.append_right _).append_left _).trans perm_middle
    · rw [treePredicates_node, treePredicates_node]
      have added := (ihRight.append_left (nodePredicates strictOp looseOp n)).trans
        perm_middle
      exact (added.append_left _).trans perm_middle
    · rw [treePredicates_node, treePredicates_node]
      exact ihLeft.append_right _

theorem forall_mem_add {P : Const → Prop} (new : P c) {tree : ConstTree Const}
    (old : ∀ n ∈ tree.inorder, P n.c) :
    ∀ m ∈ (addToConstTree oper c queryid isRangeEQ tree).inorder, P m.c := by
  induction tree with
  | leaf => simpa [addToConstTree, BinTree.inorder, c_addQuery, makeConstNode] using new
  | node n left right ihLeft ihRight =>
    simp only [BinTree.inorder, forall_mem_append, forall_mem_cons] at old
    obtain ⟨inLeft, atNode, inRight⟩ := old
    unfold addToConstTree
    split_ifs with same above
    all_goals simp only [BinTree.inorder, forall_mem_append, forall_mem_cons]
    · exact ⟨inLeft, by rwa [c_addQuery], inRight⟩
    · exact ⟨inLeft, atNode, ihRight inRight⟩
    · exact ⟨ihLeft inLeft, atNode, inRight⟩

theorem keyed_add (order : OrderOper oper) {tree : ConstTree Const}
    (separated : Separated oper c tree) (keyed : Keyed oper tree) :
    Keyed oper (addToConstTree oper c queryid isRangeEQ tree) := by
  induction tree with
  | leaf => simp [addToConstTree, Keyed, BinTree.Ordered, BinTree.inorder]
  | node n left right ihLeft ihRight =>
    obtain ⟨keyedLeft, keyedRight, leftBelow, rightAbove, -⟩ := BinTree.ordered_node.mp keyed
    simp only [Separated, BinTree.inorder, forall_mem_append, forall_mem_cons] at separated
    obtain ⟨inLeft, atNode, inRight⟩ := separated
    unfold addToConstTree
    split_ifs with same above
    · apply keyed_node order keyedLeft keyedRight
      · simpa [c_addQuery] using leftBelow
      · simpa [c_addQuery] using rightAbove
    · exact keyed_node order keyedLeft (ihRight inRight keyedRight) leftBelow
        (forall_mem_add (P := (oper n.c · = true)) above rightAbove)
    · exact keyed_node order (ihLeft inLeft keyedLeft) keyedRight
        (forall_mem_add (P := (oper · n.c = true)) (atNode (Ne.symm same) (by simpa using above))
          leftBelow) rightAbove

end Insertion

/-! ## Removal -/

section Removal

variable {Const : Type} {oper : Const → Const → Bool} {strictOp looseOp : OptrType}

theorem removeNode_without_left (n : ConstNode Const) (right : ConstTree Const) :
    removeNodeConstTree (.node n .leaf right) = right := by
  cases right <;> simp [removeNodeConstTree]

variable {n : ConstNode Const} {left right tree : ConstTree Const}

theorem find_none (none : findAndRemoveLeftmostConstTree n left right = none) : left = .leaf := by
  induction left generalizing n right with
  | leaf => rfl
  | node m below beside ihBelow _ =>
    cases below with
    | leaf => simp [findAndRemoveLeftmostConstTree] at none
    | node k left below =>
      simp only [findAndRemoveLeftmostConstTree, Option.map_eq_none_iff] at none
      cases ihBelow none

theorem inorder_find {replace : ConstNode Const} {rest : ConstTree Const}
    (found : findAndRemoveLeftmostConstTree n left right = some (replace, rest)) :
    (BinTree.node n left right).inorder = replace :: rest.inorder := by
  induction left generalizing n right replace rest with
  | leaf => simp [findAndRemoveLeftmostConstTree] at found
  | node m below beside ihBelow _ =>
    cases below with
    | leaf =>
      simp only [findAndRemoveLeftmostConstTree, removeNode_without_left,
        Option.some.injEq, Prod.mk.injEq] at found
      obtain ⟨isLeftmost, isRest⟩ := found
      rw [← isLeftmost, ← isRest]
      simp [BinTree.inorder]
    | node k left below =>
      simp only [findAndRemoveLeftmostConstTree, Option.map_eq_some_iff] at found
      obtain ⟨⟨leftmost, remaining⟩, foundBelow, given⟩ := found
      simp only [Prod.mk.injEq] at given
      obtain ⟨isLeftmost, isRest⟩ := given
      have inner := ihBelow foundBelow
      rw [← isLeftmost, ← isRest, BinTree.inorder, inner]
      rfl

theorem inorder_removeNode (n : ConstNode Const) (left right : ConstTree Const) :
    (removeNodeConstTree (.node n left right)).inorder = left.inorder ++ right.inorder := by
  cases left with
  | leaf =>
    rw [removeNode_without_left]
    rfl
  | node l leftLeft leftRight =>
    cases right with
    | leaf => simp [removeNodeConstTree, BinTree.inorder]
    | node m rightLeft rightRight =>
      unfold removeNodeConstTree
      cases found : findAndRemoveLeftmostConstTree m rightLeft rightRight with
      | none =>
        rw [find_none found]
        simp [BinTree.inorder]
      | some taken =>
        rw [inorder_find found]
        rfl

def Populated (n : ConstNode Const) : Prop :=
  ¬ (n.queries.length = 0 ∧ n.eqqueries.length = 0)

instance (n : ConstNode Const) : Decidable (Populated n) :=
  inferInstanceAs (Decidable (¬ _))

theorem inorder_removeQuery (queryid : Nat) (tree : ConstTree Const) :
    (removeQueryConstTree queryid tree).inorder =
      (tree.inorder.map (ConstNode.removeQuery queryid)).filter
        fun n => decide (Populated n) := by
  induction tree with
  | leaf => rfl
  | node n left right ihLeft ihRight =>
    unfold removeQueryConstTree
    by_cases empty : (n.removeQuery queryid).queries.length = 0 ∧
        (n.removeQuery queryid).eqqueries.length = 0
    · have gone : ¬ Populated (n.removeQuery queryid) := not_not.mpr empty
      simp only [empty, and_self, if_true]
      rw [inorder_removeNode, ihLeft, ihRight]
      simp [BinTree.inorder, gone]
    · have kept : Populated (n.removeQuery queryid) := empty
      simp only [empty, if_false]
      simp [BinTree.inorder, ihLeft, ihRight, kept]

theorem keyed_removeQuery {queryid : Nat} (keyed : Keyed oper tree) :
    Keyed oper (removeQueryConstTree queryid tree) := by
  unfold Keyed BinTree.Ordered
  rw [inorder_removeQuery]
  apply List.Pairwise.filter
  apply pairwise_map.mpr
  exact keyed

theorem nodePredicates_of_not_populated (empty : ¬ Populated n) :
    nodePredicates strictOp looseOp n = [] := by
  obtain ⟨noQueries, noEqqueries⟩ := not_not.mp empty
  simp [nodePredicates, length_eq_zero_iff.mp noQueries, length_eq_zero_iff.mp noEqqueries]

theorem nodePredicates_removeQuery (queryid : Nat)
    (distinct : (nodePredicates strictOp looseOp n).Nodup) :
    nodePredicates strictOp looseOp (n.removeQuery queryid) =
      (nodePredicates strictOp looseOp n).filter fun p =>
        decide (p.queryid ≠ queryid) := by
  obtain ⟨distinctQueries, distinctEqqueries, -⟩ := nodup_append.mp distinct
  have queries : n.queries.Nodup := List.Nodup.of_map _ distinctQueries
  have eqqueries : n.eqqueries.Nodup := List.Nodup.of_map _ distinctEqqueries
  simp only [nodePredicates, ConstNode.removeQuery, queries.erase_eq_filter,
    eqqueries.erase_eq_filter, filter_append, filter_map]
  simp only [Function.comp_def, decide_not]
  rfl

theorem flatMap_populated (nodes : List (ConstNode Const)) :
    (nodes.filter fun n => decide (Populated n)).flatMap
        (nodePredicates strictOp looseOp) = nodes.flatMap (nodePredicates strictOp looseOp) := by
  induction nodes with
  | nil => rfl
  | cons n nodes ih =>
    by_cases kept : Populated n
    · simp [kept, ih]
    · simp [kept, ih, nodePredicates_of_not_populated kept]

theorem treePredicates_removeQuery (queryid : Nat)
    (distinct : (treePredicates strictOp looseOp tree).Nodup) :
    treePredicates strictOp looseOp (removeQueryConstTree queryid tree) =
      (treePredicates strictOp looseOp tree).filter fun p =>
        decide (p.queryid ≠ queryid) := by
  unfold treePredicates at distinct ⊢
  rw [inorder_removeQuery, flatMap_populated, flatMap_map]
  generalize tree.inorder = nodes at distinct
  induction nodes with
  | nil => rfl
  | cons n nodes ih =>
    rw [flatMap_cons] at distinct
    obtain ⟨distinctNode, distinctRest, -⟩ := nodup_append.mp distinct
    rw [flatMap_cons, flatMap_cons, filter_append,
      nodePredicates_removeQuery queryid distinctNode, ih distinctRest]

theorem treeHeld_removeQuery {preds : List (Predicate Const)} {keep : OptrType → Bool}
    (queryid : Nat) (distinct : preds.Nodup) (held : (treePredicates strictOp looseOp tree).Perm
      (preds.filter fun p => keep p.oper)) :
    (treePredicates strictOp looseOp (removeQueryConstTree queryid tree)).Perm
      ((preds.filter fun p => decide (p.queryid ≠ queryid)).filter
        fun p => keep p.oper) := by
  have distinctTree := held.nodup_iff.mpr (distinct.filter _)
  rw [treePredicates_removeQuery queryid distinctTree, filter_comm]
  exact held.filter _

end Removal

/-! ## Probing -/

section Probing

variable {Const Value : Type} {oper : Const → Const → Bool}
  {rangeOper eqOper : Value → Const → Bool}

variable {failed : Finset Nat}

@[simp] theorem mem_setBits {queries : List Nat} {queryid : Nat} :
    queryid ∈ setBits queries failed ↔ queryid ∈ queries ∨ queryid ∈ failed := by
  unfold setBits
  induction queries generalizing failed with
  | nil => simp
  | cons q queries ih =>
    rw [foldl_cons, ih, Finset.mem_insert, mem_cons]
    tauto

def FailsAt (rangeOper eqOper : Value → Const → Bool) (value : Value) (queryid : Nat)
    (n : ConstNode Const) : Prop :=
  rangeOper value n.c = false ∧
    (queryid ∈ n.queries ∨ queryid ∈ n.eqqueries ∧ eqOper value n.c = false)

def FailsIn (rangeOper eqOper : Value → Const → Bool) (value : Value) (queryid : Nat)
    (tree : ConstTree Const) : Prop :=
  ∃ n ∈ tree.inorder, FailsAt rangeOper eqOper value queryid n

variable {value : Value} {queryid : Nat}

theorem failsIn_node {n : ConstNode Const} {left right : ConstTree Const} :
    FailsIn rangeOper eqOper value queryid (.node n left right) ↔
      FailsIn rangeOper eqOper value queryid left ∨ FailsAt rangeOper eqOper value queryid n ∨
        FailsIn rangeOper eqOper value queryid right := by
  simp [FailsIn, BinTree.inorder, or_and_right, exists_or]

/-- Skipping the right subtree when the value passes the node loses nothing, because
the value then passes every constant on that side. -/
theorem mem_checkConstTree (mono : ∀ value a b, rangeOper value a = true → oper a b = true →
      rangeOper value b = true) {tree : ConstTree Const} (keyed : Keyed oper tree) :
    queryid ∈ checkConstTree rangeOper eqOper value tree failed ↔
      queryid ∈ failed ∨ FailsIn rangeOper eqOper value queryid tree := by
  induction tree generalizing failed with
  | leaf => simp [checkConstTree, FailsIn, BinTree.inorder]
  | node n left right ihLeft ihRight =>
    obtain ⟨keyedLeft, keyedRight, -, rightAbove, -⟩ := BinTree.ordered_node.mp keyed
    rw [failsIn_node]
    unfold checkConstTree
    cases passes : rangeOper value n.c with
    | true =>
      have nodePasses : ¬ FailsAt rangeOper eqOper value queryid n := by
        intro fails
        rw [fails.1] at passes
        cases passes
      have rightPasses : ¬ FailsIn rangeOper eqOper value queryid right := by
        rintro ⟨m, member, fails⟩
        have passesRight := mono value n.c m.c passes (rightAbove m member)
        rw [fails.1] at passesRight
        cases passesRight
      rw [if_pos rfl, ihLeft keyedLeft]
      simp [nodePasses, rightPasses]
    | false =>
      have atNode : FailsAt rangeOper eqOper value queryid n ↔ queryid ∈ n.queries ∨
            queryid ∈ n.eqqueries ∧ eqOper value n.c = false := by
        simp [FailsAt, passes]
      rw [if_neg (by simp), ihLeft keyedLeft, ihRight keyedRight, atNode]
      by_cases marked : n.eqqueries ≠ [] ∧ eqOper value n.c = false
      · rw [if_pos marked, mem_setBits, mem_setBits]
        simp only [marked.2, and_true]
        tauto
      · have unmarked : ¬ (queryid ∈ n.eqqueries ∧ eqOper value n.c = false) := by
          rintro ⟨member, fails⟩
          exact marked ⟨ne_nil_of_mem member, fails⟩
        rw [if_neg marked, mem_setBits]
        simp only [unmarked, or_false]
        tauto

end Probing

/-! ## Histories -/

section Histories

variable {Const : Type}

/-- The predicates inserted and not removed since, latest first. -/
def stored : List (GSFilterOp Const) → List (Predicate Const) :=
  List.foldl (fun preds op =>
    match op with
    | .insert p => p :: preds
    | .removeQuery queryid => preds.filter fun p => decide (p.queryid ≠ queryid)) []

theorem stored_insert (ops : List (GSFilterOp Const)) (p : Predicate Const) :
    stored (ops ++ [.insert p]) = p :: stored ops := by
  simp [stored]

theorem stored_removeQuery (ops : List (GSFilterOp Const)) (queryid : Nat) :
    stored (ops ++ [.removeQuery queryid]) =
      (stored ops).filter fun p => decide (p.queryid ≠ queryid) := by
  simp [stored]

def NoRepeat (ops : List (GSFilterOp Const)) : Prop :=
  ∀ earlier p later, ops = earlier ++ .insert p :: later → p ∉ stored earlier

theorem noRepeat_init {ops : List (GSFilterOp Const)} {op : GSFilterOp Const}
    (valid : NoRepeat (ops ++ [op])) : NoRepeat ops := by
  intro earlier p later split
  exact valid earlier p (later ++ [op]) (by simp [split])

end Histories

/-! ## The two trees of a filter -/

theorem onValue_mono (strict : StrictOper oper) (value : Option Const) (a b : Const)
    (passes : onValue oper value a = true) (step : oper a b = true) :
    onValue oper value b = true := by
  cases value with
  | none => cases passes
  | some v => exact strict.trans passes step

section Filter

variable {Const : Type} [LinearOrder Const]

def OptrType.Rel : OptrType → Const → Const → Prop
  | .lt, value, c => value < c
  | .le, value, c => value ≤ c
  | .gt, value, c => value > c
  | .ge, value, c => value ≥ c
  | .eq, value, c => value = c
  | .ne, value, c => value ≠ c

/-- The predicate is true for the value; it is not true for NULL. -/
def Predicate.Holds (p : Predicate Const) : Option Const → Prop
  | none => False
  | some value => p.oper.Rel value p.c

def OptrType.inLtmap : OptrType → Bool
  | .lt | .le => true
  | _ => false

def OptrType.inRtmap : OptrType → Bool
  | .gt | .ge => true
  | _ => false

def OptrType.isRange (op : OptrType) : Bool := op.inLtmap || op.inRtmap

variable {value : Option Const} {queryid : Nat} {tree : ConstTree Const} {gsf : GSFilter Const}
  {preds : List (Predicate Const)}

theorem fails_iff_predicate {oper : Const → Const → Bool} {strictOp looseOp : OptrType}
    (strictRel : ∀ value c, oper value c = true ↔ strictOp.Rel value c)
    (looseRel : ∀ value c : Const, looseOp.Rel value c ↔ strictOp.Rel value c ∨ value = c) :
    FailsIn (onValue oper) (onValue eqOper) value queryid tree ↔
      ∃ p ∈ treePredicates strictOp looseOp tree, p.queryid = queryid ∧ ¬ p.Holds value := by
  have atNode (n : ConstNode Const) : FailsAt (onValue oper) (onValue eqOper) value queryid n ↔
      ∃ p ∈ nodePredicates strictOp looseOp n, p.queryid = queryid ∧ ¬ p.Holds value := by
    have each (queries : List Nat) (op : OptrType) :
        (∃ p ∈ queries.map (fun q => (⟨q, op, n.c⟩ : Predicate Const)),
          p.queryid = queryid ∧ ¬ p.Holds value) ↔
        queryid ∈ queries ∧ ¬ Predicate.Holds ⟨queryid, op, n.c⟩ value := by
      simp
    simp only [FailsAt, nodePredicates, mem_append, or_and_right, exists_or, each]
    cases value with
    | none => simp [onValue, Predicate.Holds]
    | some v =>
      simp only [onValue, eqOper, Predicate.Holds, looseRel, ← strictRel]
      grind
  simp only [FailsIn, treePredicates, mem_flatMap, atNode]
  grind

theorem ltmap_fails : FailsIn (onValue ltOper) (onValue eqOper) value queryid tree ↔
      ∃ p ∈ treePredicates .lt .le tree, p.queryid = queryid ∧ ¬ p.Holds value := by
  apply fails_iff_predicate
  · simp [ltOper, OptrType.Rel]
  · simp [OptrType.Rel, le_iff_lt_or_eq]

theorem rtmap_fails : FailsIn (onValue gtOper) (onValue eqOper) value queryid tree ↔
      ∃ p ∈ treePredicates .gt .ge tree, p.queryid = queryid ∧ ¬ p.Holds value := by
  apply fails_iff_predicate
  · simp [gtOper, OptrType.Rel]
  · simp [OptrType.Rel, le_iff_lt_or_eq, eq_comm]

structure TreesHold (gsf : GSFilter Const) (preds : List (Predicate Const)) : Prop where
  ltKeyed : Keyed ltOper gsf.ltmap
  rtKeyed : Keyed gtOper gsf.rtmap
  ltHeld : (treePredicates .lt .le gsf.ltmap).Perm
    (preds.filter fun p => p.oper.inLtmap)
  rtHeld : (treePredicates .gt .ge gsf.rtmap).Perm
    (preds.filter fun p => p.oper.inRtmap)

theorem mem_rangeFailed (held : TreesHold gsf preds) (value : Option Const) (queryid : Nat) :
    queryid ∈ rangeFailed gsf value ↔
      ∃ p ∈ preds, p.oper.isRange ∧ p.queryid = queryid ∧ ¬ p.Holds value := by
  unfold rangeFailed
  rw [mem_checkConstTree (onValue_mono strictOper_gt) held.rtKeyed,
    mem_checkConstTree (onValue_mono strictOper_lt) held.ltKeyed, ltmap_fails, rtmap_fails]
  simp only [held.ltHeld.mem_iff, held.rtHeld.mem_iff, mem_filter,
    OptrType.isRange, Bool.or_eq_true, Finset.notMem_empty, false_or]
  grind

/-! ## Steps -/

theorem addToLtmap_spec (held : TreesHold gsf preds) (queryid : Nat) (c : Const)
    (isRangeEQ : Bool) : ∃ next, ((assertOrdered ltOper
          (addToConstTree ltOper c queryid isRangeEQ gsf.ltmap)).map
        fun tree => { gsf with ltmap := tree }) = .ok next ∧
      TreesHold next (⟨queryid, insertedOp .lt .le isRangeEQ, c⟩ :: preds) := by
  have added := @keyed_add Const _ _ c queryid isRangeEQ strictOper_lt.order _
    (strictOper_lt.separated c gsf.ltmap) held.ltKeyed
  rw [assertOrdered_of_keyed strictOper_lt.order added]
  refine ⟨_, rfl, added, held.rtKeyed, ?_, ?_⟩
  · cases isRangeEQ <;> exact (treePredicates_add gsf.ltmap).trans (held.ltHeld.cons _)
  · cases isRangeEQ <;> exact held.rtHeld

theorem addToRtmap_spec (held : TreesHold gsf preds) (queryid : Nat) (c : Const)
    (isRangeEQ : Bool) : ∃ next, ((assertOrdered gtOper
          (addToConstTree gtOper c queryid isRangeEQ gsf.rtmap)).map
        fun tree => { gsf with rtmap := tree }) = .ok next ∧
      TreesHold next (⟨queryid, insertedOp .gt .ge isRangeEQ, c⟩ :: preds) := by
  have added := @keyed_add Const _ _ c queryid isRangeEQ strictOper_gt.order _
    (strictOper_gt.separated c gsf.rtmap) held.rtKeyed
  rw [assertOrdered_of_keyed strictOper_gt.order added]
  refine ⟨_, rfl, held.ltKeyed, added, ?_, ?_⟩
  · cases isRangeEQ <;> exact held.ltHeld
  · cases isRangeEQ <;> exact (treePredicates_add gsf.rtmap).trans (held.rtHeld.cons _)

theorem addQueryToGsf_spec (p : Predicate Const) (held : TreesHold gsf preds) :
    ∃ next, addQueryToGsf p gsf = .ok next ∧ TreesHold next (p :: preds) := by
  obtain ⟨queryid, op, c⟩ := p
  cases op with
  | lt => exact addToLtmap_spec held queryid c false
  | le => exact addToLtmap_spec held queryid c true
  | gt => exact addToRtmap_spec held queryid c false
  | ge => exact addToRtmap_spec held queryid c true
  | eq | ne => exact ⟨_, rfl, held.ltKeyed, held.rtKeyed, held.ltHeld, held.rtHeld⟩

theorem processRemoveQueryGSF_spec (queryid : Nat) (distinct : preds.Nodup)
    (held : TreesHold gsf preds) : ∃ next, processRemoveQueryGSF queryid gsf = .ok next ∧
      TreesHold next (preds.filter fun p => decide (p.queryid ≠ queryid)) := by
  have ltKept : Keyed ltOper (removeQueryConstTree queryid gsf.ltmap) :=
    keyed_removeQuery held.ltKeyed
  have rtKept : Keyed gtOper (removeQueryConstTree queryid gsf.rtmap) :=
    keyed_removeQuery held.rtKeyed
  unfold processRemoveQueryGSF
  rw [assertOrdered_of_keyed strictOper_lt.order ltKept,
    assertOrdered_of_keyed strictOper_gt.order rtKept]
  refine ⟨_, rfl, ltKept, rtKept, ?_, ?_⟩
  · exact treeHeld_removeQuery queryid distinct held.ltHeld
  · exact treeHeld_removeQuery queryid distinct held.rtHeld

/-! ## Runs -/

def RunHolds (ops : List (GSFilterOp Const)) (outs : List Unit)
    (gsf : GSFilter Const) : Prop :=
  outs = [] ∧ (stored ops).Nodup ∧ TreesHold gsf (stored ops)

theorem gsfMachine_step_spec {ops : List (GSFilterOp Const)} {op : GSFilterOp Const}
    {outs : List Unit} (valid : NoRepeat (ops ++ [op])) (inv : RunHolds ops outs gsf) :
    ∃ emitted next, gsfMachine.step gsf op = (emitted, .ok next) ∧
      RunHolds (ops ++ [op]) (outs ++ emitted) next := by
  obtain ⟨silent, distinct, held⟩ := inv
  cases op with
  | insert p =>
    obtain ⟨next, added, heldNext⟩ := addQueryToGsf_spec p held
    have fresh : p ∉ stored ops := valid ops p [] rfl
    refine ⟨[], next, by simp [gsfMachine, gsfStep, added], ?_⟩
    unfold RunHolds
    rw [stored_insert, silent]
    exact ⟨rfl, nodup_cons.mpr ⟨fresh, distinct⟩, heldNext⟩
  | removeQuery queryid =>
    obtain ⟨next, removed, heldNext⟩ := processRemoveQueryGSF_spec queryid distinct held
    refine ⟨[], next, by simp [gsfMachine, gsfStep, removed], ?_⟩
    unfold RunHolds
    rw [stored_removeQuery, silent]
    exact ⟨rfl, distinct.filter _, heldNext⟩

/-- After any sequence of insertions and removals without repeated predicates the
range check of a value marks exactly the queries with a stored range predicate that is
not true for it. -/
theorem gsf_marks_failing_queries (ops : List (GSFilterOp Const)) (distinct : NoRepeat ops) :
    ∃ gsf, gsfMachine.run (makeGSFilter Const) ops = ([], .ok gsf) ∧
      ∀ value queryid, queryid ∈ rangeFailed gsf value ↔
        ∃ p ∈ stored ops, p.oper.isRange ∧ p.queryid = queryid ∧ ¬ p.Holds value := by
  have init : RunHolds ([] : List (GSFilterOp Const)) [] (makeGSFilter Const) := by
    refine ⟨rfl, nodup_nil, BinTree.ordered_leaf _, BinTree.ordered_leaf _, ?_, ?_⟩
    · exact List.Perm.refl _
    · exact List.Perm.refl _
  obtain ⟨outs, gsf, ran, silent, -, held⟩ :=
    @Machine.run_total _ _ _ _ gsfMachine NoRepeat RunHolds
      (fun _ _ valid => noRepeat_init valid)
      (fun _ _ _ _ valid inv => gsfMachine_step_spec valid inv) _ init ops distinct
  refine ⟨gsf, ?_, mem_rangeFailed held⟩
  rw [ran, silent]

theorem gsf_marks_failing_queries_after_removal :
    NoRepeat [.insert ⟨1, .lt, (5 : Int)⟩, .insert ⟨2, .le, 3⟩, .removeQuery 1] ∧
      ∃ gsf, gsfMachine.run (makeGSFilter Int)
          [.insert ⟨1, .lt, 5⟩, .insert ⟨2, .le, 3⟩, .removeQuery 1] = ([], .ok gsf) ∧
        ∀ value queryid, queryid ∈ rangeFailed gsf value ↔
          ∃ p ∈ stored [.insert ⟨1, .lt, (5 : Int)⟩, .insert ⟨2, .le, 3⟩, .removeQuery 1],
            p.oper.isRange ∧ p.queryid = queryid ∧ ¬ p.Holds value := by
  have distinct :
      NoRepeat [.insert ⟨1, .lt, (5 : Int)⟩, .insert ⟨2, .le, 3⟩, .removeQuery 1] := by
    intro earlier p later split
    rcases earlier with _ | ⟨first, _ | ⟨second, _ | ⟨third, earlier⟩⟩⟩
    · simp [stored]
    · simp only [cons_append, nil_append, List.cons.injEq,
        GSFilterOp.insert.injEq] at split
      rw [← split.1, ← split.2.1]
      simp [stored]
    · simp at split
    · simp at split
  exact ⟨distinct, gsf_marks_failing_queries _ distinct⟩

end Filter

end TelegraphCQ.Filter
