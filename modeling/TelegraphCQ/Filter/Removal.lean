import TelegraphCQ.Filter.ConstTreeOrder

/-!
# Removal of a query from the filter

`ProcessRemoveQueryGSF` takes one occurrence of the query out of each list of each node.  A query
that is named twice in a list, because it repeats a predicate or because two of its inequalities
were filed under one constant, stays in the filter.
-/

namespace TelegraphCQ.Filter

open Foundation List

section Nodes

variable {Const : Type}

def GSFilter.nodes (gsf : GSFilter Const) : List (ConstNode Const) :=
  gsf.ltmap.inorder ++ gsf.rtmap.inorder ++ gsf.eqmap ++ gsf.nemap

def GSFilter.predicates (gsf : GSFilter Const) : List (Predicate Const) :=
  treePredicates .lt .le gsf.ltmap ++ treePredicates .gt .ge gsf.rtmap ++
    gsf.eqmap.flatMap (nodePredicates .eq .eq) ++ gsf.nemap.flatMap (nodePredicates .ne .ne)

def ConstNode.Mentions (queryid : Nat) (n : ConstNode Const) : Prop :=
  queryid ∈ n.queries ∨ queryid ∈ n.eqqueries

def ConstNode.NamesOnce (queryid : Nat) (n : ConstNode Const) : Prop :=
  n.queries.count queryid ≤ 1 ∧ n.eqqueries.count queryid ≤ 1

variable {queryid : Nat}

theorem mem_erase_self_iff {queries : List Nat} :
    queryid ∈ queries.erase queryid ↔ ¬ queries.count queryid ≤ 1 := by
  rw [← count_pos_iff, count_erase_self]
  omega

theorem mentions_removeQuery (queryid : Nat) (n : ConstNode Const) :
    (n.removeQuery queryid).Mentions queryid ↔ ¬ n.NamesOnce queryid := by
  unfold ConstNode.Mentions ConstNode.NamesOnce ConstNode.removeQuery
  rw [mem_erase_self_iff, mem_erase_self_iff, not_and_or]

theorem populated_of_mentions {n : ConstNode Const}
    (mentions : n.Mentions queryid) : Populated n := by
  rintro ⟨noQueries, noEqqueries⟩
  rcases mentions with inQueries | inEqqueries
  · rw [length_eq_zero_iff.mp noQueries] at inQueries
    cases inQueries
  · rw [length_eq_zero_iff.mp noEqqueries] at inEqqueries
    cases inEqqueries

theorem removeQueryConstList_eq (queryid : Nat) (l : List (ConstNode Const)) :
    removeQueryConstList queryid l = afterRemoval queryid l := by
  induction l with
  | nil => rfl
  | cons n l ih =>
    unfold removeQueryConstList afterRemoval at ih ⊢
    rw [filterMap_cons, ih, map_cons]
    simp only [removeQueryConstTree]
    by_cases kept : Populated (n.removeQuery queryid)
    · rw [filter_cons_of_pos (by simpa using kept), if_neg kept]
    · rw [filter_cons_of_neg (by simpa using kept), if_pos (not_not.mp kept),
        removeNode_without_left]

theorem unmentioned_afterRemoval (queryid : Nat) (nodes : List (ConstNode Const)) :
    (∀ n ∈ afterRemoval queryid nodes, ¬ n.Mentions queryid) ↔
      ∀ n ∈ nodes, n.NamesOnce queryid := by
  unfold afterRemoval
  constructor
  · intro unmentioned n member
    by_contra twice
    have mentions := (mentions_removeQuery queryid n).mpr twice
    refine unmentioned (n.removeQuery queryid) ?_ mentions
    exact mem_filter.mpr ⟨mem_map_of_mem member, decide_eq_true (populated_of_mentions mentions)⟩
  · intro once n member
    obtain ⟨m, inNodes, rfl⟩ := mem_map.mp (mem_filter.mp member).1
    exact fun mentions => (mentions_removeQuery queryid m).mp mentions (once m inNodes)

end Nodes

/-! ## Runs -/

section Runs

variable {Const : Type} [LinearOrder Const]

structure TreesKeyed (gsf : GSFilter Const) : Prop where
  ltKeyed : Keyed ltOper gsf.ltmap
  rtKeyed : Keyed gtOper gsf.rtmap

variable {gsf : GSFilter Const}

theorem addQueryToGsf_keyed (p : Predicate Const) (keyed : TreesKeyed gsf) :
    ∃ next, addQueryToGsf p gsf = .ok next ∧ TreesKeyed next := by
  obtain ⟨queryid, op, c⟩ := p
  have ltAdded := fun isRangeEQ => @keyed_add Const _ _ c queryid isRangeEQ strictOper_lt.order _
    (strictOper_lt.separated c gsf.ltmap) keyed.ltKeyed
  have rtAdded := fun isRangeEQ => @keyed_add Const _ _ c queryid isRangeEQ strictOper_gt.order _
    (strictOper_gt.separated c gsf.rtmap) keyed.rtKeyed
  cases op with
  | lt =>
    rw [addQueryToGsf, assertOrdered_of_keyed strictOper_lt.order (ltAdded false)]
    exact ⟨_, rfl, ltAdded false, keyed.rtKeyed⟩
  | le =>
    rw [addQueryToGsf, assertOrdered_of_keyed strictOper_lt.order (ltAdded true)]
    exact ⟨_, rfl, ltAdded true, keyed.rtKeyed⟩
  | gt =>
    rw [addQueryToGsf, assertOrdered_of_keyed strictOper_gt.order (rtAdded false)]
    exact ⟨_, rfl, keyed.ltKeyed, rtAdded false⟩
  | ge =>
    rw [addQueryToGsf, assertOrdered_of_keyed strictOper_gt.order (rtAdded true)]
    exact ⟨_, rfl, keyed.ltKeyed, rtAdded true⟩
  | eq | ne => exact ⟨_, rfl, keyed.ltKeyed, keyed.rtKeyed⟩

theorem processRemoveQueryGSF_keyed (queryid : Nat) (keyed : TreesKeyed gsf) :
    ∃ next, processRemoveQueryGSF queryid gsf = .ok next ∧ TreesKeyed next ∧
      next.nodes = afterRemoval queryid gsf.nodes ∧
      ofOthers queryid next.predicates = ofOthers queryid gsf.predicates := by
  have ltKept : Keyed ltOper (removeQueryConstTree queryid gsf.ltmap) :=
    keyed_removeQuery keyed.ltKeyed
  have rtKept : Keyed gtOper (removeQueryConstTree queryid gsf.rtmap) :=
    keyed_removeQuery keyed.rtKeyed
  unfold processRemoveQueryGSF
  rw [assertOrdered_of_keyed strictOper_lt.order ltKept,
    assertOrdered_of_keyed strictOper_gt.order rtKept]
  refine ⟨_, rfl, ⟨ltKept, rtKept⟩, ?_, ?_⟩
  · simp [GSFilter.nodes, inorder_removeQuery, removeQueryConstList_eq, afterRemoval]
  · simp [GSFilter.predicates, ofOthers_append, ofOthers_removeQuery, removeQueryConstList_eq,
      ofOthers_afterRemoval]

theorem run_keyed (ops : List (GSFilterOp Const)) :
    ∃ gsf, gsfMachine.run (makeGSFilter Const) ops = ([], .ok gsf) ∧ TreesKeyed gsf := by
  have step : ∀ (gsf : GSFilter Const) (op : GSFilterOp Const), TreesKeyed gsf →
      ∃ next, gsfMachine.step gsf op = ([], .ok next) ∧ TreesKeyed next := by
    intro gsf op keyed
    cases op with
    | insert p =>
      obtain ⟨next, added, keyedNext⟩ := addQueryToGsf_keyed p keyed
      exact ⟨next, by simp [gsfMachine, gsfStep, added], keyedNext⟩
    | removeQuery queryid =>
      obtain ⟨next, removed, keyedNext, -⟩ := processRemoveQueryGSF_keyed queryid keyed
      exact ⟨next, by simp [gsfMachine, gsfStep, removed], keyedNext⟩
  obtain ⟨outs, gsf, ran, silent, keyed⟩ := @Machine.run_always _ _ _ _ gsfMachine
    (fun _ outs gsf => outs = [] ∧ TreesKeyed gsf)
    (by
      rintro ops op outs gsf ⟨rfl, keyed⟩
      obtain ⟨next, stepped, keyedNext⟩ := step gsf op keyed
      exact ⟨[], next, stepped, rfl, keyedNext⟩)
    (makeGSFilter Const) ⟨rfl, BinTree.ordered_leaf _, BinTree.ordered_leaf _⟩ ops
  exact ⟨gsf, by rw [ran, silent], keyed⟩

/-- Whatever was inserted and removed before, the removal of a query leaves the predicates of all
others as they are; the query itself is gone from all nodes just when no list of a node names it
twice. -/
theorem query_removed_iff (ops : List (GSFilterOp Const)) (queryid : Nat) :
    ∃ gsf next, gsfMachine.run (makeGSFilter Const) ops = ([], .ok gsf) ∧
      processRemoveQueryGSF queryid gsf = .ok next ∧
      ofOthers queryid next.predicates = ofOthers queryid gsf.predicates ∧
      ((∀ n ∈ next.nodes, ¬ n.Mentions queryid) ↔ ∀ n ∈ gsf.nodes, n.NamesOnce queryid) := by
  obtain ⟨gsf, ran, keyed⟩ := @run_keyed Const _ ops
  obtain ⟨next, removed, -, nodes, others⟩ := processRemoveQueryGSF_keyed queryid keyed
  refine ⟨gsf, next, ran, removed, others, ?_⟩
  rw [nodes]
  exact unmentioned_afterRemoval queryid gsf.nodes

/-- A condition that is written twice leaves the query in the tree. -/
theorem repeated_predicate_stays :
    ∃ gsf next n, gsfMachine.run (makeGSFilter Int)
        [.insert ⟨1, .lt, 5⟩, .insert ⟨1, .lt, 5⟩] = ([], .ok gsf) ∧
      processRemoveQueryGSF 1 gsf = .ok next ∧ n ∈ next.nodes ∧ n.Mentions 1 :=
  ⟨_, _, ⟨5, [1], []⟩, rfl, rfl, by decide, .inl (by decide)⟩

end Runs

end TelegraphCQ.Filter
