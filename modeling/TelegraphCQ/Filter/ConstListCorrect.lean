import Mathlib.Data.Finset.Lattice.Basic
import TelegraphCQ.Filter.ConstTreeCorrect

/-!
# The lists of a grouped filter

The equality and inequality predicates of a grouped filter are kept in two lists, in
which predicates on the same constant should share an entry.  The entry is looked up
with the operator of the predicate itself.  For `=` this finds the entry of the
constant.  For `<>` it finds an entry of another constant, if there is any, and the
predicate is kept with that constant: all inequalities of a filter are checked against
the constant of the first one.
-/

namespace TelegraphCQ.Filter

open Foundation List

section Lists

variable {Const : Type}

variable {queryid : Nat} {preds : List (Predicate Const)} {c : Const}

theorem mem_checkConstList {Value : Type} {oper : Value → Const → Bool} {value : Value}
    {l : List (ConstNode Const)} {failed : Finset Nat} :
    queryid ∈ checkConstList oper value l failed ↔
      queryid ∈ failed ∨ ∃ n ∈ l, oper value n.c = false ∧ queryid ∈ n.queries := by
  unfold checkConstList
  induction l generalizing failed with
  | nil => simp
  | cons n l ih =>
    rw [foldl_cons, ih, exists_mem_cons_iff]
    cases passes : oper value n.c with
    | true => simp
    | false => simp [or_left_comm, or_assoc]

def Entered (l : List (ConstNode Const)) (c : Const) (queryid : Nat) : Prop :=
  ∃ n ∈ l, n.c = c ∧ queryid ∈ n.queries

theorem entered_addToList (oper : Const → Const → Bool) (c : Const) (queryid : Nat)
    (l : List (ConstNode Const)) :
    ∃ c', (oper c' c = true ∧ (∃ n ∈ l, n.c = c') ∨ c' = c ∧ ∀ n ∈ l, oper n.c c = false) ∧
      (∀ d, (∃ n ∈ addToList oper c queryid l, n.c = d) ↔ d = c' ∨ ∃ n ∈ l, n.c = d) ∧
      ∀ d q, Entered (addToList oper c queryid l) d q ↔ (d = c' ∧ q = queryid) ∨ Entered l d q := by
  unfold addToList
  cases found : l.findIdx? fun n => oper n.c c with
  | none =>
    have others : ∀ n ∈ l, oper n.c c = false := by
      simpa using findIdx?_eq_none_iff.mp found
    refine ⟨c, .inr ⟨rfl, others⟩, fun d => ?_, fun d q => ?_⟩
    · simp [makeConstNode, ConstNode.addQuery, eq_comm]
    · simp [Entered, makeConstNode, ConstNode.addQuery, eq_comm]
  | some i =>
    obtain ⟨bound, accepts, -⟩ := findIdx?_eq_some_iff_getElem.mp found
    have changed := modify_eq_take_cons_drop (f := ConstNode.addQuery queryid false) bound
    have whole : l = l.take i ++ l[i] :: l.drop (i + 1) := by
      rw [cons_getElem_drop_succ, take_append_drop]
    have middle : ∀ (m : ConstNode Const) (P : ConstNode Const → Prop),
        (∃ n ∈ l.take i ++ m :: l.drop (i + 1), P n) ↔
          P m ∨ ∃ n ∈ l.take i ++ l.drop (i + 1), P n := by
      intro m P
      simp only [mem_append, mem_cons, or_and_right, exists_or, exists_eq_left]
      exact or_left_comm
    have inside : ∀ P : ConstNode Const → Prop,
        (∃ n ∈ l, P n) ↔ P l[i] ∨ ∃ n ∈ l.take i ++ l.drop (i + 1), P n := by
      intro P
      rw [← middle, ← whole]
    refine ⟨l[i].c, .inl ⟨accepts, l[i], getElem_mem bound, rfl⟩, fun d => ?_, fun d q => ?_⟩
    · simp only [changed]
      rw [middle, inside, c_addQuery]
      tauto
    · simp only [Entered, changed]
      rw [middle, inside, c_addQuery]
      simp only [ConstNode.addQuery, Bool.false_eq_true, if_false, mem_cons]
      tauto

def firstNe (preds : List (Predicate Const)) : Option Const :=
  (preds.find? fun p => p.oper = .ne).map Predicate.c

def Predicate.kept (preds : List (Predicate Const)) (p : Predicate Const) : Predicate Const :=
  if p.oper = .ne then { p with c := (firstNe preds).getD p.c } else p

theorem firstNe_append (preds : List (Predicate Const)) (p : Predicate Const) :
    firstNe (preds ++ [p]) = (firstNe preds).or (if p.oper = .ne then some p.c else none) := by
  unfold firstNe
  rw [find?_append]
  cases preds.find? fun p => p.oper = .ne with
  | some first => rfl
  | none => by_cases isNe : p.oper = .ne <;> simp [isNe]

theorem mem_of_firstNe (first : firstNe preds = some c) : ∃ queryid, ⟨queryid, .ne, c⟩ ∈ preds := by
  unfold firstNe at first
  obtain ⟨⟨queryid, op, d⟩, found, rfl⟩ := Option.map_eq_some_iff.mp first
  have isNe : op = .ne := by simpa using find?_some found
  exact ⟨queryid, isNe ▸ mem_of_find?_eq_some found⟩

theorem firstNe_isSome (member : ⟨queryid, .ne, c⟩ ∈ preds) :
    ∃ first, firstNe preds = some first := by
  unfold firstNe
  cases found : preds.find? fun p => p.oper = .ne with
  | some first => exact ⟨_, rfl⟩
  | none => simpa using find?_eq_none.mp found _ member

theorem kept_of_ne {p : Predicate Const} (isNe : p.oper = .ne) (first : firstNe preds = some c) :
    p.kept preds = ⟨p.queryid, .ne, c⟩ := by
  rw [Predicate.kept, if_pos isNe, first, ← isNe]
  rfl

end Lists

section Filter

variable {Const : Type} [LinearOrder Const]

structure FilterHolds (gsf : GSFilter Const) (preds : List (Predicate Const)) : Prop where
  trees : TreesHold gsf preds
  eqHeld : ∀ c queryid, Entered gsf.eqmap c queryid ↔ ⟨queryid, .eq, c⟩ ∈ preds
  neConst : ∀ n ∈ gsf.nemap, firstNe preds = some n.c
  neHeld : ∀ queryid, (∃ c, Entered gsf.nemap c queryid) ↔ ∃ c, ⟨queryid, .ne, c⟩ ∈ preds

def ListFails (oper : Const → Const → Bool) (l : List (ConstNode Const)) (value : Option Const)
    (queryid : Nat) : Prop :=
  ∃ n ∈ l, onValue oper value n.c = false ∧ queryid ∈ n.queries

variable {gsf : GSFilter Const} {preds : List (Predicate Const)} {queryid : Nat} {value : Const}

theorem eqmap_fails (held : FilterHolds gsf preds) (value : Option Const) (queryid : Nat) :
    ListFails eqOper gsf.eqmap value queryid ↔
      ∃ p ∈ preds, p.oper = .eq ∧ p.queryid = queryid ∧ ¬ p.Holds value := by
  have fails_iff : ∀ c, onValue eqOper value c = false ↔
      ¬ (⟨queryid, .eq, c⟩ : Predicate Const).Holds value := by
    intro c
    cases value <;> simp [Predicate.Holds, OptrType.Rel, onValue, eqOper]
  constructor
  · rintro ⟨n, member, fails, marked⟩
    have stored := (held.eqHeld n.c queryid).mp ⟨n, member, rfl, marked⟩
    exact ⟨_, stored, rfl, rfl, (fails_iff n.c).mp fails⟩
  · rintro ⟨⟨q, op, c⟩, member, rfl, rfl, fails⟩
    obtain ⟨n, inList, rfl, marked⟩ := (held.eqHeld c q).mpr member
    exact ⟨n, inList, (fails_iff n.c).mpr fails, marked⟩

theorem nemap_fails (held : FilterHolds gsf preds) (value : Option Const) (queryid : Nat) :
    ListFails neOper gsf.nemap value queryid ↔
      ∃ p ∈ preds, p.oper = .ne ∧ p.queryid = queryid ∧ ¬ (p.kept preds).Holds value := by
  have fails_iff : ∀ c, onValue neOper value c = false ↔
      ¬ (⟨queryid, .ne, c⟩ : Predicate Const).Holds value := by
    intro c
    cases value <;> simp [Predicate.Holds, OptrType.Rel, onValue, neOper]
  constructor
  · rintro ⟨n, member, fails, marked⟩
    obtain ⟨c, stored⟩ := (held.neHeld queryid).mp ⟨n.c, n, member, rfl, marked⟩
    refine ⟨_, stored, rfl, rfl, ?_⟩
    rw [kept_of_ne rfl (held.neConst n member)]
    exact (fails_iff n.c).mp fails
  · rintro ⟨⟨q, op, c⟩, member, rfl, rfl, fails⟩
    obtain ⟨-, n, inList, -, marked⟩ := (held.neHeld q).mpr ⟨c, member⟩
    rw [kept_of_ne rfl (held.neConst n inList)] at fails
    exact ⟨n, inList, (fails_iff n.c).mpr fails, marked⟩

theorem mem_eqFailed (held : FilterHolds gsf preds) (value : Option Const) (queryid : Nat) :
    queryid ∈ eqFailed gsf value ↔ ∃ p ∈ preds, p.oper.isRange = false ∧ p.queryid = queryid ∧
        ¬ (p.kept preds).Holds value := by
  have lists : queryid ∈ eqFailed gsf value ↔
      ListFails eqOper gsf.eqmap value queryid ∨ ListFails neOper gsf.nemap value queryid := by
    rw [eqFailed, mem_checkConstList, mem_checkConstList]
    simp [ListFails]
  rw [lists, eqmap_fails held, nemap_fails held]
  constructor
  · rintro (⟨p, member, isEq, same, fails⟩ | ⟨p, member, isNe, same, fails⟩)
    · have kept : p.kept preds = p := if_neg (by simp [isEq])
      exact ⟨p, member, by rw [isEq]; rfl, same, by rwa [kept]⟩
    · exact ⟨p, member, by rw [isNe]; rfl, same, fails⟩
  · rintro ⟨p, member, notRange, same, fails⟩
    cases op : p.oper with
    | lt | le | gt | ge => simp [op, OptrType.isRange, OptrType.inLtmap,
      OptrType.inRtmap] at notRange
    | eq =>
      have kept : p.kept preds = p := if_neg (by simp [op])
      exact .inl ⟨p, member, op, same, by rwa [kept] at fails⟩
    | ne => exact .inr ⟨p, member, op, same, fails⟩

/-! ## Adding a predicate -/

theorem TreesHold.perm {other : List (Predicate Const)} (held : TreesHold gsf preds)
    (perm : preds.Perm other) : TreesHold gsf other where
  ltKeyed := held.ltKeyed
  rtKeyed := held.rtKeyed
  ltHeld := held.ltHeld.trans (perm.filter _)
  rtHeld := held.rtHeld.trans (perm.filter _)

theorem lists_of_addQueryToGsf {next : GSFilter Const} {p : Predicate Const}
    (added : addQueryToGsf p gsf = .ok next) :
    next.eqmap = (if p.oper = .eq then addToList eqOper p.c p.queryid gsf.eqmap
      else gsf.eqmap) ∧ next.nemap = (if p.oper = .ne then addToList neOper p.c p.queryid gsf.nemap
      else gsf.nemap) := by
  obtain ⟨queryid, op, c⟩ := p
  cases op with
  | lt | le | gt | ge =>
    simp only [addQueryToGsf, assertOrdered] at added
    split_ifs at added
    · cases added
      exact ⟨rfl, rfl⟩
    · cases added
  | eq | ne =>
    cases added
    exact ⟨rfl, rfl⟩

theorem addQueryToGsf_holds (p : Predicate Const) (held : FilterHolds gsf preds) :
    ∃ next, addQueryToGsf p gsf = .ok next ∧ FilterHolds next (preds ++ [p]) := by
  obtain ⟨next, added, trees⟩ := addQueryToGsf_spec p held.trees
  obtain ⟨eqs, nes⟩ := lists_of_addQueryToGsf added
  obtain ⟨queryid, op, c⟩ := p
  refine ⟨next, added, ⟨trees.perm (perm_append_singleton _ _).symm, ?_, ?_, ?_⟩⟩
  · intro d q
    rw [eqs, mem_append, mem_singleton, Predicate.mk.injEq]
    by_cases isEq : op = .eq
    · obtain ⟨c', place, -, entered⟩ := entered_addToList eqOper c queryid gsf.eqmap
      have same : c' = c := by
        rcases place with ⟨accepted, -⟩ | ⟨same, -⟩
        · simpa [eqOper] using accepted
        · exact same
      rw [if_pos isEq, entered, held.eqHeld, same, isEq]
      tauto
    · rw [if_neg isEq, held.eqHeld]
      simp [Ne.symm isEq]
  · intro n member
    rw [nes] at member
    rw [firstNe_append]
    by_cases isNe : op = .ne
    · obtain ⟨c', place, consts, -⟩ := entered_addToList neOper c queryid gsf.nemap
      rw [if_pos isNe] at member
      rcases (consts n.c).mp ⟨n, member, rfl⟩ with isNew | ⟨m, old, same⟩
      · rcases place with ⟨-, m, old, same⟩ | ⟨same, others⟩
        · rw [held.neConst m old, same, isNew]
          rfl
        · -- an empty list gets its first constant; a full one has this constant only
          cases first : firstNe preds with
          | none => simp [isNe, isNew, same]
          | some d =>
            obtain ⟨m, old⟩ : ∃ m, m ∈ gsf.nemap := by
              obtain ⟨q, isFirst⟩ := mem_of_firstNe first
              obtain ⟨-, m, old, -⟩ := (held.neHeld q).mpr ⟨d, isFirst⟩
              exact ⟨m, old⟩
            have constant := held.neConst m old
            have equal : m.c = c := by simpa [neOper] using others m old
            rw [first] at constant
            simp [constant, equal, isNew, same]
      · rw [held.neConst m old, same]
        rfl
    · rw [if_neg isNe] at member
      rw [held.neConst n member]
      rfl
  · intro q
    rw [nes]
    by_cases isNe : op = .ne
    · obtain ⟨c', -, -, entered⟩ := entered_addToList neOper c queryid gsf.nemap
      have old := held.neHeld q
      rw [if_pos isNe]
      simp only [entered, exists_or, mem_append, mem_singleton, Predicate.mk.injEq,
        isNe, true_and, old]
      simp
      tauto
    · rw [if_neg isNe, held.neHeld q]
      simp [Ne.symm isNe]

/-! ## Runs -/

theorem makeGSFilter_holds : FilterHolds (makeGSFilter Const) [] where
  trees := ⟨BinTree.ordered_leaf _, BinTree.ordered_leaf _, .refl _, .refl _⟩
  eqHeld := by simp [Entered, makeGSFilter]
  neConst := by simp [makeGSFilter]
  neHeld := by simp [Entered, makeGSFilter]

theorem run_inserts {earlier : List (Predicate Const)} (held : FilterHolds gsf earlier)
    (preds : List (Predicate Const)) :
    ∃ next, gsfMachine.run gsf (preds.map .insert) = ([], .ok next) ∧
      FilterHolds next (earlier ++ preds) := by
  induction preds generalizing gsf earlier with
  | nil => exact ⟨gsf, rfl, by simpa using held⟩
  | cons p preds ih =>
    obtain ⟨middle, added, heldMiddle⟩ := addQueryToGsf_holds p held
    obtain ⟨next, ran, heldNext⟩ := ih heldMiddle
    refine ⟨next, ?_, by simpa using heldNext⟩
    have step : gsfMachine.step gsf (.insert p) = ([], .ok middle) := by
      simp [gsfMachine, gsfStep, added]
    rw [map_cons, gsfMachine.run_cons_ok step, ran]
    rfl

/-- No inequality is misread: among the values that a query with an inequality lets
through its equalities, its own constants and the one kept for it exclude the same. -/
def InequalitiesAgree (preds : List (Predicate Const)) : Prop :=
  ∀ queryid value, (∃ c, ⟨queryid, .ne, c⟩ ∈ preds) →
    (∀ c, ⟨queryid, .eq, c⟩ ∈ preds → c = value) →
    (⟨queryid, .ne, value⟩ ∈ preds ↔ firstNe preds = some value)

def FailsLists (reading : Predicate Const → Predicate Const) (preds : List (Predicate Const))
    (value : Option Const) (queryid : Nat) : Prop :=
  ∃ p ∈ preds, p.oper.isRange = false ∧ p.queryid = queryid ∧ ¬ (reading p).Holds value

theorem failsLists_none {reading : Predicate Const → Predicate Const} :
    FailsLists reading preds none queryid ↔
      ∃ p ∈ preds, p.oper.isRange = false ∧ p.queryid = queryid := by
  simp [FailsLists, Predicate.Holds]

theorem failsLists_own : FailsLists id preds (some value) queryid ↔
      (∃ c, ⟨queryid, .eq, c⟩ ∈ preds ∧ c ≠ value) ∨ ⟨queryid, .ne, value⟩ ∈ preds := by
  constructor
  · rintro ⟨⟨q, op, c⟩, member, notRange, rfl, fails⟩
    cases op with
    | lt | le | gt | ge => cases notRange
    | eq => exact .inl ⟨c, member, fun same => fails same.symm⟩
    | ne =>
      have same : value = c := not_not.mp fails
      exact .inr (same ▸ member)
  · rintro (⟨c, member, differs⟩ | member)
    · exact ⟨_, member, rfl, rfl, fun same => differs same.symm⟩
    · exact ⟨_, member, rfl, rfl, fun differs => differs rfl⟩

theorem failsLists_kept : FailsLists (Predicate.kept preds) preds (some value) queryid ↔
      (∃ c, ⟨queryid, .eq, c⟩ ∈ preds ∧ c ≠ value) ∨
        (∃ c, ⟨queryid, .ne, c⟩ ∈ preds) ∧ firstNe preds = some value := by
  constructor
  · rintro ⟨⟨q, op, c⟩, member, notRange, rfl, fails⟩
    cases op with
    | lt | le | gt | ge => cases notRange
    | eq => exact .inl ⟨c, member, fun same => fails same.symm⟩
    | ne =>
      obtain ⟨first, isFirst⟩ := firstNe_isSome member
      rw [kept_of_ne rfl isFirst] at fails
      have same : value = first := not_not.mp fails
      exact .inr ⟨⟨c, member⟩, same ▸ isFirst⟩
  · rintro (⟨c, member, differs⟩ | ⟨⟨c, member⟩, isFirst⟩)
    · exact ⟨_, member, rfl, rfl, fun same => differs same.symm⟩
    · refine ⟨_, member, rfl, rfl, ?_⟩
      rw [kept_of_ne rfl isFirst]
      exact fun differs => differs rfl

theorem failsLists_kept_iff (preds : List (Predicate Const)) :
    (∀ value queryid, FailsLists (Predicate.kept preds) preds value queryid ↔
      FailsLists id preds value queryid) ↔ InequalitiesAgree preds := by
  constructor
  · intro exact queryid value hasNe equalities
    have noEq : ¬ ∃ c, ⟨queryid, .eq, c⟩ ∈ preds ∧ c ≠ value := by
      rintro ⟨c, member, differs⟩
      exact differs (equalities c member)
    have atValue := exact (some value) queryid
    rw [failsLists_kept, failsLists_own] at atValue
    simpa [noEq, hasNe] using atValue.symm
  · intro agree value queryid
    cases value with
    | none => rw [failsLists_none, failsLists_none]
    | some value =>
      rw [failsLists_kept, failsLists_own]
      by_cases someEq : ∃ c, ⟨queryid, .eq, c⟩ ∈ preds ∧ c ≠ value
      · simp [someEq]
      · have equalities : ∀ c, ⟨queryid, .eq, c⟩ ∈ preds → c = value := by
          intro c member
          by_contra differs
          exact someEq ⟨c, member, differs⟩
        simp only [someEq, false_or]
        constructor
        · rintro ⟨hasNe, isFirst⟩
          exact (agree queryid value hasNe equalities).mpr isFirst
        · intro member
          exact ⟨⟨value, member⟩, (agree queryid value ⟨value, member⟩ equalities).mp member⟩

/-- The lists mark the queries whose equalities and inequalities a value fails, for every
value, exactly when no inequality is misread. -/
theorem gsf_lists_mark_failing_iff (preds : List (Predicate Const)) :
    ∃ gsf, gsfMachine.run (makeGSFilter Const) (preds.map .insert) = ([], .ok gsf) ∧
      ((∀ value queryid, queryid ∈ eqFailed gsf value ↔
        ∃ p ∈ preds, p.oper.isRange = false ∧ p.queryid = queryid ∧ ¬ p.Holds value) ↔
          InequalitiesAgree preds) := by
  obtain ⟨gsf, ran, held⟩ := run_inserts makeGSFilter_holds preds
  refine ⟨gsf, ran, ?_⟩
  rw [← failsLists_kept_iff]
  constructor
  · intro exact value queryid
    exact (mem_eqFailed held value queryid).symm.trans (exact value queryid)
  · intro same value queryid
    exact (mem_eqFailed held value queryid).trans (same value queryid)

/-- The predicates `<> 1` of one query and `<> 2` of another: at 2 nothing is marked. -/
theorem second_inequality_misread :
    ∃ gsf, gsfMachine.run (makeGSFilter Int)
        [.insert ⟨1, .ne, 1⟩, .insert ⟨2, .ne, 2⟩] = ([], .ok gsf) ∧
      2 ∉ eqFailed gsf (some 2) ∧ 2 ∈ eqFailed gsf (some 1) := by
  refine ⟨_, rfl, ?_, ?_⟩
  · decide
  · decide

end Filter

end TelegraphCQ.Filter
