import TelegraphCQ.Eddy.Renumbering

/-!
# Renumbering is a substitution

Changing a number in an expression is the action of a renaming with one pair, so that a pass
over the sources acts as its pairs one by one.  Both passes together then act as the
substitution of the new number for the old one in every source at once, unless an expression
has a temporary number in it.

Two kinds of plans are not renumbered so.  `adjust_plan_node` knows three of the five nodes
that an aggregation plan can have and stops the backend at the others.  The target list of an
`FAgg` itself is not changed.
-/

namespace TelegraphCQ.Eddy.Renumbering

open Foundation Renamable List

/-! ## Expressions -/

/-- A Var that gets a new number forgets the one it has had before planning. -/
def Var.renameAt (ρ : Renaming Nat) (sublevelsUp : Nat) (v : Var) : Var :=
  if v.varlevelsup = sublevelsUp then
    match ρ v.varno with
    | some new => { v with varno := new, varnoold := new }
    | none => { v with varnoold := ρ.apply v.varnoold }
  else v

def atTop (sublevelsUp : Nat) (ρ : Renaming Nat) (rtindex : Nat) : Nat :=
  if sublevelsUp = 0 then ρ.apply rtindex else rtindex

def Expr.renameAt (ρ : Renaming Nat) : Nat → Expr → Expr
  | _, .nil => .nil
  | sublevelsUp, .var v => .var (v.renameAt ρ sublevelsUp)
  | sublevelsUp, .rangeTblRef rtindex => .rangeTblRef (atTop sublevelsUp ρ rtindex)
  | sublevelsUp, .joinExpr rtindex args =>
    .joinExpr (atTop sublevelsUp ρ rtindex) (args.renameAt ρ sublevelsUp)
  | sublevelsUp, .query resultRelation rowMarks parts =>
    .query resultRelation rowMarks (parts.renameAt ρ (sublevelsUp + 1))
  | sublevelsUp, .node tag args => .node tag (args.renameAt ρ sublevelsUp)
  | sublevelsUp, .list head tail =>
    .list (head.renameAt ρ sublevelsUp) (tail.renameAt ρ sublevelsUp)

def Expr.rename (ρ : Renaming Nat) : Expr → Expr
  | .query resultRelation rowMarks parts =>
    .query (ρ.apply resultRelation) (rowMarks.map ρ.apply) (parts.renameAt ρ 0)
  | expr => expr.renameAt ρ 0

variable {ρ σ τ κ : Renaming Nat} {pairs : List (Nat × Nat)} {modules : List (Option PlanModule)}
  {number : Nat}

theorem Var.renameAt_plain {sublevelsUp : Nat} {v : Var} (level : v.varlevelsup = sublevelsUp)
    (plain : v.varnoold = v.varno ∨ ρ v.varno = none) : v.renameAt ρ sublevelsUp =
      { v with varno := ρ.apply v.varno, varnoold := ρ.apply v.varnoold } := by
  unfold Var.renameAt
  rw [if_pos level]
  cases renamed : ρ v.varno with
  | none => rw [Renaming.apply_of_none renamed]
  | some new =>
    rcases plain with same | kept
    · rw [same, Renaming.apply_of_some renamed]
    · rw [renamed] at kept
      cases kept

theorem changeVar_eq (rtIndex newIndex sublevelsUp : Nat) (v : Var) :
    changeVar rtIndex newIndex sublevelsUp v =
      v.renameAt (.single rtIndex newIndex) sublevelsUp := by
  unfold changeVar Var.renameAt Renaming.single Renaming.apply
  by_cases level : v.varlevelsup = sublevelsUp
  · subst level
    by_cases current : v.varno = rtIndex
    · simp [current]
    · by_cases old : v.varnoold = rtIndex
      · simp [current, old]
      · simp [current, old]
  · simp [level]

theorem changeVarNodesWalker_eq (rtIndex newIndex sublevelsUp : Nat) (expr : Expr) :
    changeVarNodesWalker rtIndex newIndex sublevelsUp expr =
      expr.renameAt (.single rtIndex newIndex) sublevelsUp := by
  have number (sublevelsUp rtindex : Nat) :
      (if sublevelsUp = 0 ∧ rtindex = rtIndex then newIndex else rtindex) =
        atTop sublevelsUp (.single rtIndex newIndex) rtindex := by
    unfold atTop
    rw [Renaming.apply_single]
    split_ifs <;> first | rfl | omega
  induction expr generalizing sublevelsUp with
  | nil => rfl
  | var v => rw [changeVarNodesWalker, changeVar_eq, Expr.renameAt]
  | rangeTblRef rtindex => rw [changeVarNodesWalker, number, Expr.renameAt]
  | joinExpr rtindex args ih => rw [changeVarNodesWalker, number, ih, Expr.renameAt]
  | query resultRelation rowMarks parts ih => rw [changeVarNodesWalker, ih, Expr.renameAt]
  | node tag args ih => rw [changeVarNodesWalker, ih, Expr.renameAt]
  | list head tail headIh tailIh => rw [changeVarNodesWalker, headIh, tailIh, Expr.renameAt]

theorem Var.renameAt_identity (sublevelsUp : Nat) (v : Var) :
    v.renameAt .identity sublevelsUp = v := by
  unfold Var.renameAt
  split_ifs <;> rfl

theorem Var.renameAt_andThen (ρ σ : Renaming Nat) (sublevelsUp : Nat) (v : Var) :
    v.renameAt (ρ.andThen σ) sublevelsUp = (v.renameAt ρ sublevelsUp).renameAt σ sublevelsUp := by
  by_cases level : v.varlevelsup = sublevelsUp
  · cases renamed : ρ v.varno with
    | none =>
      simp only [Var.renameAt, level, if_true, renamed, Renaming.andThen_of_none renamed,
        Renaming.apply_andThen]
    | some new =>
      simp only [Var.renameAt, level, if_true, renamed, Renaming.andThen_of_some renamed]
      cases again : σ new with
      | none => rw [Renaming.apply_of_none again]
      | some last => rw [Renaming.apply_of_some again]
  · simp only [Var.renameAt, level, if_false]

theorem Var.renameAt_eq_iff (extend : ρ.Extends σ) (sublevelsUp : Nat) (v : Var) :
    v.renameAt ρ sublevelsUp = v.renameAt σ sublevelsUp ↔
      ∀ i ∈ (Expr.var v).readsAt σ sublevelsUp, ρ i = σ i := by
  by_cases level : v.varlevelsup = sublevelsUp
  · by_cases same : ρ v.varno = σ v.varno
    · cases kept : σ v.varno with
      | none =>
        have old := extend.apply_eq_iff v.varnoold
        simp [Var.renameAt, Expr.readsAt, level, same, kept, old]
      | some new => simp [Var.renameAt, Expr.readsAt, level, same, kept]
    · obtain ⟨kept, moved⟩ := extend v.varno same
      cases renamed : ρ v.varno with
      | none => exact absurd (renamed.trans kept.symm) same
      | some new =>
        rw [Renaming.apply_of_some renamed] at moved
        simp [Var.renameAt, Expr.readsAt, level, kept, renamed, moved]
  · simp [Var.renameAt, Expr.readsAt, level]

theorem atTop_andThen (sublevelsUp : Nat) (ρ σ : Renaming Nat) (rtindex : Nat) :
    atTop sublevelsUp (ρ.andThen σ) rtindex =
      atTop sublevelsUp σ (atTop sublevelsUp ρ rtindex) := by
  unfold atTop
  split_ifs
  · exact Renaming.apply_andThen ρ σ rtindex
  · rfl

theorem atTop_eq_iff (extend : ρ.Extends σ) (sublevelsUp rtindex : Nat) :
    atTop sublevelsUp ρ rtindex = atTop sublevelsUp σ rtindex ↔
      ∀ i ∈ if sublevelsUp = 0 then [rtindex] else [], ρ i = σ i := by
  unfold atTop
  split_ifs
  · rw [extend.apply_eq_iff, forall_mem_singleton]
  · simp

theorem Expr.renameAt_identity (sublevelsUp : Nat) (expr : Expr) :
    expr.renameAt .identity sublevelsUp = expr := by
  induction expr generalizing sublevelsUp with
  | nil => rfl
  | var v => rw [Expr.renameAt, Var.renameAt_identity]
  | rangeTblRef rtindex => simp [Expr.renameAt, atTop]
  | joinExpr rtindex args ih => simp [Expr.renameAt, atTop, ih]
  | query resultRelation rowMarks parts ih => rw [Expr.renameAt, ih]
  | node tag args ih => rw [Expr.renameAt, ih]
  | list head tail headIh tailIh => rw [Expr.renameAt, headIh, tailIh]

theorem Expr.renameAt_andThen (ρ σ : Renaming Nat) (sublevelsUp : Nat) (expr : Expr) :
    expr.renameAt (ρ.andThen σ) sublevelsUp =
      (expr.renameAt ρ sublevelsUp).renameAt σ sublevelsUp := by
  induction expr generalizing sublevelsUp with
  | nil => rfl
  | var v => simp only [Expr.renameAt, Var.renameAt_andThen]
  | rangeTblRef rtindex => simp only [Expr.renameAt, atTop_andThen]
  | joinExpr rtindex args ih => simp only [Expr.renameAt, atTop_andThen, ih]
  | query resultRelation rowMarks parts ih => simp only [Expr.renameAt, ih]
  | node tag args ih => simp only [Expr.renameAt, ih]
  | list head tail headIh tailIh => simp only [Expr.renameAt, headIh, tailIh]

theorem Expr.renameAt_eq_iff (extend : ρ.Extends σ) (sublevelsUp : Nat) (expr : Expr) :
    expr.renameAt ρ sublevelsUp = expr.renameAt σ sublevelsUp ↔
      ∀ i ∈ expr.readsAt σ sublevelsUp, ρ i = σ i := by
  induction expr generalizing sublevelsUp with
  | nil => simp [Expr.renameAt, Expr.readsAt]
  | var v =>
    rw [Expr.renameAt, Expr.renameAt, Expr.var.injEq]
    exact Var.renameAt_eq_iff extend sublevelsUp v
  | rangeTblRef rtindex =>
    rw [Expr.renameAt, Expr.renameAt, Expr.rangeTblRef.injEq]
    exact atTop_eq_iff extend sublevelsUp rtindex
  | joinExpr rtindex args ih =>
    rw [Expr.renameAt, Expr.renameAt, Expr.joinExpr.injEq, atTop_eq_iff extend, ih,
      Expr.readsAt, forall_mem_append]
  | query resultRelation rowMarks parts ih =>
    rw [Expr.renameAt, Expr.renameAt, Expr.query.injEq, ih, Expr.readsAt]
    exact ⟨fun same => same.2.2, fun same => ⟨rfl, rfl, same⟩⟩
  | node tag args ih =>
    rw [Expr.renameAt, Expr.renameAt, Expr.node.injEq, ih, Expr.readsAt]
    exact ⟨And.right, fun same => ⟨rfl, same⟩⟩
  | list head tail headIh tailIh =>
    rw [Expr.renameAt, Expr.renameAt, Expr.list.injEq, headIh, tailIh, Expr.readsAt,
      forall_mem_append]

instance : Renamable Nat Expr where
  rename := Expr.rename
  reads := Expr.reads
  rename_identity expr := by
    cases expr with
    | query resultRelation rowMarks parts =>
      have marks : rowMarks.map Renaming.identity.apply = rowMarks := rowMarks.map_id
      rw [Expr.rename, Expr.renameAt_identity, marks, Renaming.apply_identity]
    | _ => exact Expr.renameAt_identity 0 _
  rename_andThen ρ σ expr := by
    cases expr with
    | query resultRelation rowMarks parts =>
      have marks := rename_andThen ρ σ rowMarks
      simp only [Expr.rename, Expr.renameAt_andThen, Renaming.apply_andThen]
      exact congrArg (Expr.query _ · _) marks
    | _ => exact Expr.renameAt_andThen ρ σ 0 _
  rename_eq_iff {ρ σ} extend expr := by
    cases expr with
    | query resultRelation rowMarks parts =>
      have marks : rowMarks.map ρ.apply = rowMarks.map σ.apply ↔ ∀ i ∈ rowMarks, ρ i = σ i := by
        rw [map_inj_left]
        exact forall₂_congr fun i _ => extend.apply_eq_iff i
      rw [Expr.rename, Expr.rename, Expr.query.injEq, extend.apply_eq_iff, marks,
        Expr.renameAt_eq_iff extend, Expr.reads, cons_append, forall_mem_cons,
        forall_mem_append]
    | _ => exact Expr.renameAt_eq_iff extend 0 _

theorem changeVarNodes_eq (node : Expr) (rtIndex newIndex : Nat) :
    changeVarNodes node rtIndex newIndex 0 = rename (.single rtIndex newIndex) node := by
  cases node with
  | query resultRelation rowMarks parts =>
    have number : (fun i => if i = rtIndex then newIndex else i) =
        (Renaming.single rtIndex newIndex).apply :=
      funext fun i => (Renaming.apply_single rtIndex newIndex i).symm
    simp only [changeVarNodes, if_true, changeVarNodesWalker_eq]
    rw [number]
    exact congrArg (Expr.query · _ _) (congrFun number resultRelation)
  | _ => exact changeVarNodesWalker_eq rtIndex newIndex 0 _

theorem adjustNode_eq (pairs : List (Nat × Nat)) (node : Expr) :
    adjustNode pairs node = rename (.oneByOne pairs) node := by
  unfold adjustNode
  simp only [changeVarNodes_eq]
  exact foldl_rename pairs node

/-! ## Aggregation plans -/

def PlanTag.known : PlanTag → Bool
  | .agg => true
  | .sort => true
  | .group => true
  | .unique => false
  | .limit => false

def AggPlan.adjustable : AggPlan → Bool
  | .null => true
  | .node tag _ _ outerPlan innerPlan =>
    tag.known && outerPlan.adjustable && innerPlan.adjustable

def AggPlan.rename (ρ : Renaming Nat) : AggPlan → AggPlan
  | .null => .null
  | .node tag qual targetlist outerPlan innerPlan =>
    .node tag (Renamable.rename ρ qual) (Renamable.rename ρ targetlist)
      (outerPlan.rename ρ) (innerPlan.rename ρ)

def AggPlan.reads (τ : Renaming Nat) : AggPlan → List Nat
  | .null => []
  | .node _ qual targetlist outerPlan innerPlan =>
    Renamable.reads τ qual ++ Renamable.reads τ targetlist ++
      (outerPlan.reads τ ++ innerPlan.reads τ)

instance : Renamable Nat AggPlan where
  rename := AggPlan.rename
  reads := AggPlan.reads
  rename_identity plan := by
    induction plan with
    | null => rfl
    | node tag qual targetlist outerPlan innerPlan outerIh innerIh =>
      simp only [AggPlan.rename, rename_identity, outerIh, innerIh]
  rename_andThen ρ σ plan := by
    induction plan with
    | null => rfl
    | node tag qual targetlist outerPlan innerPlan outerIh innerIh =>
      simp only [AggPlan.rename, rename_andThen, outerIh, innerIh]
  rename_eq_iff extend plan := by
    induction plan with
    | null => simp [AggPlan.rename, AggPlan.reads]
    | node tag qual targetlist outerPlan innerPlan outerIh innerIh =>
      simp only [AggPlan.rename, AggPlan.node.injEq, rename_eq_iff extend, outerIh, innerIh,
        AggPlan.reads, forall_mem_append, true_and, and_assoc]

theorem AggPlan.adjustable_rename (ρ : Renaming Nat) (plan : AggPlan) :
    (plan.rename ρ).adjustable = plan.adjustable := by
  induction plan with
  | null => rfl
  | node tag qual targetlist outerPlan innerPlan outerIh innerIh =>
    simp only [AggPlan.rename, AggPlan.adjustable, outerIh, innerIh]

theorem adjustPlan_eq (old new : Nat) (plan : AggPlan) : adjustPlan old new plan =
      if plan.adjustable then .ok (rename (.single old new) plan)
      else .error .maladjustedMode := by
  induction plan with
  | null => rfl
  | node tag qual targetlist outerPlan innerPlan outerIh innerIh =>
    have fields : adjustPlanNode old new tag qual targetlist = if tag.known then
          .ok (rename (.single old new) qual, rename (.single old new) targetlist)
        else .error .maladjustedMode := by
      rw [← changeVarNodes_eq, ← changeVarNodes_eq]
      cases tag <;> rfl
    rw [adjustPlan, fields, outerIh, innerIh]
    cases known : tag.known with
    | false => simp [AggPlan.adjustable, known, bind, Except.bind]
    | true =>
      cases outer : outerPlan.adjustable with
      | false => simp [AggPlan.adjustable, known, outer, bind, Except.bind]
      | true =>
        cases inner : innerPlan.adjustable with
        | false => simp [AggPlan.adjustable, known, outer, inner, bind, Except.bind]
        | true =>
          simp only [AggPlan.adjustable, known, outer, inner, Bool.and_true, if_true]
          rfl

/-! ## Events and windows -/

def EventVar.rename (ρ : Renaming Nat) (var : EventVar) : EventVar :=
  { var with varno := ρ.apply var.varno, varnoold := ρ.apply var.varno, current := rfl }

instance : Renamable Nat EventVar where
  rename := EventVar.rename
  reads _ var := [var.varno]
  rename_identity var := by
    obtain ⟨⟨varno, varattno, varlevelsup, varnoold⟩, current, ofQuery⟩ := var
    cases current
    rfl
  rename_andThen ρ σ var := by
    simp only [EventVar.rename, Renaming.apply_andThen]
  rename_eq_iff extend var := by
    rw [forall_mem_singleton, ← extend.apply_eq_iff]
    simp [EventVar.rename]

def EventExpr.rename (ρ : Renaming Nat) : EventExpr → EventExpr
  | .simple var => .simple (var.rename ρ)
  | .complex op lchild rchild => .complex op (lchild.rename ρ) (rchild.rename ρ)

def EventExpr.reads : EventExpr → List Nat
  | .simple var => [var.varno]
  | .complex _ lchild rchild => lchild.reads ++ rchild.reads

instance : Renamable Nat EventExpr where
  rename := EventExpr.rename
  reads _ := EventExpr.reads
  rename_identity expr := by
    induction expr with
    | simple var => exact congrArg EventExpr.simple (rename_identity var)
    | complex op lchild rchild lIh rIh => rw [EventExpr.rename, lIh, rIh]
  rename_andThen ρ σ expr := by
    induction expr with
    | simple var => exact congrArg EventExpr.simple (rename_andThen ρ σ var)
    | complex op lchild rchild lIh rIh => rw [EventExpr.rename, lIh, rIh]; rfl
  rename_eq_iff extend expr := by
    induction expr with
    | simple var =>
      rw [EventExpr.rename, EventExpr.rename, EventExpr.simple.injEq]
      exact rename_eq_iff extend var
    | complex op lchild rchild lIh rIh =>
      simp only [EventExpr.rename, EventExpr.complex.injEq, lIh, rIh, EventExpr.reads,
        forall_mem_append, true_and]

instance : Renamable Nat FEventAgg where
  rename ρ module := ⟨rename ρ module.varLists, rename ρ module.eventExpr⟩
  reads τ module := reads τ module.varLists ++ reads τ module.eventExpr
  rename_identity module := by simp only [rename_identity]
  rename_andThen ρ σ module := by simp only [rename_andThen]
  rename_eq_iff extend module := by
    simp only [FEventAgg.mk.injEq, rename_eq_iff extend, forall_mem_append]

instance : Renamable Nat WindowExpr where
  rename ρ we := ⟨rename ρ we.tsvar, ρ.apply we.rtref⟩
  reads τ we := reads τ we.tsvar ++ [we.rtref]
  rename_identity we := by simp only [rename_identity, Renaming.apply_identity]
  rename_andThen ρ σ we := by simp only [rename_andThen, Renaming.apply_andThen]
  rename_eq_iff extend we := by
    simp only [WindowExpr.mk.injEq, rename_eq_iff extend, extend.apply_eq_iff,
      forall_mem_append, forall_mem_singleton]

instance : Renamable Nat WindowClause where
  rename ρ clause := ⟨rename ρ clause.windowExprs, rename ρ clause.max⟩
  reads τ clause := reads τ clause.windowExprs ++ reads τ clause.max
  rename_identity clause := by simp only [rename_identity]
  rename_andThen ρ σ clause := by simp only [rename_andThen]
  rename_eq_iff extend clause := by
    simp only [WindowClause.mk.injEq, rename_eq_iff extend, forall_mem_append]

theorem adjustEventVar_eq (old new : Nat) (var : EventVar) :
    adjustEventVar old new var = rename (.single old new) var := by
  change _ = EventVar.rename _ var
  unfold adjustEventVar EventVar.rename
  simp only [Renaming.apply_single]
  split_ifs with renamed
  · rfl
  · exact (rename_identity var).symm

theorem adjustEventexpr_eq (old new : Nat) (module : FEventAgg) :
    adjustEventexpr old new module = rename (.single old new) module := by
  have tree (expr : EventExpr) :
      adjustEventexprRecursively old new expr = rename (.single old new) expr := by
    induction expr with
    | simple var => exact congrArg EventExpr.simple (adjustEventVar_eq old new var)
    | complex op lchild rchild lIh rIh => rw [adjustEventexprRecursively, lIh, rIh]; rfl
  unfold adjustEventexpr
  rw [tree, funext (adjustEventVar_eq old new)]
  rfl

theorem adjustWindowclauses_eq (apart : Renaming.oneByOne pairs = .simultaneous pairs)
    (clause : Option WindowClause) :
    adjustWindowclauses pairs clause = rename (.oneByOne pairs) clause := by
  have number (we : WindowExpr) :
      (adjustWindowExpr pairs we).rtref = (Renaming.oneByOne pairs).apply we.rtref := by
    rw [apart]
    unfold adjustWindowExpr Renaming.apply Renaming.simultaneous
    cases pairs.find? fun pair => pair.1 = we.rtref <;> rfl
  have window : adjustWindowExpr pairs = rename (.oneByOne pairs) :=
    funext fun we => congrArg₂ WindowExpr.mk (adjustNode_eq pairs we.tsvar) (number we)
  unfold adjustWindowclauses
  rw [window]
  simp only [adjustNode_eq]
  rfl

theorem adjustScanBindings_eq (pairs : List (Nat × Nat)) (bindings : Bindings) :
    adjustScanBindings pairs bindings = rename (.oneByOne pairs) bindings := by
  unfold adjustScanBindings
  rw [funext (adjustNode_eq pairs)]
  rfl

/-! ## Modules -/

def PlanModule.adjustable : PlanModule → Bool
  | .fagg _ aggPlan => aggPlan.adjustable
  | _ => true

def PlanModule.adjusted (ρ : Renaming Nat) : PlanModule → PlanModule
  | .filter filterqual => .filter (rename ρ filterqual)
  | .stem s =>
    .stem { s with
      innerhashkey := rename ρ s.innerhashkey
      outerhashkey := rename ρ s.outerhashkey
      stemclauses := rename ρ s.stemclauses }
  | .indexStem bindings => .indexStem bindings
  | .fagg targetlist aggPlan => .fagg targetlist (rename ρ aggPlan)
  | .feventAgg module => .feventAgg (rename ρ module)

def adjustableSlots (modules : List (Option PlanModule)) : Bool :=
  modules.all (Option.all PlanModule.adjustable)

theorem PlanModule.adjusted_identity (module : PlanModule) : module.adjusted .identity = module := by
  cases module with
  | indexStem bindings => rfl
  | _ => simp only [PlanModule.adjusted, rename_identity]

theorem PlanModule.adjusted_andThen (ρ σ : Renaming Nat) (module : PlanModule) :
    module.adjusted (ρ.andThen σ) = (module.adjusted ρ).adjusted σ := by
  cases module with
  | indexStem bindings => rfl
  | _ => simp only [PlanModule.adjusted, rename_andThen]

theorem PlanModule.adjustable_adjusted (ρ : Renaming Nat) (module : PlanModule) :
    (module.adjusted ρ).adjustable = module.adjustable := by
  cases module with
  | fagg targetlist aggPlan => exact AggPlan.adjustable_rename ρ aggPlan
  | _ => rfl

theorem adjustModule_eq (old new : Nat) (module : PlanModule) : adjustModule old new module =
      if module.adjustable then .ok (module.adjusted (.single old new))
      else .error .maladjustedMode := by
  cases module with
  | filter filterqual => simp only [adjustModule, changeVarNodes_eq]; rfl
  | stem stem => simp only [adjustModule, changeVarNodes_eq]; rfl
  | indexStem bindings => rfl
  | fagg targetlist aggPlan =>
    rw [adjustModule, adjustPlan_eq]
    cases known : aggPlan.adjustable <;> simp [PlanModule.adjustable, known] <;> rfl
  | feventAgg module => simp only [adjustModule, adjustEventexpr_eq]; rfl

theorem mapM_adjustSlot (old new : Nat) (modules : List (Option PlanModule)) :
    modules.mapM (adjustSlot old new) = if adjustableSlots modules then
        .ok (modules.map (Option.map (PlanModule.adjusted (.single old new))))
      else .error .maladjustedMode := by
  unfold adjustableSlots
  induction modules with
  | nil => rfl
  | cons slot modules ih =>
    rw [mapM_cons, ih, all_cons]
    cases slot with
    | none =>
      rw [adjustSlot]
      cases modules.all (Option.all PlanModule.adjustable) <;> rfl
    | some module =>
      rw [adjustSlot, adjustModule_eq]
      cases known : module.adjustable <;>
        cases modules.all (Option.all PlanModule.adjustable) <;> simp [known] <;> rfl

theorem adjustableSlots_adjusted (ρ : Renaming Nat) (modules : List (Option PlanModule)) :
    adjustableSlots (modules.map (Option.map (PlanModule.adjusted ρ))) = adjustableSlots modules := by
  unfold adjustableSlots
  induction modules with
  | nil => rfl
  | cons slot modules ih =>
    rw [map_cons, all_cons, all_cons, ih]
    cases slot with
    | none => rfl
    | some module =>
      exact congrArg (· && _) (PlanModule.adjustable_adjusted ρ module)

theorem adjustModules_eq (pairs : List (Nat × Nat)) (known : adjustableSlots modules = true) :
    adjustModules pairs modules =
      .ok (modules.map (Option.map (PlanModule.adjusted (.oneByOne pairs)))) := by
  unfold adjustModules
  induction pairs generalizing modules with
  | nil =>
    rw [Renaming.oneByOne, funext PlanModule.adjusted_identity]
    simp
    rfl
  | cons pair pairs ih =>
    rw [foldlM_cons, mapM_adjustSlot, if_pos known]
    have rest := ih ((adjustableSlots_adjusted (.single pair.1 pair.2) modules).trans known)
    refine Eq.trans rest (congrArg Except.ok ?_)
    rw [map_map, Renaming.oneByOne, funext (PlanModule.adjusted_andThen _ _), Option.map_comp_map]
    rfl

theorem adjustModules_stops {pair : Nat × Nat} (unknown : adjustableSlots modules = false) :
    adjustModules (pair :: pairs) modules = .error .maladjustedMode := by
  unfold adjustModules
  rw [foldlM_cons, mapM_adjustSlot, unknown]
  rfl

/-! ## Numbers -/

section Numbers

theorem via_movesFrom (tempidx : Nat) (sources : List FreshSource) :
    (movesFrom tempidx sources).map Renaming.Move.via =
      List.range' tempidx (movesFrom tempidx sources).length := by
  induction sources generalizing tempidx with
  | nil => rfl
  | cons source sources ih =>
    unfold movesFrom
    split_ifs with changed
    · rw [map_cons, ih, length_cons, range'_succ]
    · exact ih tempidx

def changed (source : FreshSource) : Bool := source.origrteidx ≠ source.eddyrteidx

def FreshPlan.substitution (fresh : FreshPlan) : Renaming Nat :=
  .simultaneous ((fresh.sources.filter changed).map fun source =>
    (source.origrteidx, source.eddyrteidx))

theorem direct_movesFrom (tempidx : Nat) (sources : List FreshSource) :
    Renaming.direct (movesFrom tempidx sources) =
      (sources.filter changed).map fun source => (source.origrteidx, source.eddyrteidx) := by
  induction sources generalizing tempidx with
  | nil => rfl
  | cons source sources ih =>
    by_cases different : source.origrteidx ≠ source.eddyrteidx
    · rw [movesFrom, if_pos different, filter_cons_of_pos (by simpa [changed] using different)]
      exact congrArg (_ :: ·) (ih _)
    · rw [movesFrom, if_neg different, filter_cons_of_neg (by simpa [changed] using different)]
      exact ih _

theorem mem_movesFrom {tempidx : Nat} {sources : List FreshSource} {move : Renaming.Move Nat}
    (inside : move ∈ movesFrom tempidx sources) :
    ∃ source ∈ sources, move.old = source.origrteidx ∧ move.new = source.eddyrteidx := by
  have pair : (move.old, move.new) ∈ Renaming.direct (movesFrom tempidx sources) :=
    mem_map_of_mem inside
  rw [direct_movesFrom] at pair
  obtain ⟨source, among, same⟩ := mem_map.mp pair
  obtain ⟨old, new⟩ := Prod.mk.inj same
  exact ⟨source, mem_of_mem_filter among, old.symm, new.symm⟩

variable (fresh : FreshPlan)

theorem FreshPlan.substitution_eq :
    fresh.substitution = .simultaneous (Renaming.direct fresh.moves) := by
  unfold FreshPlan.substitution FreshPlan.moves
  rw [direct_movesFrom]

theorem FreshPlan.mem_via {i : Nat} : i ∈ fresh.moves.map Renaming.Move.via ↔
      tbaseidx ≤ i ∧ i < tbaseidx + fresh.moves.length := by
  unfold FreshPlan.moves
  rw [via_movesFrom, mem_range'_1]

theorem FreshPlan.apart : Renaming.Apart fresh.moves where
  nodup := by
    unfold FreshPlan.moves
    rw [via_movesFrom]
    exact nodup_range'
  old := by
    intro move inside between
    obtain ⟨source, -, old, -⟩ := mem_movesFrom inside
    have least := (fresh.mem_via.mp between).1
    have below := source.origrteidx_lt
    omega
  new := by
    intro move inside between
    obtain ⟨source, -, -, new⟩ := mem_movesFrom inside
    have least := (fresh.mem_via.mp between).1
    have below := source.eddyrteidx_lt
    omega

theorem FreshPlan.substitution_source {source : FreshSource} (inside : source ∈ fresh.sources) :
    fresh.substitution.apply source.origrteidx = source.eddyrteidx := by
  have single (other : FreshSource) (among : other ∈ fresh.sources)
      (same : other.origrteidx = source.origrteidx) : other = source :=
    inj_on_of_nodup_map fresh.distinct among inside same
  cases found : fresh.substitution source.origrteidx with
  | none =>
    rw [Renaming.apply_of_none found]
    by_contra different
    refine Renaming.simultaneous_eq_none.mp found
      (source.origrteidx, source.eddyrteidx) ?_ rfl
    refine mem_map.mpr ⟨source, mem_filter.mpr ⟨inside, ?_⟩, rfl⟩
    simpa [changed] using different
  | some number =>
    rw [Renaming.apply_of_some found]
    obtain ⟨pair, first, rfl⟩ := Option.map_eq_some_iff.mp found
    obtain ⟨other, among, rfl⟩ := mem_map.mp (mem_of_find?_eq_some first)
    have same : other.origrteidx = source.origrteidx := by
      simpa using find?_some first
    rw [single other (mem_of_mem_filter among) same]

end Numbers

/-! ## Plans -/

/-- The substitution in a whole module: the source of a SteM changes with its hash keys. -/
def PlanModule.substitute (τ : Renaming Nat) : PlanModule → PlanModule
  | .filter filterqual => .filter (rename τ filterqual)
  | .stem s =>
    .stem
      { innerhashkey := rename τ s.innerhashkey
        outerhashkey := rename τ s.outerhashkey
        stemclauses := rename τ s.stemclauses
        sourceBuiltOn := τ.apply (s.sourceBuiltOn + 1) - 1 }
  | .indexStem bindings => .indexStem (rename τ bindings)
  | .fagg targetlist aggPlan => .fagg (rename τ targetlist) (rename τ aggPlan)
  | .feventAgg module => .feventAgg (rename τ module)

def SourceScan.substitute (τ : Renaming Nat) : SourceScan → SourceScan
  | .copied scan =>
    .copied
      { scanrelid := τ.apply scan.scanrelid
        targetlist := rename τ scan.targetlist
        qual := rename τ scan.qual
        seqscanTargetlist := rename τ scan.seqscanTargetlist
        seqscanQual := rename τ scan.seqscanQual
        bindings := rename τ scan.bindings }
  | .shared bindings => .shared (rename τ bindings)

def PlanParts.substitute (τ : Renaming Nat) (parts : PlanParts) : PlanParts where
  modules := parts.modules.map (Option.map (PlanModule.substitute τ))
  targetlist := rename τ parts.targetlist
  windowClause := rename τ parts.windowClause
  scans := parts.scans.map (SourceScan.substitute τ)

def FreshPlan.parts (fresh : FreshPlan) : PlanParts :=
  ⟨fresh.modules, fresh.targetlist, fresh.windowClause, fresh.sources.map FreshSource.scan⟩

/-- What becomes of a module: `τ` is the substitution and `κ` the passes over the plan. -/
def PlanModule.renumbered (κ τ : Renaming Nat) : PlanModule → PlanModule
  | .filter filterqual => .filter (rename κ filterqual)
  | .stem s =>
    .stem
      { innerhashkey := rename κ s.innerhashkey
        outerhashkey := rename κ s.outerhashkey
        stemclauses := rename κ s.stemclauses
        sourceBuiltOn := τ.apply (s.sourceBuiltOn + 1) - 1 }
  | .indexStem bindings => .indexStem (rename κ bindings)
  | .fagg targetlist aggPlan => .fagg targetlist (rename κ aggPlan)
  | .feventAgg module => .feventAgg (rename κ module)

def SourceScan.renumbered (κ τ : Renaming Nat) : SourceScan → SourceScan
  | .copied scan =>
    .copied
      { scanrelid := τ.apply scan.scanrelid
        targetlist := rename τ scan.targetlist
        qual := rename τ scan.qual
        seqscanTargetlist := rename τ scan.seqscanTargetlist
        seqscanQual := rename τ scan.seqscanQual
        bindings := rename κ scan.bindings }
  | .shared bindings => .shared (rename κ bindings)

def FreshPlan.renumbered (fresh : FreshPlan) (κ τ : Renaming Nat) : PlanParts where
  modules := fresh.modules.map (Option.map (PlanModule.renumbered κ τ))
  targetlist := rename κ fresh.targetlist
  windowClause := rename κ fresh.windowClause
  scans := fresh.sources.map fun source => source.scan.renumbered κ τ

theorem adjustSourceBuiltOn_eq (pairs : List (Nat × Nat)) (stem : SteM) :
    adjustSourceBuiltOn pairs (.stem stem) = .stem { stem with
        sourceBuiltOn := (Renaming.simultaneous pairs).apply (stem.sourceBuiltOn + 1) - 1 } := by
  simp only [adjustSourceBuiltOn, Renaming.apply, Renaming.simultaneous]
  cases pairs.find? fun pair => pair.1 = stem.sourceBuiltOn + 1 <;> rfl

theorem PlanModule.renumbered_eq (outward homeward direct : List (Nat × Nat))
    (module : PlanModule) :
    adjustSourceBuiltOn direct (adjustBindingTlist homeward (adjustBindingTlist outward
      ((module.adjusted (.oneByOne outward)).adjusted (.oneByOne homeward)))) =
    module.renumbered ((Renaming.oneByOne outward).andThen (.oneByOne homeward))
      (.simultaneous direct) := by
  rw [← PlanModule.adjusted_andThen]
  cases module with
  | stem stem => exact adjustSourceBuiltOn_eq direct _
  | indexStem bindings =>
    simp only [PlanModule.adjusted, adjustBindingTlist, adjustScanBindings_eq,
      adjustSourceBuiltOn, PlanModule.renumbered, rename_andThen]
  | _ => rfl

theorem Expr.renameAt_own (same : ρ.apply number = σ.apply number) (sublevelsUp : Nat) (expr : Expr)
    (own : ∀ i ∈ expr.readsAt .identity sublevelsUp, i = number) :
    expr.renameAt ρ sublevelsUp = expr.renameAt σ sublevelsUp := by
  have top (sublevelsUp rtindex : Nat)
      (own : ∀ i ∈ if sublevelsUp = 0 then [rtindex] else [], i = number) :
      atTop sublevelsUp ρ rtindex = atTop sublevelsUp σ rtindex := by
    unfold atTop
    split_ifs at own ⊢
    · rw [forall_mem_singleton.mp own, same]
    · rfl
  induction expr generalizing sublevelsUp with
  | nil => rfl
  | var v =>
    by_cases level : v.varlevelsup = sublevelsUp
    · have numbers : v.varno = number ∧ v.varnoold = number := by
        simpa [Expr.readsAt, level, Renaming.identity] using own
      have plain : v.varnoold = v.varno := numbers.2.trans numbers.1.symm
      rw [Expr.renameAt, Expr.renameAt, Var.renameAt_plain level (.inl plain),
        Var.renameAt_plain level (.inl plain), numbers.1, numbers.2, same]
    · simp only [Expr.renameAt, Var.renameAt, level, if_false]
  | rangeTblRef rtindex => rw [Expr.renameAt, Expr.renameAt, top sublevelsUp rtindex own]
  | joinExpr rtindex args ih =>
    rw [Expr.readsAt, forall_mem_append] at own
    rw [Expr.renameAt, Expr.renameAt, top sublevelsUp rtindex own.1, ih sublevelsUp own.2]
  | query resultRelation rowMarks parts ih =>
    rw [Expr.renameAt, Expr.renameAt, ih (sublevelsUp + 1) own]
  | node tag args ih => rw [Expr.renameAt, Expr.renameAt, ih sublevelsUp own]
  | list head tail headIh tailIh =>
    rw [Expr.readsAt, forall_mem_append] at own
    rw [Expr.renameAt, Expr.renameAt, headIh sublevelsUp own.1, tailIh sublevelsUp own.2]

theorem Expr.rename_own (same : ρ.apply number = σ.apply number) (expr : Expr)
    (own : ∀ i ∈ expr.reads .identity, i = number) :
    Renamable.rename ρ expr = Renamable.rename σ expr := by
  cases expr with
  | query resultRelation rowMarks parts =>
    rw [Expr.reads, cons_append, forall_mem_cons, forall_mem_append] at own
    have marks : rowMarks.map ρ.apply = rowMarks.map σ.apply := by
      refine map_congr_left ?_
      intro mark inside
      rw [own.2.1 mark inside, same]
    change Expr.rename ρ _ = Expr.rename σ _
    rw [Expr.rename, Expr.rename, own.1, same, marks, Expr.renameAt_own same 0 parts own.2.2]
  | _ => exact Expr.renameAt_own same 0 _ own

theorem SourceScan.renumbered_eq {origrteidx eddyrteidx : Nat}
    (number : τ.apply origrteidx = eddyrteidx) (outward homeward : List (Nat × Nat))
    (scan : SourceScan) (own : scan.Of origrteidx) :
    ((scan.adjustScan origrteidx eddyrteidx).adjustBindings outward).adjustBindings homeward =
      scan.renumbered ((Renaming.oneByOne outward).andThen (.oneByOne homeward)) τ := by
  cases scan with
  | shared bindings =>
    simp only [SourceScan.adjustScan, SourceScan.adjustBindings, adjustScanBindings_eq,
      SourceScan.renumbered, rename_andThen]
  | copied scan =>
    obtain ⟨same, exprs⟩ := own
    have apply : (Renaming.single origrteidx eddyrteidx).apply origrteidx = τ.apply origrteidx := by
      rw [Renaming.apply_single, if_pos rfl, number]
    simp only [forall_mem_cons] at exprs
    simp only [SourceScan.adjustScan, SourceScan.adjustBindings, Renumbering.adjustScan,
      adjustScanBindings_eq, SourceScan.renumbered, rename_andThen, changeVarNodes_eq, same,
      number, Expr.rename_own apply _ exprs.1, Expr.rename_own apply _ exprs.2.1,
      Expr.rename_own apply _ exprs.2.2.1, Expr.rename_own apply _ exprs.2.2.2.1]

theorem SourceScan.adjustBindings_nil (scan : SourceScan) : scan.adjustBindings [] = scan := by
  cases scan with
  | copied | shared => simp only [SourceScan.adjustBindings, adjustScanBindings_eq,
      Renaming.oneByOne, rename_identity]

section Plans

variable (fresh : FreshPlan)

theorem scans_eq (outward homeward : List (Nat × Nat)) : (fresh.sources.map fun source =>
        ((source.scan.adjustScan source.origrteidx source.eddyrteidx).adjustBindings
          outward).adjustBindings homeward) = fresh.sources.map fun source => source.scan.renumbered
        ((Renaming.oneByOne outward).andThen (.oneByOne homeward)) fresh.substitution :=
  map_congr_left fun source inside =>
    SourceScan.renumbered_eq (fresh.substitution_source inside) outward homeward _ source.own

theorem adjustScanAndRt_none (none : fresh.moves = []) : adjustScanAndRt fresh =
      .ok (fresh.renumbered (Renaming.twoPhase fresh.moves) fresh.substitution) := by
  have scans := scans_eq fresh [] []
  simp only [SourceScan.adjustBindings_nil] at scans
  have modules : fresh.modules.map (Option.map (PlanModule.renumbered .identity .identity)) =
      fresh.modules := by
    have kept : PlanModule.renumbered .identity .identity = id := by
      funext module
      cases module <;>
        simp only [PlanModule.renumbered, rename_identity, Renaming.apply_identity,
          Nat.add_sub_cancel, id]
    rw [kept, Option.map_id, map_id]
  have kept : fresh.substitution = .identity := by
    rw [fresh.substitution_eq, none]
    rfl
  have identity : Renaming.twoPhase ([] : List (Renaming.Move Nat)) = .identity := rfl
  unfold adjustScanAndRt FreshPlan.renumbered
  rw [none, identity, rename_identity, rename_identity, scans, kept, modules]
  rfl

theorem adjustScanAndRt_eq {move : Renaming.Move Nat} {moves : List (Renaming.Move Nat)}
    (some : fresh.moves = move :: moves) : adjustScanAndRt fresh =
      if adjustableSlots fresh.modules then
        .ok (fresh.renumbered (Renaming.twoPhase fresh.moves) fresh.substitution)
      else .error .maladjustedMode := by
  have many : fresh.moves.length ≠ 0 := by
    rw [some]
    exact Nat.succ_ne_zero _
  unfold adjustScanAndRt
  rw [if_neg many]
  cases known : adjustableSlots fresh.modules with
  | false =>
    rw [show Renaming.outward fresh.moves =
      (move.old, move.via) :: Renaming.outward moves from some ▸ rfl, adjustModules_stops known]
    rfl
  | true =>
    have apart := fresh.apart
    have again := (adjustableSlots_adjusted
      (.oneByOne (Renaming.outward fresh.moves)) fresh.modules).trans known
    rw [adjustModules_eq _ known]
    change (adjustModules _ _ >>= _) = _
    rw [adjustModules_eq _ again]
    refine congrArg Except.ok ?_
    have scans := scans_eq fresh (Renaming.outward fresh.moves) (Renaming.homeward fresh.moves)
    simp only [adjustBindingTlists, adjustStemsSourceBuiltOn, map_map, Option.map_comp_map,
      adjustNode_eq, adjustWindowclauses_eq apart.outward_eq,
      adjustWindowclauses_eq apart.homeward_eq, ← rename_andThen, FreshPlan.renumbered]
    refine congr (congr (congrArg (PlanParts.mk · _) ?_) rfl) scans
    refine congrArg (List.map · fresh.modules) (congrArg Option.map (funext fun module => ?_))
    rw [fresh.substitution_eq]
    exact PlanModule.renumbered_eq _ _ _ module

end Plans

/-! ## When the passes are the substitution -/

def PlanModule.reads (τ : Renaming Nat) : PlanModule → List Nat
  | .filter filterqual => Renamable.reads τ filterqual
  | .stem s =>
    Renamable.reads τ s.innerhashkey ++ Renamable.reads τ s.outerhashkey ++
      Renamable.reads τ s.stemclauses
  | .indexStem bindings => Renamable.reads τ bindings
  | .fagg _ aggPlan => Renamable.reads τ aggPlan
  | .feventAgg module => Renamable.reads τ module

def SourceScan.bindings : SourceScan → Bindings
  | .copied scan => scan.bindings
  | .shared bindings => bindings

def FreshPlan.reads (fresh : FreshPlan) : List Nat :=
  fresh.modules.flatMap (Option.elim · [] (PlanModule.reads fresh.substitution)) ++
    Renamable.reads fresh.substitution fresh.targetlist ++
      (Renamable.reads fresh.substitution fresh.windowClause ++
        fresh.sources.flatMap fun source =>
          Renamable.reads fresh.substitution source.scan.bindings)

def PlanModule.OwnKept (τ : Renaming Nat) : PlanModule → Prop
  | .fagg targetlist _ => rename τ targetlist = targetlist
  | _ => True

theorem PlanModule.renumbered_iff (extend : κ.Extends τ) (module : PlanModule) :
    module.renumbered κ τ = module.substitute τ ↔
      module.OwnKept τ ∧ ∀ i ∈ module.reads τ, κ i = τ i := by
  cases module with
  | filter filterqual =>
    simp only [PlanModule.renumbered, PlanModule.substitute, PlanModule.filter.injEq,
      rename_eq_iff extend, PlanModule.OwnKept, PlanModule.reads, true_and]
  | stem s =>
    simp only [PlanModule.renumbered, PlanModule.substitute, PlanModule.stem.injEq,
      SteM.mk.injEq, rename_eq_iff extend, PlanModule.OwnKept, PlanModule.reads,
      forall_mem_append, and_true, true_and, and_assoc]
  | indexStem bindings =>
    simp only [PlanModule.renumbered, PlanModule.substitute, PlanModule.indexStem.injEq,
      rename_eq_iff extend, PlanModule.OwnKept, PlanModule.reads, true_and]
  | fagg targetlist aggPlan =>
    simp only [PlanModule.renumbered, PlanModule.substitute, PlanModule.fagg.injEq,
      rename_eq_iff extend, PlanModule.OwnKept, PlanModule.reads]
    exact and_congr_left' eq_comm
  | feventAgg module =>
    simp only [PlanModule.renumbered, PlanModule.substitute, PlanModule.feventAgg.injEq,
      rename_eq_iff extend, PlanModule.OwnKept, PlanModule.reads, true_and]

theorem SourceScan.renumbered_iff (extend : κ.Extends τ) (scan : SourceScan) :
    scan.renumbered κ τ = scan.substitute τ ↔ ∀ i ∈ Renamable.reads τ scan.bindings, κ i = τ i := by
  cases scan with
  | copied scan =>
    simp only [SourceScan.renumbered, SourceScan.substitute, SourceScan.copied.injEq,
      StrmScan.mk.injEq, rename_eq_iff extend, SourceScan.bindings, true_and]
  | shared bindings =>
    simp only [SourceScan.renumbered, SourceScan.substitute, SourceScan.shared.injEq,
      rename_eq_iff extend, SourceScan.bindings]

theorem FreshPlan.renumbered_iff (fresh : FreshPlan) (extend : κ.Extends fresh.substitution) :
    fresh.renumbered κ fresh.substitution = fresh.parts.substitute fresh.substitution ↔
      (∀ module, some module ∈ fresh.modules → module.OwnKept fresh.substitution) ∧
        ∀ i ∈ fresh.reads, κ i = fresh.substitution i := by
  have slot (slot : Option PlanModule) : slot.map (PlanModule.renumbered κ fresh.substitution) =
          slot.map (PlanModule.substitute fresh.substitution) ↔
        (∀ module, some module = slot → module.OwnKept fresh.substitution) ∧
          ∀ i ∈ slot.elim [] (PlanModule.reads fresh.substitution), κ i = fresh.substitution i := by
    cases slot with
    | none => simp
    | some module => simpa using PlanModule.renumbered_iff extend module
  have modules : fresh.modules.map (Option.map (PlanModule.renumbered κ fresh.substitution)) =
        fresh.modules.map (Option.map (PlanModule.substitute fresh.substitution)) ↔
      (∀ module, some module ∈ fresh.modules → module.OwnKept fresh.substitution) ∧
        ∀ i ∈ fresh.modules.flatMap (Option.elim · [] (PlanModule.reads fresh.substitution)),
          κ i = fresh.substitution i := by
    rw [map_inj_left, forall_mem_flatMap]
    constructor
    · intro each
      exact ⟨fun module inside => ((slot _).mp (each _ inside)).1 module rfl,
        fun a inside => ((slot a).mp (each a inside)).2⟩
    · rintro ⟨kept, same⟩ a inside
      exact (slot a).mpr ⟨fun module here => kept module (here ▸ inside), same a inside⟩
  have scans : (fresh.sources.map fun source => source.scan.renumbered κ fresh.substitution) =
        (fresh.sources.map FreshSource.scan).map (SourceScan.substitute fresh.substitution) ↔
      ∀ i ∈ fresh.sources.flatMap fun source =>
        Renamable.reads fresh.substitution source.scan.bindings, κ i = fresh.substitution i := by
    rw [map_map, map_inj_left, forall_mem_flatMap]
    exact forall₂_congr fun source _ => SourceScan.renumbered_iff extend source.scan
  simp only [FreshPlan.renumbered, PlanParts.substitute, FreshPlan.parts, PlanParts.mk.injEq,
    modules, rename_eq_iff extend, scans, FreshPlan.reads, forall_mem_append, and_assoc]

/-- A plan that is renumbered as its expressions ask for.  With a number to be changed, the
nodes of its aggregation plan are all known to `adjust_plan_node`; the target list of an `FAgg`
has nothing to be changed; and no expression has one of the temporary numbers. -/
structure FreshPlan.Renumberable (fresh : FreshPlan) : Prop where
  known : fresh.moves ≠ [] → ∀ targetlist aggPlan,
    some (.fagg targetlist aggPlan) ∈ fresh.modules → aggPlan.adjustable = true
  own : ∀ targetlist aggPlan, some (.fagg targetlist aggPlan) ∈ fresh.modules →
    rename fresh.substitution targetlist = targetlist
  permanent : ∀ i ∈ fresh.reads, ¬(tbaseidx ≤ i ∧ i < tbaseidx + fresh.moves.length)

theorem FreshPlan.adjustableSlots_iff (fresh : FreshPlan) :
    adjustableSlots fresh.modules = true ↔ ∀ targetlist aggPlan,
      some (.fagg targetlist aggPlan) ∈ fresh.modules → aggPlan.adjustable = true := by
  unfold adjustableSlots
  rw [all_eq_true]
  constructor
  · intro all targetlist aggPlan inside
    exact all _ inside
  · intro each slot inside
    match slot, inside with
    | none, _ => rfl
    | some (.fagg targetlist aggPlan), inside => exact each targetlist aggPlan inside
    | some (.filter _), _ => rfl
    | some (.stem _), _ => rfl
    | some (.indexStem _), _ => rfl
    | some (.feventAgg _), _ => rfl

theorem FreshPlan.ownKept_iff (fresh : FreshPlan) :
    (∀ module, some module ∈ fresh.modules → module.OwnKept fresh.substitution) ↔
      ∀ targetlist aggPlan, some (.fagg targetlist aggPlan) ∈ fresh.modules →
        rename fresh.substitution targetlist = targetlist := by
  constructor
  · intro each targetlist aggPlan inside
    exact each _ inside
  · intro each module inside
    cases module with
    | fagg targetlist aggPlan => exact each targetlist aggPlan inside
    | _ => trivial

theorem renumbered_as_substitution_iff (fresh : FreshPlan) :
    adjustScanAndRt fresh = .ok (fresh.parts.substitute fresh.substitution) ↔
      fresh.Renumberable := by
  have extend : (Renaming.twoPhase fresh.moves).Extends fresh.substitution := by
    rw [fresh.substitution_eq]
    exact fresh.apart.twoPhase_extends
  have permanent : (∀ i ∈ fresh.reads, Renaming.twoPhase fresh.moves i = fresh.substitution i) ↔
      ∀ i ∈ fresh.reads, ¬(tbaseidx ≤ i ∧ i < tbaseidx + fresh.moves.length) := by
    refine forall₂_congr fun i _ => ?_
    rw [fresh.substitution_eq, fresh.apart.twoPhase_eq_iff, fresh.mem_via]
  have parts := fresh.renumbered_iff extend
  rw [fresh.ownKept_iff, permanent] at parts
  cases moves : fresh.moves with
  | nil =>
    rw [adjustScanAndRt_none fresh moves, Except.ok.injEq, parts]
    exact ⟨fun ⟨own, permanent⟩ => ⟨fun some => absurd moves some, own, permanent⟩,
      fun renumberable => ⟨renumberable.own, renumberable.permanent⟩⟩
  | cons move rest =>
    have some : fresh.moves ≠ [] := moves ▸ cons_ne_nil move rest
    rw [adjustScanAndRt_eq fresh moves]
    split_ifs with known
    · rw [Except.ok.injEq, parts]
      exact ⟨fun ⟨own, permanent⟩ =>
          ⟨fun _ => fresh.adjustableSlots_iff.mp known, own, permanent⟩,
        fun renumberable => ⟨renumberable.own, renumberable.permanent⟩⟩
    · exact ⟨nofun, fun renumberable =>
        absurd (fresh.adjustableSlots_iff.mpr (renumberable.known some)) known⟩

example : (adjustScanAndRt
    { modules := [some (.filter (.list (.var ⟨1, 1, 0, 1⟩) (.var ⟨2, 1, 0, 2⟩)))]
      targetlist := .nil
      windowClause := none
      sources :=
        [⟨1, 2, .shared none, by decide, by decide, by decide, trivial⟩,
          ⟨2, 1, .shared none, by decide, by decide, by decide, trivial⟩]
      distinct := by decide }).toOption.map PlanParts.modules =
    some [some (.filter (.list (.var ⟨2, 1, 0, 2⟩) (.var ⟨1, 1, 0, 1⟩)))] := rfl

/-- A query with DISTINCT over an aggregate of its stream, which the eddy knows as its second:
the backend stops. -/
def distinctPlan : FreshPlan where
  modules := [some (.fagg .nil
    (.node .unique .nil .nil
      (.node .sort .nil .nil (.node .agg .nil (.var ⟨1, 1, 0, 1⟩) .null .null) .null) .null))]
  targetlist := .var ⟨1, 1, 0, 1⟩
  windowClause := none
  sources := [⟨1, 2, .shared none, by decide, by decide, by decide, trivial⟩]
  distinct := by decide

theorem distinct_not_renumbered :
    adjustScanAndRt distinctPlan = .error .maladjustedMode ∧
      adjustScanAndRt distinctPlan ≠
        .ok (distinctPlan.parts.substitute distinctPlan.substitution) := by
  have stops : adjustScanAndRt distinctPlan = .error .maladjustedMode := rfl
  exact ⟨stops, by rw [stops]; exact nofun⟩

end TelegraphCQ.Eddy.Renumbering
