import TelegraphCQ.Eddy.Fjord
import TelegraphCQ.Events.FEventAgg
import TelegraphCQ.Foundation.Renaming

/-!
# Renumbering a new query

The expressions of a plan refer to the range table of its query.  When the plan is merged into
the shared eddy, each of its sources gets a number in the range table of the eddy, and
`adjust_scan_and_rt` (`eddy.c`) changes the expressions in place, one source after the other
(`ChangeVarNodes`, `rewriteManip.c`).  It goes through them twice, with temporary numbers in
between, since a source may get the number that another one has had.

A plan has one scan for each relation: a join of a stream with itself is refused, and in event
queries the second scan is dropped.
-/

namespace TelegraphCQ.Eddy.Renumbering

open Foundation

/-! ## Expressions -/

structure Var where
  varno : Nat
  varattno : Nat
  varlevelsup : Nat
  varnoold : Nat
  deriving DecidableEq, Repr

/-- A list is a node as well.  `node` stands for the nodes without numbers of their own. -/
inductive Expr where
  | nil
  | var (v : Var)
  | rangeTblRef (rtindex : Nat)
  | joinExpr (rtindex : Nat) (args : Expr)
  | query (resultRelation : Nat) (rowMarks : List Nat) (parts : Expr)
  | node (tag : Nat) (args : Expr)
  | list (head tail : Expr)
  deriving DecidableEq, Repr

def changeVar (rtIndex newIndex sublevelsUp : Nat) (v : Var) : Var :=
  if v.varlevelsup = sublevelsUp ∧ v.varno = rtIndex then
    { v with varno := newIndex, varnoold := newIndex }
  else if v.varlevelsup = sublevelsUp ∧ v.varnoold = rtIndex then
    { v with varnoold := newIndex }
  else v

def changeVarNodesWalker (rtIndex newIndex : Nat) : Nat → Expr → Expr
  | _, .nil => .nil
  | sublevelsUp, .var v => .var (changeVar rtIndex newIndex sublevelsUp v)
  | sublevelsUp, .rangeTblRef rtindex =>
    .rangeTblRef (if sublevelsUp = 0 ∧ rtindex = rtIndex then newIndex else rtindex)
  | sublevelsUp, .joinExpr rtindex args =>
    .joinExpr (if sublevelsUp = 0 ∧ rtindex = rtIndex then newIndex else rtindex)
      (changeVarNodesWalker rtIndex newIndex sublevelsUp args)
  | sublevelsUp, .query resultRelation rowMarks parts =>
    .query resultRelation rowMarks
      (changeVarNodesWalker rtIndex newIndex (sublevelsUp + 1) parts)
  | sublevelsUp, .node tag args =>
    .node tag (changeVarNodesWalker rtIndex newIndex sublevelsUp args)
  | sublevelsUp, .list head tail =>
    .list (changeVarNodesWalker rtIndex newIndex sublevelsUp head)
      (changeVarNodesWalker rtIndex newIndex sublevelsUp tail)

/-- At a query the walk starts with its parts, and the query has numbers of its own. -/
def changeVarNodes (node : Expr) (rtIndex newIndex sublevelsUp : Nat) : Expr :=
  match node with
  | .query resultRelation rowMarks parts =>
    if sublevelsUp = 0 then
      .query (if resultRelation = rtIndex then newIndex else resultRelation)
        (rowMarks.map fun mark => if mark = rtIndex then newIndex else mark)
        (changeVarNodesWalker rtIndex newIndex sublevelsUp parts)
    else .query resultRelation rowMarks (changeVarNodesWalker rtIndex newIndex sublevelsUp parts)
  | node => changeVarNodesWalker rtIndex newIndex sublevelsUp node

def adjustNode (pairs : List (Nat × Nat)) (node : Expr) : Expr :=
  pairs.foldl (fun node pair => changeVarNodes node pair.1 pair.2 0) node

/-! ## Plans -/

inductive PlanTag where
  | agg
  | sort
  | group
  | unique
  | limit
  deriving DecidableEq, Repr

/-- The nodes above the eddy, which `postgres.c` moves into an `FAgg`. -/
inductive AggPlan where
  | null
  | node (tag : PlanTag) (qual targetlist : Expr) (outerPlan innerPlan : AggPlan)
  deriving DecidableEq, Repr

/-- The Vars of event clauses are those of the parser. -/
structure EventVar extends Var where
  current : varnoold = varno
  ofQuery : varlevelsup = 0
  deriving DecidableEq, Repr

inductive EventExpr where
  | simple (var : EventVar)
  | complex (op : Events.EventOperator) (lchild rchild : EventExpr)
  deriving DecidableEq, Repr

structure FEventAgg where
  varLists : List (List EventVar)
  eventExpr : EventExpr
  deriving DecidableEq, Repr

/-- `sourceBuiltOn` has one bit; its number is one less than that of the source. -/
structure SteM where
  innerhashkey : Expr
  outerhashkey : Expr
  stemclauses : Expr
  sourceBuiltOn : Nat
  deriving DecidableEq, Repr

abbrev Bindings : Type := Option (List (Option Expr))

inductive PlanModule where
  | filter (filterqual : Expr)
  | stem (stem : SteM)
  | indexStem (bindings : Bindings)
  | fagg (targetlist : Expr) (aggPlan : AggPlan)
  | feventAgg (feventAgg : FEventAgg)
  deriving DecidableEq, Repr

structure WindowExpr where
  tsvar : Expr
  rtref : Nat
  deriving DecidableEq, Repr

structure WindowClause where
  windowExprs : List WindowExpr
  max : Expr
  deriving DecidableEq, Repr

structure StrmScan where
  scanrelid : Nat
  targetlist : Expr
  qual : Expr
  seqscanTargetlist : Expr
  seqscanQual : Expr
  bindings : Bindings
  deriving DecidableEq, Repr

/-- A scan is copied into the eddy, or its bindings are given to the source that is there. -/
inductive SourceScan where
  | copied (scan : StrmScan)
  | shared (bindings : Bindings)
  deriving DecidableEq, Repr

structure PlanParts where
  modules : List (Option PlanModule)
  targetlist : Expr
  windowClause : Option WindowClause
  scans : List SourceScan
  deriving DecidableEq, Repr

inductive RenumberingFault where
  | maladjustedMode
  deriving DecidableEq, Repr

/-! ## Adjusting -/

def adjustCommonPlanFields (old new : Nat) (qual targetlist : Expr) : Expr × Expr :=
  (changeVarNodes qual old new 0, changeVarNodes targetlist old new 0)

def adjustPlanNode (old new : Nat) (tag : PlanTag) (qual targetlist : Expr) :
    Except RenumberingFault (Expr × Expr) :=
  let fields := adjustCommonPlanFields old new qual targetlist
  match tag with
  | .agg => .ok fields
  | .sort => .ok fields
  | .group => .ok fields
  | _ => .error .maladjustedMode

def adjustPlan (old new : Nat) : AggPlan → Except RenumberingFault AggPlan
  | .null => .ok .null
  | .node tag qual targetlist outerPlan innerPlan => do
      let (qual, targetlist) ← adjustPlanNode old new tag qual targetlist
      let outerPlan ← adjustPlan old new outerPlan
      let innerPlan ← adjustPlan old new innerPlan
      .ok (.node tag qual targetlist outerPlan innerPlan)

def adjustEventVar (old new : Nat) (var : EventVar) : EventVar :=
  if var.varno = old then
    { var with varno := new, varnoold := new, current := rfl }
  else var

def adjustEventexprRecursively (old new : Nat) : EventExpr → EventExpr
  | .simple var => .simple (adjustEventVar old new var)
  | .complex op lchild rchild =>
    .complex op (adjustEventexprRecursively old new lchild)
      (adjustEventexprRecursively old new rchild)

def adjustEventexpr (old new : Nat) (module : FEventAgg) : FEventAgg where
  varLists := module.varLists.map (List.map (adjustEventVar old new))
  eventExpr := adjustEventexprRecursively old new module.eventExpr

def adjustModule (origidx eddyidx : Nat) : PlanModule → Except RenumberingFault PlanModule
  | .filter filterqual => .ok (.filter (changeVarNodes filterqual origidx eddyidx 0))
  | .stem stem =>
    .ok (.stem { stem with
      innerhashkey := changeVarNodes stem.innerhashkey origidx eddyidx 0
      outerhashkey := changeVarNodes stem.outerhashkey origidx eddyidx 0
      stemclauses := changeVarNodes stem.stemclauses origidx eddyidx 0 })
  | .indexStem bindings => .ok (.indexStem bindings)
  | .fagg targetlist aggPlan => do .ok (.fagg targetlist (← adjustPlan origidx eddyidx aggPlan))
  | .feventAgg module => .ok (.feventAgg (adjustEventexpr origidx eddyidx module))

def adjustSlot (origidx eddyidx : Nat) :
    Option PlanModule → Except RenumberingFault (Option PlanModule)
  | none => .ok none
  | some module => do .ok (some (← adjustModule origidx eddyidx module))

def adjustModules (pairs : List (Nat × Nat)) (modules : List (Option PlanModule)) :
    Except RenumberingFault (List (Option PlanModule)) :=
  pairs.foldlM (fun modules pair => modules.mapM (adjustSlot pair.1 pair.2)) modules

def adjustScanBindings (pairs : List (Nat × Nat)) (bindings : Bindings) : Bindings :=
  bindings.map (List.map (Option.map (adjustNode pairs)))

def adjustBindingTlist (pairs : List (Nat × Nat)) : PlanModule → PlanModule
  | .indexStem bindings => .indexStem (adjustScanBindings pairs bindings)
  | module => module

def adjustBindingTlists (pairs : List (Nat × Nat)) (modules : List (Option PlanModule)) :
    List (Option PlanModule) :=
  modules.map (Option.map (adjustBindingTlist pairs))

def adjustSourceBuiltOn (pairs : List (Nat × Nat)) : PlanModule → PlanModule
  | .stem stem =>
    match pairs.find? fun pair => pair.1 = stem.sourceBuiltOn + 1 with
    | some (_, newidx) => .stem { stem with sourceBuiltOn := newidx - 1 }
    | none => .stem stem
  | module => module

def adjustStemsSourceBuiltOn (pairs : List (Nat × Nat)) (modules : List (Option PlanModule)) :
    List (Option PlanModule) :=
  modules.map (Option.map (adjustSourceBuiltOn pairs))

def adjustWindowExpr (pairs : List (Nat × Nat)) (we : WindowExpr) : WindowExpr where
  tsvar := adjustNode pairs we.tsvar
  rtref :=
    match pairs.find? fun pair => pair.1 = we.rtref with
    | some (_, newidx) => newidx
    | none => we.rtref

def adjustWindowclauses (pairs : List (Nat × Nat)) (windowClause : Option WindowClause) :
    Option WindowClause :=
  windowClause.map fun clause =>
    { windowExprs := clause.windowExprs.map (adjustWindowExpr pairs)
      max := adjustNode pairs clause.max }

def adjustScan (origrteidx eddyrteidx : Nat) (scan : StrmScan) : StrmScan :=
  { scan with
    scanrelid := eddyrteidx
    targetlist := changeVarNodes scan.targetlist origrteidx eddyrteidx 0
    qual := changeVarNodes scan.qual origrteidx eddyrteidx 0
    seqscanTargetlist := changeVarNodes scan.seqscanTargetlist origrteidx eddyrteidx 0
    seqscanQual := changeVarNodes scan.seqscanQual origrteidx eddyrteidx 0 }

def SourceScan.adjustScan (origrteidx eddyrteidx : Nat) : SourceScan → SourceScan
  | .copied scan => .copied (Renumbering.adjustScan origrteidx eddyrteidx scan)
  | .shared bindings => .shared bindings

def SourceScan.adjustBindings (pairs : List (Nat × Nat)) : SourceScan → SourceScan
  | .copied scan => .copied { scan with bindings := adjustScanBindings pairs scan.bindings }
  | .shared bindings => .shared (adjustScanBindings pairs bindings)

/-! ## Merging -/

def tbaseidx : Nat := tcqMaxSources + 1000000

def Expr.readsAt (τ : Renaming Nat) : Nat → Expr → List Nat
  | _, .nil => []
  | sublevelsUp, .var v =>
    if v.varlevelsup = sublevelsUp then
      v.varno :: if τ v.varno = none then [v.varnoold] else []
    else []
  | sublevelsUp, .rangeTblRef rtindex => if sublevelsUp = 0 then [rtindex] else []
  | sublevelsUp, .joinExpr rtindex args =>
    (if sublevelsUp = 0 then [rtindex] else []) ++ args.readsAt τ sublevelsUp
  | sublevelsUp, .query _ _ parts => parts.readsAt τ (sublevelsUp + 1)
  | sublevelsUp, .node _ args => args.readsAt τ sublevelsUp
  | sublevelsUp, .list head tail => head.readsAt τ sublevelsUp ++ tail.readsAt τ sublevelsUp

def Expr.reads (τ : Renaming Nat) : Expr → List Nat
  | .query resultRelation rowMarks parts => resultRelation :: rowMarks ++ parts.readsAt τ 0
  | expr => expr.readsAt τ 0

def SourceScan.Of (origrteidx : Nat) : SourceScan → Prop
  | .copied scan =>
    scan.scanrelid = origrteidx ∧
      ∀ expr ∈ [scan.targetlist, scan.qual, scan.seqscanTargetlist, scan.seqscanQual],
        ∀ i ∈ expr.reads .identity, i = origrteidx
  | .shared _ => True

structure FreshSource where
  origrteidx : Nat
  eddyrteidx : Nat
  scan : SourceScan
  origrteidx_lt : origrteidx < tbaseidx
  eddyrteidx_lt : eddyrteidx < tbaseidx
  eddyrteidx_pos : 0 < eddyrteidx
  own : scan.Of origrteidx

structure FreshPlan where
  modules : List (Option PlanModule)
  targetlist : Expr
  windowClause : Option WindowClause
  sources : List FreshSource
  distinct : (sources.map FreshSource.origrteidx).Nodup

/-- Each source whose number changes takes the next temporary number. -/
def movesFrom : Nat → List FreshSource → List (Renaming.Move Nat)
  | _, [] => []
  | tempidx, source :: sources =>
    if source.origrteidx ≠ source.eddyrteidx then
      ⟨source.origrteidx, tempidx, source.eddyrteidx⟩ :: movesFrom (tempidx + 1) sources
    else movesFrom tempidx sources

def FreshPlan.moves (fresh : FreshPlan) : List (Renaming.Move Nat) :=
  movesFrom tbaseidx fresh.sources

open Renaming in
def adjustScanAndRt (fresh : FreshPlan) : Except RenumberingFault PlanParts :=
  let scans := fresh.sources.map fun source =>
    source.scan.adjustScan source.origrteidx source.eddyrteidx
  let moves := fresh.moves
  if moves.length = 0 then .ok ⟨fresh.modules, fresh.targetlist, fresh.windowClause, scans⟩
  else do
    let modules ← adjustModules (outward moves) fresh.modules
    let modules ← adjustModules (homeward moves) modules
    let modules := adjustBindingTlists (outward moves) modules
    let modules := adjustBindingTlists (homeward moves) modules
    let modules := adjustStemsSourceBuiltOn (direct moves) modules
    let targetlist := adjustNode (outward moves) fresh.targetlist
    let targetlist := adjustNode (homeward moves) targetlist
    let windowClause := adjustWindowclauses (outward moves) fresh.windowClause
    let windowClause := adjustWindowclauses (homeward moves) windowClause
    let scans := scans.map fun scan =>
      (scan.adjustBindings (outward moves)).adjustBindings (homeward moves)
    .ok ⟨modules, targetlist, windowClause, scans⟩

end TelegraphCQ.Eddy.Renumbering
