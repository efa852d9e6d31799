import Mathlib.Data.Finset.Insert
import TelegraphCQ.Foundation.BinTree
import TelegraphCQ.Foundation.Machine

/-!
# The grouped selection filter

A grouped selection filter (`nodeGSFilter.c`, `nodeFuncs.c`, `eddy.c`) holds the
predicates `expression OP constant` that several queries put on one expression.  The
range predicates live in two binary trees of constants, one for `<` and `<=` and one
for `>` and `>=`; the equality and inequality predicates live in two lists.  A value is
checked against all of them at once, and the queries it fails are marked.

The tree functions take the comparison operator as an argument, as the source takes
the operator's function cache.
-/

namespace TelegraphCQ.Filter

open Foundation

inductive OptrType where
  | lt
  | le
  | gt
  | ge
  | eq
  | ne
  deriving DecidableEq, Repr

structure ConstNode (Const : Type) where
  c : Const
  queries : List Nat
  eqqueries : List Nat
  deriving DecidableEq, Repr

abbrev ConstTree (Const : Type) := BinTree (ConstNode Const)

section Trees

variable {Const : Type}

def ConstNode.addQuery (queryid : Nat) (isRangeEQ : Bool) (n : ConstNode Const) :
    ConstNode Const :=
  if isRangeEQ then { n with eqqueries := queryid :: n.eqqueries }
  else { n with queries := queryid :: n.queries }

def makeConstNode (c : Const) : ConstNode Const := ⟨c, [], []⟩

def addToConstTree [DecidableEq Const] (oper : Const → Const → Bool) (c : Const)
    (queryid : Nat) (isRangeEQ : Bool) : ConstTree Const → ConstTree Const
  | .leaf => .node ((makeConstNode c).addQuery queryid isRangeEQ) .leaf .leaf
  | .node n left right =>
    if c = n.c then .node (n.addQuery queryid isRangeEQ) left right
    else if oper n.c c then
      .node n left (addToConstTree oper c queryid isRangeEQ right)
    else .node n (addToConstTree oper c queryid isRangeEQ left) right

mutual

/-- The tree that replaces a node whose lists have become empty. -/
def removeNodeConstTree : ConstTree Const → ConstTree Const
  | .leaf => .leaf
  | .node _ .leaf .leaf => .leaf
  | .node _ .leaf right => right
  | .node _ left .leaf => left
  | .node _ left (.node m rightLeft rightRight) =>
    match findAndRemoveLeftmostConstTree m rightLeft rightRight with
    | none => .node m left rightRight
    | some (replace, rest) => .node replace left rest

/-- The leftmost node below a given one, with the tree it was taken from; `none`
stands for the node itself, which the caller still has to detach. -/
def findAndRemoveLeftmostConstTree (n : ConstNode Const) :
    ConstTree Const → ConstTree Const → Option (ConstNode Const × ConstTree Const)
  | .leaf, _ => none
  | .node m .leaf below, right =>
    some (m, .node n (removeNodeConstTree (.node m .leaf below)) right)
  | .node m (.node k left below) beside, right =>
    (findAndRemoveLeftmostConstTree m (.node k left below) beside).map
      fun found => (found.1, .node n found.2 right)

end

/-- `lremovei` takes out the first occurrence. -/
def ConstNode.removeQuery (queryid : Nat) (n : ConstNode Const) : ConstNode Const :=
  { n with
    queries := n.queries.erase queryid
    eqqueries := n.eqqueries.erase queryid }

def removeQueryConstTree (queryid : Nat) : ConstTree Const → ConstTree Const
  | .leaf => .leaf
  | .node n left right =>
    let n := n.removeQuery queryid
    let tree := .node n (removeQueryConstTree queryid left)
      (removeQueryConstTree queryid right)
    if n.queries.length = 0 ∧ n.eqqueries.length = 0 then removeNodeConstTree tree
    else tree

def setBits (queries : List Nat) (failed : Finset Nat) : Finset Nat :=
  queries.foldl (fun failed queryid => insert queryid failed) failed

def checkConstTree {Value : Type} (rangeOper eqOper : Value → Const → Bool)
    (value : Value) : ConstTree Const → Finset Nat → Finset Nat
  | .leaf, failed => failed
  | .node n left right, failed =>
    if rangeOper value n.c then checkConstTree rangeOper eqOper value left failed
    else
      let failed := setBits n.queries failed
      let failed :=
        if n.eqqueries ≠ [] ∧ eqOper value n.c = false then
          setBits n.eqqueries failed
        else failed
      checkConstTree rangeOper eqOper value left
        (checkConstTree rangeOper eqOper value right failed)

def verifyConstTree (oper : Const → Const → Bool) :
    Option (Const × Bool) → ConstTree Const → Bool
  | _, .leaf => true
  | parent, .node n left right =>
    (match parent with
      | none => true
      | some (c, expectedReturn) => oper c n.c == expectedReturn) &&
    verifyConstTree oper (some (n.c, false)) left &&
    verifyConstTree oper (some (n.c, true)) right

/-! ## Lists of constants -/

def addToList (oper : Const → Const → Bool) (c : Const) (queryid : Nat)
    (l : List (ConstNode Const)) : List (ConstNode Const) :=
  match l.findIdx? fun n => oper n.c c with
  | some i => l.modify i (ConstNode.addQuery queryid false)
  | none => (makeConstNode c).addQuery queryid false :: l

def removeQueryConstList (queryid : Nat) (l : List (ConstNode Const)) :
    List (ConstNode Const) :=
  l.filterMap fun n =>
    match removeQueryConstTree queryid (.node n .leaf .leaf) with
    | .leaf => none
    | .node n _ _ => some n

def checkConstList {Value : Type} (oper : Value → Const → Bool) (value : Value)
    (l : List (ConstNode Const)) (failed : Finset Nat) : Finset Nat :=
  l.foldl
    (fun failed n => if oper value n.c then failed else setBits n.queries failed) failed

end Trees

/-! ## The filter -/

structure GSFilter (Const : Type) where
  ltmap : ConstTree Const
  rtmap : ConstTree Const
  eqmap : List (ConstNode Const)
  nemap : List (ConstNode Const)
  deriving DecidableEq, Repr

def makeGSFilter (Const : Type) : GSFilter Const := ⟨.leaf, .leaf, [], []⟩

structure Predicate (Const : Type) where
  queryid : Nat
  oper : OptrType
  c : Const
  deriving DecidableEq, Repr

/-- The assertion on `verifyConstTree` after a change of a tree. -/
inductive GSFilterFault where
  | treeOutOfOrder
  deriving DecidableEq, Repr

section Filter

variable {Const : Type} [LinearOrder Const]

def ltOper (a b : Const) : Bool := decide (a < b)

def gtOper (a b : Const) : Bool := decide (a > b)

def eqOper (a b : Const) : Bool := decide (a = b)

def neOper (a b : Const) : Bool := decide (a ≠ b)

def assertOrdered (oper : Const → Const → Bool) (tree : ConstTree Const) :
    Except GSFilterFault (ConstTree Const) :=
  if verifyConstTree oper none tree then .ok tree else .error .treeOutOfOrder

def addQueryToGsf (p : Predicate Const) (gsf : GSFilter Const) :
    Except GSFilterFault (GSFilter Const) :=
  match p.oper with
  | .le =>
    (assertOrdered ltOper (addToConstTree ltOper p.c p.queryid true gsf.ltmap)).map
      fun tree => { gsf with ltmap := tree }
  | .lt =>
    (assertOrdered ltOper (addToConstTree ltOper p.c p.queryid false gsf.ltmap)).map
      fun tree => { gsf with ltmap := tree }
  | .ge =>
    (assertOrdered gtOper (addToConstTree gtOper p.c p.queryid true gsf.rtmap)).map
      fun tree => { gsf with rtmap := tree }
  | .gt =>
    (assertOrdered gtOper (addToConstTree gtOper p.c p.queryid false gsf.rtmap)).map
      fun tree => { gsf with rtmap := tree }
  | .eq => .ok { gsf with eqmap := addToList eqOper p.c p.queryid gsf.eqmap }
  | .ne => .ok { gsf with nemap := addToList neOper p.c p.queryid gsf.nemap }

def processRemoveQueryGSF (queryid : Nat) (gsf : GSFilter Const) :
    Except GSFilterFault (GSFilter Const) := do
  let ltmap ← assertOrdered ltOper (removeQueryConstTree queryid gsf.ltmap)
  let rtmap ← assertOrdered gtOper (removeQueryConstTree queryid gsf.rtmap)
  .ok
    { ltmap := ltmap
      rtmap := rtmap
      eqmap := removeQueryConstList queryid gsf.eqmap
      nemap := removeQueryConstList queryid gsf.nemap }

/-- An operator on a value that may be NULL, whose result is then taken as false. -/
def onValue (oper : Const → Const → Bool) : Option Const → Const → Bool
  | none, _ => false
  | some value, c => oper value c

def rangeFailed (gsf : GSFilter Const) (value : Option Const) : Finset Nat :=
  checkConstTree (onValue gtOper) (onValue eqOper) value gsf.rtmap
    (checkConstTree (onValue ltOper) (onValue eqOper) value gsf.ltmap ∅)

def eqFailed (gsf : GSFilter Const) (value : Option Const) : Finset Nat :=
  checkConstList (onValue neOper) value gsf.nemap
    (checkConstList (onValue eqOper) value gsf.eqmap ∅)

/-! ## Runs -/

inductive GSFilterOp (Const : Type) where
  | insert (p : Predicate Const)
  | removeQuery (queryid : Nat)
  deriving DecidableEq, Repr

def gsfStep (gsf : GSFilter Const) :
    GSFilterOp Const → List Unit × Except GSFilterFault (GSFilter Const)
  | .insert p => ([], addQueryToGsf p gsf)
  | .removeQuery queryid => ([], processRemoveQueryGSF queryid gsf)

def gsfMachine : Machine (GSFilter Const) (GSFilterOp Const) Unit GSFilterFault where
  step := gsfStep

end Filter

end TelegraphCQ.Filter
