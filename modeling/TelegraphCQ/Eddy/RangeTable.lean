import Mathlib.Data.Finset.Card
import TelegraphCQ.Eddy.Fjord
import TelegraphCQ.Foundation.Machine
import TelegraphCQ.Foundation.Slots

/-!
# The range table of the shared eddy

The eddy has a range table of its own and an array of sources (`eddy.c`).  A query that is
admitted brings its scans with their numbers in its own range table; relations are looked up
in the range table of the eddy, and those that are missing get an entry and a source, each in
the first place that is free.  The number of an entry, counted from one, is the operator
number of its source.  The last query that uses a source takes both with it.

An entry without a relation has the relid `InvalidOid`.  Scans have no bindings.
-/

namespace TelegraphCQ.Eddy.RangeTable

open Foundation

inductive Scan (Rel : Type) where
  | seqScan (scanrelid : Nat)
  | strmScan (scanrelid : Nat) (streamoid : Rel)
  deriving DecidableEq, Repr

structure SourceModule (Rel : Type) where
  scan : Scan Rel
  /-- The relation that the initialization of the scan opened. -/
  currentRelation : Rel
  operator : Nat
  usedByQueries : List Nat
  deriving DecidableEq, Repr

structure SourceTables (Rel : Type) where
  rangetable : List (Option Rel)
  sources : List (Option (SourceModule Rel))
  deriving DecidableEq, Repr

inductive SourceFault where
  | noRelation
  | entryInUse
  | tooManySources
  | otherVarNo
  | badRangeTable
  deriving DecidableEq, Repr

section Tables

variable {Rel : Type}

def Scan.scanrelid : Scan Rel → Nat
  | .seqScan scanrelid => scanrelid
  | .strmScan scanrelid _ => scanrelid

def Scan.adjust (eddyrteidx : Nat) : Scan Rel → Scan Rel
  | .seqScan _ => .seqScan eddyrteidx
  | .strmScan _ streamoid => .strmScan eddyrteidx streamoid

def sourceGetVarNo (scan : Scan Rel) : Nat := scan.scanrelid

def rtFetch (idx : Nat) (rangetable : List (Option Rel)) : Option (Option Rel) :=
  if idx = 0 then none else rangetable[idx - 1]?

/-- The scans of a query name relations, and its stream scans their own. -/
def Scan.Names (rtable : List (Option Rel)) : Scan Rel → Prop
  | .seqScan scanrelid => ∃ rel, rtFetch scanrelid rtable = some (some rel)
  | .strmScan scanrelid streamoid => rtFetch scanrelid rtable = some (some streamoid)

structure FreshEddy (Rel : Type) where
  rtable : List (Option Rel)
  sources : List (Scan Rel)
  names : ∀ scan ∈ sources, scan.Names rtable

def getRealSourceOid : Option (SourceModule Rel) → Option Rel
  | none => none
  | some source =>
    match source.scan with
    | .seqScan _ => some source.currentRelation
    | .strmScan _ streamoid => some streamoid

def getNumActiveSources (tables : SourceTables Rel) : Nat :=
  (tables.sources.filterMap id).length

variable [DecidableEq Rel]

def findRte (scanoid : Rel) : List (Option Rel) → Nat → Option Nat → Option Nat × Option Nat
  | [], _, unusedidx => (none, unusedidx)
  | rte :: rest, idx, unusedidx =>
    if rte = some scanoid then (some idx, unusedidx)
    else
      findRte scanoid rest (idx + 1)
        (if unusedidx = none ∧ rte = none then some idx else unusedidx)

def enterRelation (scanoid : Rel) (rangetable : List (Option Rel)) :
    Except SourceFault (Nat × List (Option Rel)) :=
  match findRte scanoid rangetable 1 none with
  | (some idx, _) => .ok (idx, rangetable)
  | (none, some unusedidx) =>
    if rtFetch unusedidx rangetable ≠ some none then .error .entryInUse
    else .ok (unusedidx, rangetable.set (unusedidx - 1) (some scanoid))
  | (none, none) => .ok (rangetable.length + 1, rangetable ++ [some scanoid])

def addPlanitemToEddy (source : SourceModule Rel) (tables : SourceTables Rel) :
    Except SourceFault (SourceTables Rel) :=
  if ¬ getNumActiveSources tables + 1 ≤ tcqMaxSources then .error .tooManySources
  else .ok { tables with sources := fillHole source tables.sources }

def isOperator (eddyrteidx : Nat) : Option (SourceModule Rel) → Bool
  | none => false
  | some source => source.operator == eddyrteidx

def addQueryTo (eddyrteidx queryid : Nat) (source : SourceModule Rel) : SourceModule Rel :=
  if source.operator = eddyrteidx then
    { source with usedByQueries := fjordAddQuery queryid source.usedByQueries }
  else source

def addSource (scan : Scan Rel) (eddyrteidx queryid : Nat) (tables : SourceTables Rel) :
    Except SourceFault (SourceTables Rel) :=
  match rtFetch eddyrteidx tables.rangetable with
  | some (some currentRelation) => do
      let source := ⟨scan.adjust eddyrteidx, currentRelation, eddyrteidx, [queryid]⟩
      let tables ← addPlanitemToEddy source tables
      match tables.sources[eddyrteidx - 1]? with
      | some (some there) =>
        if sourceGetVarNo there.scan = eddyrteidx then .ok tables else .error .otherVarNo
      | _ => .error .otherVarNo
  | _ => .error .noRelation

def adjustScan (queryid : Nat) (rtable : List (Option Rel)) (scan : Scan Rel)
    (tables : SourceTables Rel) : Except SourceFault (SourceTables Rel) :=
  match rtFetch scan.scanrelid rtable with
  | some (some scanoid) => do
      let (eddyrteidx, rangetable) ← enterRelation scanoid tables.rangetable
      let tables := { tables with rangetable := rangetable }
      if tables.sources.any (isOperator eddyrteidx) then
        .ok { tables with
          sources := tables.sources.map (Option.map (addQueryTo eddyrteidx queryid)) }
      else addSource scan eddyrteidx queryid tables
  | _ => .error .noRelation

def adjustScanAndRt (queryid : Nat) (rtable : List (Option Rel)) :
    List (Scan Rel) → SourceTables Rel → Except SourceFault (SourceTables Rel)
  | [], tables => .ok tables
  | scan :: scans, tables => do
      adjustScanAndRt queryid rtable scans (← adjustScan queryid rtable scan tables)

/-! ## Removal -/

def removeSourceFromRt (rteidx : Nat) (rangetable : List (Option Rel)) : List (Option Rel) :=
  rangetable.set (rteidx - 1) none

def removeFromSources (queryid : Nat) :
    List (Option (SourceModule Rel)) → List (Option Rel) →
      List (Option (SourceModule Rel)) × List (Option Rel)
  | [], rangetable => ([], rangetable)
  | none :: rest, rangetable =>
    let (rest, rangetable) := removeFromSources queryid rest rangetable
    (none :: rest, rangetable)
  | some source :: rest, rangetable =>
    let usedByQueries := fjordRemoveQuery queryid source.usedByQueries
    if usedByQueries.length = 0 then
      let (rest, rangetable) :=
        removeFromSources queryid rest (removeSourceFromRt source.operator rangetable)
      (none :: rest, rangetable)
    else
      let (rest, rangetable) := removeFromSources queryid rest rangetable
      (some { source with usedByQueries := usedByQueries } :: rest, rangetable)

def sanityCheckRtSources (tables : SourceTables Rel) : Bool :=
  (List.range tables.rangetable.length).all fun i =>
    (tables.rangetable[i]?).join == (tables.sources[i]?).bind getRealSourceOid &&
      decide (i < tables.sources.length)

def removeQuery (queryid : Nat) (tables : SourceTables Rel) :
    Except SourceFault (SourceTables Rel) :=
  let (sources, rangetable) := removeFromSources queryid tables.sources tables.rangetable
  if sanityCheckRtSources ⟨rangetable, sources⟩ then .ok ⟨rangetable, sources⟩
  else .error .badRangeTable

/-! ## Runs -/

inductive QueryOp (Rel : Type) where
  | addPlan (queryid : Nat) (fresh : FreshEddy Rel)
  | removeQuery (queryid : Nat)

def queryStep (tables : SourceTables Rel) :
    QueryOp Rel → List Unit × Except SourceFault (SourceTables Rel)
  | .addPlan queryid fresh => ([], adjustScanAndRt queryid fresh.rtable fresh.sources tables)
  | .removeQuery queryid => ([], removeQuery queryid tables)

def queryMachine : Machine (SourceTables Rel) (QueryOp Rel) Unit SourceFault where
  step := queryStep

def emptyTables : SourceTables Rel := ⟨[], []⟩

end Tables

end TelegraphCQ.Eddy.RangeTable
