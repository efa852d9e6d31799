import Mathlib.Algebra.Order.Ring.Rat
import TelegraphCQ.Foundation.Machine
import TelegraphCQ.Foundation.Ring

/-!
# State modules

A state module (`nodeSteM.c`) is a hash table of the tuples of one source.  A windowed
state module (`nodeFSteM.c`) spreads its tuples over a ring of three of them: a new one
is started when the current one spans half the window, and the oldest is dropped as a
whole once its newest tuple has left the window.

A hash table is a list of tuples with their bucket numbers, latest first; the chain of
a bucket is the sublist with its number.
-/

namespace TelegraphCQ.Stems

open Foundation

/-- How a state module reads its tuples: their timestamps, and the join key they are
hashed on, which is `none` when NULL. -/
structure Schema (Tuple Key : Type) where
  timestamp : Tuple → ℚ
  innerhashkey : Tuple → Option Key
  hashFunc : Key → Nat
  totalbuckets : Nat

inductive FSteMFault where
  | insertDuringProbe
  | nullSubSteM
  | probePending
  | outerPending
  | probeUnfinished
  deriving DecidableEq, Repr

structure SteM (Tuple : Type) where
  entries : List (Nat × Tuple)
  oldest : Option Tuple
  newest : Option Tuple
  needNewOuter : Bool
  cursor : List Tuple

section Stems

variable {Tuple Key : Type} (schema : Schema Tuple Key)

def newSteM : SteM Tuple := ⟨[], none, none, true, []⟩

def execSteMHashGetBucket : Option Key → Nat
  | none => 0
  | some key => schema.hashFunc key % schema.totalbuckets

def SteM.bucket (bucketno : Nat) (stem : SteM Tuple) : List Tuple :=
  (stem.entries.filter fun entry => entry.1 = bucketno).map Prod.snd

def SteM.tuples (stem : SteM Tuple) : List Tuple := (stem.entries.map Prod.snd).reverse

def execSteMInsert (tuple : Tuple) (stem : SteM Tuple) : SteM Tuple :=
  { stem with
    entries :=
      (execSteMHashGetBucket schema (schema.innerhashkey tuple), tuple) :: stem.entries
    oldest := stem.oldest.or (some tuple)
    newest := some tuple }

/-- A probe: the value of the outer hash key, and the join clauses, which compare it
with the inner hash key and fail on NULL. -/
structure Probe where
  outerhashkey : Option Key
  stemclauses : Tuple → Bool
  clauses_key : ∀ tuple, stemclauses tuple = true →
    outerhashkey ≠ none ∧ schema.innerhashkey tuple = outerhashkey

def execSteMSetNewOuter (probe : Probe schema) (stem : SteM Tuple) :
    Except FSteMFault (SteM Tuple) :=
  if stem.needNewOuter then
    .ok
      { stem with
        needNewOuter := false
        cursor := stem.bucket (execSteMHashGetBucket schema probe.outerhashkey) }
  else .error .outerPending

def execSteM (stemclauses : Tuple → Bool) (stem : SteM Tuple) :
    Option Tuple × SteM Tuple :=
  if stem.needNewOuter then (none, stem)
  else
    match stem.cursor.dropWhile fun tuple => !stemclauses tuple with
    | [] => (none, { stem with needNewOuter := true, cursor := [] })
    | tuple :: rest => (some tuple, { stem with cursor := rest })

/-! ## The ring of sub-SteMs -/

/-- `windowSize` is the size in the two window expressions once these exist, and
`tsComp` the size that the comparison with a new window was created with. -/
structure FSteM (Tuple : Type) where
  substems : Ring 3 (SteM Tuple)
  probeIndex : Option (Fin 3)
  haveprobe : Bool
  windowSize : Option ℚ
  tsComp : Option ℚ
  windowExprIsValid : Bool

def FSteM.window (node : FSteM Tuple) : Option ℚ :=
  if node.windowExprIsValid then node.windowSize else none

def FSteM.retained (node : FSteM Tuple) : List Tuple :=
  node.substems.toList.flatMap SteM.tuples

def addWindowFSteM (size : ℚ) (node : FSteM Tuple) : FSteM Tuple :=
  let current := node.windowSize.getD size
  let compared := node.tsComp.getD current
  { node with
    windowSize := some (if size > compared then size else current)
    tsComp := some compared
    windowExprIsValid := true }

def clearWindowFSteM (node : FSteM Tuple) : FSteM Tuple :=
  { node with windowExprIsValid := false }

def fsteMSubSteMHasExpired (size : ℚ) (tuple : Tuple) (stem : SteM Tuple) : Bool :=
  match stem.newest with
  | none => false
  | some newest => decide (schema.timestamp tuple - schema.timestamp newest > size)

def fsteMTupleFitsInSubSteM (window : Option ℚ) (tuple : Tuple) (stem : SteM Tuple) :
    Bool :=
  match window, stem.oldest with
  | some size, some oldest =>
    decide (schema.timestamp tuple - schema.timestamp oldest < size / 2)
  | _, _ => true

def endFirstSubSteM (node : FSteM Tuple) : FSteM Tuple :=
  if node.substems.last = node.substems.first then
    { node with
      substems := node.substems.dropFirst
      probeIndex := none
      haveprobe := false }
  else
    { node with
      substems := node.substems.dropFirst
      probeIndex :=
        if node.probeIndex = node.substems.first then node.substems.dropFirst.first
        else node.probeIndex }

/-- The loop ends a sub-SteM in each round, so that three rounds are enough. -/
def fsteMGCSubstems (tuple : Tuple) : Nat → FSteM Tuple → Except FSteMFault (FSteM Tuple)
  | 0, node => .ok node
  | rounds + 1, node =>
    match node.window, node.substems.first with
    | some size, some first =>
      match node.substems.slots first with
      | none => .error .nullSubSteM
      | some stem =>
        if fsteMSubSteMHasExpired schema size tuple stem then
          fsteMGCSubstems tuple rounds (endFirstSubSteM node)
        else .ok node
    | _, _ => .ok node

/-- When there is no free slot the current sub-SteM stays in use. -/
def fsteMMakeSpaceForInsert (tuple : Tuple) (node : FSteM Tuple) :
    Except FSteMFault (FSteM Tuple) :=
  match node.substems.last with
  | none => .ok { node with substems := node.substems.start 0 newSteM }
  | some last =>
    match node.substems.slots last with
    | none => .error .nullSubSteM
    | some stem =>
      if fsteMTupleFitsInSubSteM schema node.window tuple stem then .ok node
      else .ok { node with substems := node.substems.pushNext newSteM }

/-- The insertion, with whether the sub-SteM it went to accepts the tuple. -/
def fsteMInsert (tuple : Tuple) (node : FSteM Tuple) :
    Except FSteMFault (Bool × FSteM Tuple) :=
  if node.haveprobe then .error .insertDuringProbe
  else do
    let node ← fsteMGCSubstems schema tuple 3 node
    let node ← fsteMMakeSpaceForInsert schema tuple node
    match node.substems.last with
    | none => .error .nullSubSteM
    | some last =>
      match node.substems.slots last with
      | none => .error .nullSubSteM
      | some stem =>
        .ok (fsteMTupleFitsInSubSteM schema node.window tuple stem,
          { node with
            substems := node.substems.put last (execSteMInsert schema tuple stem) })

def setNewOuterFrom (probe : Probe schema) :
    Nat → Fin 3 → FSteM Tuple → Except FSteMFault (FSteM Tuple)
  | 0, _, node => .ok node
  | rounds + 1, current, node =>
    match node.substems.slots current with
    | none => .error .nullSubSteM
    | some stem => do
        let stem ← execSteMSetNewOuter schema probe stem
        let node := { node with substems := node.substems.put current stem }
        if node.substems.last = some current then .ok node
        else setNewOuterFrom probe rounds (Ring.next current) node

def fsteMSetNewOuter (probe : Probe schema) (node : FSteM Tuple) :
    Except FSteMFault (FSteM Tuple) :=
  match node.substems.first with
  | none => .ok node
  | some first =>
    if node.probeIndex ≠ none then .error .probePending
    else setNewOuterFrom schema probe 3 first node

/-- `FSteMGetNextOutput` calls itself once for each exhausted sub-SteM. -/
def getNextOutputFrom (stemclauses : Tuple → Bool) :
    Nat → Fin 3 → FSteM Tuple → Except FSteMFault (Option Tuple × FSteM Tuple)
  | 0, _, _ => .error .probeUnfinished
  | rounds + 1, current, node =>
    match node.substems.slots current with
    | none => .error .nullSubSteM
    | some stem =>
      let node :=
        { node with
          probeIndex := some current
          substems := node.substems.put current (execSteM stemclauses stem).2 }
      match (execSteM stemclauses stem).1 with
      | some tuple => .ok (some tuple, node)
      | none =>
        if node.substems.last = some current then
          .ok (none, { node with probeIndex := none })
        else getNextOutputFrom stemclauses rounds (Ring.next current) node

def fsteMGetNextOutput (stemclauses : Tuple → Bool) (node : FSteM Tuple) :
    Except FSteMFault (Option Tuple × FSteM Tuple) :=
  match node.substems.first with
  | none => .ok (none, node)
  | some first => getNextOutputFrom stemclauses 3 (node.probeIndex.getD first) node

def drainProbe (stemclauses : Tuple → Bool) :
    Nat → FSteM Tuple → Except FSteMFault (List Tuple × FSteM Tuple)
  | 0, _ => .error .probeUnfinished
  | calls + 1, node => do
      let (found, node) ← fsteMGetNextOutput stemclauses node
      match found with
      | none => .ok ([], { node with haveprobe := false })
      | some tuple => do
          let (rest, node) ← drainProbe stemclauses calls node
          .ok (tuple :: rest, node)

def fsteMProbe (probe : Probe schema) (node : FSteM Tuple) :
    Except FSteMFault (List Tuple × FSteM Tuple) := do
  let node ← fsteMSetNewOuter schema probe node
  drainProbe probe.stemclauses (node.retained.length + 1) { node with haveprobe := true }

def processInitFSteM : FSteM Tuple where
  substems := Ring.start 0 newSteM ⟨fun _ => none, none, none⟩
  probeIndex := none
  haveprobe := false
  windowSize := none
  tsComp := none
  windowExprIsValid := false

/-! ## Runs -/

inductive FSteMOp where
  | insert (tuple : Tuple)
  | probe (probe : Probe schema)
  | addWindow (size : ℚ)
  | clearWindow

/-- What a step shows: an insertion with the window in force and whether a sub-SteM
accepted the tuple, or the results of a probe. -/
inductive FSteMOut (Tuple : Type) where
  | inserted (tuple : Tuple) (window : Option ℚ) (accepted : Bool)
  | probed (results : List Tuple)
  deriving DecidableEq, Repr

def fsteMStep (node : FSteM Tuple) :
    FSteMOp schema → List (FSteMOut Tuple) × Except FSteMFault (FSteM Tuple)
  | .insert tuple =>
    match fsteMInsert schema tuple node with
    | .error fault => ([], .error fault)
    | .ok (accepted, next) => ([.inserted tuple node.window accepted], .ok next)
  | .probe probe =>
    match fsteMProbe schema probe node with
    | .error fault => ([], .error fault)
    | .ok (results, next) => ([.probed results], .ok next)
  | .addWindow size => ([], .ok (addWindowFSteM size node))
  | .clearWindow => ([], .ok (clearWindowFSteM node))

def fsteMMachine :
    Machine (FSteM Tuple) (FSteMOp schema) (FSteMOut Tuple) FSteMFault where
  step := fsteMStep schema

end Stems

end TelegraphCQ.Stems
