import TelegraphCQ.Foundation.Cycle
import TelegraphCQ.Foundation.Machine

/-!
# The sliced aggregate node

The `FAgg` node of `nodeFAgg.c` for a window clause with slices.  The widths of the slices
are gone through cyclically from the start time on.  A tuple before the next edge joins
the live list; a tuple at or past the edge is put aside as pending, and the aggregate is
run over the live list.

The aggregation plan is a function from the tuples of a run to its results.  The first
call of a run pulls the tuples through `ExecFAgg` up to the end of the live list; each
call returns one result, until there is none left.

The memory contexts in which tuples are kept are left out.
-/

namespace TelegraphCQ.Window

open Foundation

structure SlicedWindowState where
  slices : List Int
  curSlice : List Int
  nextEdge : Int
  deriving DecidableEq, Repr

inductive SlicesPhase where
  | beforeStart
  | reading
  | runningAgg
  | finishingAgg
  | punctuating
  deriving DecidableEq, Repr

/-- `noSlice` is a null list cell; the others are assertions. -/
inductive SlicesFault where
  | noSlice
  | nothingPending
  | nonePendingBeforeStart
  | pulledOutsideWindow
  | endedEarly
  deriving DecidableEq, Repr

structure FAggSlices (Tuple Result : Type) where
  state : SlicesPhase
  startAt : Int
  swstate : SlicedWindowState
  pending : List Tuple
  liveTuples : List Tuple
  /-- What the iterator over the live list has still to deliver. -/
  liveTuplesCur : List Tuple
  nextSlideTime : Int
  wtime : Int
  /-- Whether the descriptor of the result tuples is known. -/
  outputTdesc : Bool
  /-- The results that the aggregation plan has still to return, once it has pulled its
  tuples. -/
  aggPlan : Option (List Result)
  deriving DecidableEq, Repr

/-- What can be seen of the node: the tuples that a run of the plan pulls, and what goes
to the output queue. -/
inductive SlicesOut (Tuple Result : Type) where
  | pulled (wtime : Int) (tuples : List Tuple)
  | result (value : Result)
  | punct (nextSlideTime : Int)
  deriving DecidableEq, Repr

def createSlicedWindowState (startAt : Int) (slices : List Int) :
    Except SlicesFault SlicedWindowState :=
  match slices with
  | [] => .error .noSlice
  | first :: _ => .ok ⟨slices, slices, startAt + first⟩

def slicedWindowAdvance (sws : SlicedWindowState) : Except SlicesFault SlicedWindowState :=
  match if sws.curSlice.tail = [] then sws.slices else sws.curSlice.tail with
  | [] => .error .noSlice
  | slice :: rest =>
    .ok { sws with curSlice := slice :: rest, nextEdge := sws.nextEdge + slice }

section Node

variable {Tuple Result : Type}

def faggAddSlices (startAt : Int) (slices : List Int) :
    Except SlicesFault (FAggSlices Tuple Result) := do
  let swstate ← createSlicedWindowState startAt slices
  return {
    state := .beforeStart
    startAt := startAt
    swstate := swstate
    pending := []
    liveTuples := []
    liveTuplesCur := []
    nextSlideTime := swstate.nextEdge
    wtime := 0
    outputTdesc := false
    aggPlan := none }

def addToLiveList (tuple : Tuple) (node : FAggSlices Tuple Result) :
    FAggSlices Tuple Result :=
  { node with liveTuples := node.liveTuples ++ [tuple] }

/-- File a tuple, which goes back to the head of the pending list when it is past the
edge. -/
def fileTuple (ts : Int) (tuple : Tuple) (node : FAggSlices Tuple Result) :
    Except SlicesFault (FAggSlices Tuple Result) :=
  if node.swstate.nextEdge ≤ ts then do
    let swstate ← slicedWindowAdvance node.swstate
    return { node with
      wtime := node.swstate.nextEdge
      liveTuplesCur := node.liveTuples
      state := .runningAgg
      swstate := swstate
      nextSlideTime := swstate.nextEdge
      pending := tuple :: node.pending }
  else return addToLiveList tuple node

/-- Without an input tuple the first pending one is taken; with one it is appended to the
pending tuples, if there are any. -/
def nextTuple (iiht : Option Tuple) (pending : List Tuple) :
    Except SlicesFault (Tuple × List Tuple) :=
  match iiht, pending with
  | none, [] => .error .nothingPending
  | none, first :: rest => .ok (first, rest)
  | some tuple, [] => .ok (tuple, [])
  | some tuple, first :: rest => .ok (first, rest ++ [tuple])

def addNewTupleSlices (getTS : Tuple → Int) (iiht : Option Tuple)
    (node : FAggSlices Tuple Result) : Except SlicesFault (FAggSlices Tuple Result) := do
  let (tuple, pending) ← nextTuple iiht node.pending
  let node := { node with pending := pending }
  if node.state = .beforeStart then
    if node.startAt ≤ getTS tuple then
      fileTuple (getTS tuple) tuple { node with state := .reading }
    else if pending = [] then throw .nonePendingBeforeStart
    else return node
  else fileTuple (getTS tuple) tuple node

def execFAggSlices (node : FAggSlices Tuple Result) :
    Except SlicesFault (Option Tuple × FAggSlices Tuple Result) :=
  if node.state = .runningAgg then
    match node.liveTuplesCur with
    | [] => .ok (none, { node with state := .finishingAgg })
    | tuple :: rest => .ok (some tuple, { node with liveTuplesCur := rest })
  else .error .pulledOutsideWindow

def pullWindow : List Tuple → FAggSlices Tuple Result →
    Except SlicesFault (List Tuple × FAggSlices Tuple Result)
  | [], node => do
      let (tuple, node) ← execFAggSlices node
      return (tuple.toList, node)
  | _ :: rest, node => do
      let (tuple, node) ← execFAggSlices node
      let (tuples, node) ← pullWindow rest node
      return (tuple.toList ++ tuples, node)

def execAggPlan (plan : List Tuple → List Result) (node : FAggSlices Tuple Result) :
    List (SlicesOut Tuple Result) ×
      Except SlicesFault (Option Result × FAggSlices Tuple Result) :=
  match node.aggPlan with
  | some results => ([], .ok (results.head?, { node with aggPlan := some results.tail }))
  | none =>
    match pullWindow node.liveTuplesCur node with
    | .error fault => ([], .error fault)
    | .ok (tuples, node) =>
      ([.pulled node.wtime tuples],
        .ok ((plan tuples).head?, { node with aggPlan := some (plan tuples).tail }))

def resetAggTree (node : FAggSlices Tuple Result) : FAggSlices Tuple Result :=
  { node with aggPlan := none }

def faggScheduleSlices (plan : List Tuple → List Result) (node : FAggSlices Tuple Result) :
    List (SlicesOut Tuple Result) × Except SlicesFault (FAggSlices Tuple Result) :=
  match execAggPlan plan node with
  | (outs, .error fault) => (outs, .error fault)
  | (outs, .ok (some value, node)) =>
    (outs ++ [.result value], .ok { node with outputTdesc := true })
  | (outs, .ok (none, node)) =>
    if node.state ≠ .finishingAgg then (outs, .error .endedEarly)
    else if node.outputTdesc then
      (outs ++ [.punct node.nextSlideTime], .ok { node with state := .punctuating })
    else
      -- no punctuation can be built without a descriptor; the live list is kept
      (outs, .ok { resetAggTree node with state := .reading })

/-- The part of a call after the input queue has been looked at. -/
def processStateSlices (getTS : Tuple → Int) (plan : List Tuple → List Result)
    (deqsucc : Bool) (node : FAggSlices Tuple Result) :
    List (SlicesOut Tuple Result) × Except SlicesFault (FAggSlices Tuple Result) :=
  match node.state with
  | .beforeStart | .reading =>
    if deqsucc = false ∧ node.pending ≠ [] then
      match addNewTupleSlices getTS none node with
      | .error fault => ([], .error fault)
      | .ok node =>
        if node.state = .runningAgg then faggScheduleSlices plan node else ([], .ok node)
    else ([], .ok node)
  | .runningAgg | .finishingAgg => faggScheduleSlices plan node
  | .punctuating =>
    ([], .ok { resetAggTree node with
      state := .reading
      liveTuples := []
      liveTuplesCur := [] })

def processNextFAggSlices (getTS : Tuple → Int) (plan : List Tuple → List Result)
    (iiht : Option Tuple) (node : FAggSlices Tuple Result) :
    List (SlicesOut Tuple Result) × Except SlicesFault (FAggSlices Tuple Result) :=
  match iiht with
  | none => processStateSlices getTS plan false node
  | some tuple =>
    match addNewTupleSlices getTS (some tuple) node with
    | .error fault => ([], .error fault)
    | .ok node => processStateSlices getTS plan true node

/-! ## The stream of tuples

The eddy offers the next tuple of the stream with a call or makes the call without one.
The tuple is only put into the input queue when the node accepts input. -/

def SlicesPhase.AcceptsInput (state : SlicesPhase) : Prop :=
  state = .beforeStart ∨ state = .reading

instance (state : SlicesPhase) : Decidable state.AcceptsInput :=
  inferInstanceAs (Decidable (_ ∨ _))

structure SlicesFeed (Tuple Result : Type) where
  node : FAggSlices Tuple Result
  stream : List Tuple
  deriving DecidableEq, Repr

def feedStep (getTS : Tuple → Int) (plan : List Tuple → List Result)
    (feed : SlicesFeed Tuple Result) (offer : Bool) :
    List (SlicesOut Tuple Result) × Except SlicesFault (SlicesFeed Tuple Result) :=
  let iiht := if offer ∧ feed.node.state.AcceptsInput then feed.stream.head? else none
  let called := processNextFAggSlices getTS plan iiht feed.node
  (called.1, called.2.map fun node =>
    ⟨node, if iiht.isSome then feed.stream.tail else feed.stream⟩)

def feedMachine (getTS : Tuple → Int) (plan : List Tuple → List Result) :
    Machine (SlicesFeed Tuple Result) Bool (SlicesOut Tuple Result) SlicesFault where
  step := feedStep getTS plan

def runSlices (getTS : Tuple → Int) (plan : List Tuple → List Result) (startAt : Int)
    (slices : List Int) (stream : List Tuple) (schedule : List Bool) :
    List (SlicesOut Tuple Result) × Except SlicesFault (SlicesFeed Tuple Result) :=
  match faggAddSlices startAt slices with
  | .error fault => ([], .error fault)
  | .ok node => (feedMachine getTS plan).run ⟨node, stream⟩ schedule

def pulledRuns (outs : List (SlicesOut Tuple Result)) : List (List Tuple) :=
  outs.filterMap fun
    | .pulled _ tuples => some tuples
    | _ => none

end Node

end TelegraphCQ.Window
