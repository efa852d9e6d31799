import TelegraphCQ.Foundation.Groups
import TelegraphCQ.Foundation.Machine
import TelegraphCQ.Window.Arithmetic

/-!
# The range/slide aggregate node

The `FAgg` node of `nodeFAgg.c` in its range/slide mode.  The node keeps the
tuples of the current window in a live list.  An arriving tuple is filed, by
the end of its first window, in an activation group and, by the end of the
window after its last one, in a deactivation group; each slide moves one group
of each kind.

The aggregation plan above the node is foreign code that pulls tuples through
`ExecFAgg`.  One call of it is described by an `AggCall`: how many tuples it
pulls and whether it returns a result.  The operator tree's assertions about
that protocol are faults of their own, apart from those of the window code.
-/

namespace TelegraphCQ.Window

open Foundation

/-- A timestamp with the sentinels `DT_NOBEGIN` (bottom) and `DT_NOEND` (top). -/
abbrev Timestamp := WithBot (WithTop Int)

instance Timestamp.linearOrder : LinearOrder Timestamp :=
  @WithBot.linearOrder _ (@WithTop.linearOrder _ Int.instLinearOrder)

instance Timestamp.preorder : Preorder Timestamp := Timestamp.linearOrder.toPreorder

def Timestamp.noBegin : Timestamp := ⊥

def Timestamp.noEnd : Timestamp := ((⊤ : WithTop Int) : WithBot (WithTop Int))

abbrev Timestamp.at (t : Int) : Timestamp := ((t : WithTop Int) : WithBot (WithTop Int))

inductive FAggPhase where
  | noWindowExpr
  | reading
  | runningAgg
  | finishingAgg
  | punctuating
  deriving DecidableEq, Repr

inductive FAggFault where
  | invalidState
  | noWindow
  | currentTimeUnset
  | activationBehind
  | deactivationBehind
  | notLive
  | nonFiniteTime
  | windowNumber
  | windowStuck
  | pulledOutsideWindow
  | endedEarly
  deriving DecidableEq, Repr

/-- Faults that only a misbehaving aggregation plan can cause. -/
def FAggFault.ofAggPlan : FAggFault → Bool
  | .pulledOutsideWindow | .endedEarly => true
  | _ => false

/-- The execution state of one window clause.  `getTS` reads the timestamp
attribute that the clause refers to. -/
structure WindowState (Tuple : Type) where
  spec : WindowSpec
  getTS : Tuple → Int
  lastTSSeen : Timestamp

/-- A list node; `id` is the identity of the allocated cell. -/
structure TupleNode (Tuple : Type) where
  id : Nat
  tuple : Tuple
  deriving DecidableEq, Repr

structure FAgg (Tuple : Type) where
  state : FAggPhase
  windowStates : List (WindowState Tuple)
  currentTime : Timestamp
  nextSlideTime : Timestamp
  lastSlideTime : Timestamp
  latestSlideTime : Timestamp
  wtime : Timestamp
  liveTuples : List (TupleNode Tuple)
  /-- What the iterator over the live list has still to deliver. -/
  liveTuplesCur : List (TupleNode Tuple)
  activationGroups : Groups Timestamp (TupleNode Tuple)
  deactivationGroups : Groups Timestamp (TupleNode Tuple)
  totalEntered : Nat
  /-- Whether the descriptor of the result tuples is known. -/
  outputTdesc : Bool

variable {Tuple : Type}

def windowStateGetFirstChange (ws : WindowState Tuple) : Timestamp :=
  .at (ws.spec.startAt + ws.spec.rangeBy)

def windowStateUpdateMaxTS (tuple : Tuple) (ws : WindowState Tuple) :
    WindowState Tuple :=
  if ws.lastTSSeen < .at (ws.getTS tuple) then
    { ws with lastTSSeen := .at (ws.getTS tuple) }
  else ws

/-- Birth and death of a tuple for one window clause.  For a tuple that belongs
to no window the source sets the birth only; the missing death is `none`. -/
def windowStateGetLifetime (nonFinite : Int → Int) (ws : WindowState Tuple)
    (tuple : Tuple) : Timestamp × Option Timestamp :=
  let ts := ws.getTS tuple
  let first := firstWindowNo nonFinite ws.spec ts
  let last := lastWindowNo nonFinite ws.spec ts
  if first = -1 then
    (.noEnd, none)
  else
    (.at (windowEnd ws.spec first), some (.at (windowEnd ws.spec (last + 1))))

def windowStateGetNextSlide (nonFinite : Int → Int) (ws : WindowState Tuple) :
    Timestamp → Except FAggFault Timestamp
  | some (some ts) =>
    let windowNum := firstWindowPast nonFinite ws.spec ts
    if 0 < windowNum then .ok (.at (windowEnd ws.spec windowNum))
    else .error .windowNumber
  | _ => .error .nonFiniteTime

def processInitFAgg : FAgg Tuple where
  state := .noWindowExpr
  windowStates := []
  currentTime := .noBegin
  nextSlideTime := .noBegin
  lastSlideTime := .noBegin
  latestSlideTime := .noBegin
  wtime := .noBegin
  liveTuples := []
  liveTuplesCur := []
  activationGroups := []
  deactivationGroups := []
  totalEntered := 0
  outputTdesc := false

def faggAddWindowExprs (windowStates : List (WindowState Tuple))
    (node : FAgg Tuple) : Except FAggFault (FAgg Tuple) :=
  let start : FAgg Tuple :=
    { node with
      windowStates := windowStates.reverse
      nextSlideTime := .noEnd
      lastSlideTime := .noEnd
      latestSlideTime := .noBegin }
  let node := start.windowStates.foldl (fun node ws =>
    let next := min node.nextSlideTime (windowStateGetFirstChange ws)
    { node with
      nextSlideTime := next
      latestSlideTime := max next (windowStateGetFirstChange ws)
      lastSlideTime := min node.lastSlideTime (.at ws.spec.startAt)
      wtime := next }) start
  if node.nextSlideTime = .noEnd ∨ node.lastSlideTime = .noEnd ∨
      node.latestSlideTime = .noBegin then
    .error .noWindow
  else
    .ok { node with state := .reading }

/-- The lifetime over all window clauses: the latest birth and the earliest
death. -/
def tupleLifetime (nonFinite : Int → Int)
    (windowStates : List (WindowState Tuple)) (tuple : Tuple) :
    Timestamp × Timestamp :=
  windowStates.foldl (fun life ws =>
    let cur := windowStateGetLifetime nonFinite ws tuple
    (max life.1 cur.1, (cur.2.map (min life.2)).getD life.2))
    (.noBegin, .noEnd)

def addToActivationGroup (elem : TupleNode Tuple) (birth : Timestamp)
    (node : FAgg Tuple) : FAgg Tuple :=
  { node with
    activationGroups := node.activationGroups.modify birth (· ++ [elem]) }

def addToDeactivationGroup (elem : TupleNode Tuple) (death : Timestamp)
    (node : FAgg Tuple) : FAgg Tuple :=
  { node with
    deactivationGroups := node.deactivationGroups.modify death (elem :: ·) }

def addNewTupleRangeSlide (nonFinite : Int → Int) (tuple : Tuple)
    (node : FAgg Tuple) : Except FAggFault (FAgg Tuple) :=
  let life := tupleLifetime nonFinite node.windowStates tuple
  let elem : TupleNode Tuple := ⟨node.totalEntered, tuple⟩
  let node := { node with totalEntered := node.totalEntered + 1 }
  let node :=
    if life.1 = .noEnd ∨ life.2 ≤ life.1 then
      -- the tuple belongs to no window
      node
    else if life.2 ≤ node.lastSlideTime ∧ node.lastSlideTime ≠ .noBegin then
      -- all of its windows have been reported
      node
    else
      addToDeactivationGroup elem life.2 (addToActivationGroup elem life.1 node)
  let windowStates := node.windowStates.map (windowStateUpdateMaxTS tuple)
  let newCurrentTime := windowStates.foldl
    (fun time ws => min time ws.lastTSSeen) Timestamp.noEnd
  if newCurrentTime = .noEnd then
    .error .currentTimeUnset
  else
    .ok { node with
      windowStates := windowStates
      currentTime := max node.currentTime newCurrentTime }

/-- Unlink one cell.  The source follows the cell's own pointers, which is
meaningful only for a cell that is linked into the live list. -/
def removeFromLiveList (live : List (TupleNode Tuple)) (elem : TupleNode Tuple) :
    Except FAggFault (List (TupleNode Tuple)) :=
  if elem.id ∈ live.map TupleNode.id then
    .ok (live.filter fun node => node.id ≠ elem.id)
  else .error .notLive

def dueGroup (behind : FAggFault) (slide : Timestamp)
    (groups : Groups Timestamp (TupleNode Tuple)) :
    Except FAggFault
      (List (TupleNode Tuple) × Groups Timestamp (TupleNode Tuple)) :=
  match groups with
  | [] => .ok ([], [])
  | (time, elems) :: rest =>
    if time = slide then .ok (elems, rest)
    else if slide < time then .ok ([], groups)
    else .error behind

def advanceWindow (nonFinite : Int → Int) (node : FAgg Tuple) :
    Except FAggFault (FAgg Tuple) := do
  let (activated, activationGroups) ←
    dueGroup .activationBehind node.nextSlideTime node.activationGroups
  let (deactivated, deactivationGroups) ←
    dueGroup .deactivationBehind node.nextSlideTime node.deactivationGroups
  let remaining ← deactivated.foldlM removeFromLiveList node.liveTuples
  let nextSlides ← node.windowStates.mapM
    (windowStateGetNextSlide nonFinite · node.nextSlideTime)
  let newSlide := nextSlides.foldl min Timestamp.noEnd
  if node.nextSlideTime < newSlide then
    return { node with
      liveTuples := remaining ++ activated
      activationGroups := activationGroups
      deactivationGroups := deactivationGroups
      lastSlideTime := node.nextSlideTime
      nextSlideTime := newSlide
      latestSlideTime := nextSlides.foldl max Timestamp.noBegin }
  else
    throw .windowStuck

/-- The callback through which the aggregation plan fetches the next tuple. -/
def execFAgg (node : FAgg Tuple) : Except FAggFault (FAgg Tuple) :=
  if node.state = .runningAgg then
    match node.liveTuplesCur with
    | [] => .ok { node with state := .finishingAgg }
    | _ :: rest => .ok { node with liveTuplesCur := rest }
  else .error .pulledOutsideWindow

/-- What the aggregation plan does in one call: the number of tuples it pulls
and whether it then returns a result. -/
structure AggCall where
  pulls : Nat
  result : Bool
  deriving DecidableEq, Repr

def pullTuples : Nat → FAgg Tuple → Except FAggFault (FAgg Tuple)
  | 0, node => .ok node
  | pulls + 1, node => execFAgg node >>= pullTuples pulls

def faggScheduleAggPlan (agg : AggCall) (node : FAgg Tuple) :
    Except FAggFault (FAgg Tuple) := do
  let node ← pullTuples agg.pulls node
  if agg.result then
    return { node with outputTdesc := true }
  else if node.state = .finishingAgg then
    -- without a descriptor no punctuation can be built
    return { node with
      state := if node.outputTdesc then .punctuating else .reading }
  else
    throw .endedEarly

/-- One call of the node: the input tuple, if the queue holds one, and what the
aggregation plan does if it is run. -/
structure FAggCall (Tuple : Type) where
  input : Option Tuple
  agg : AggCall

structure FAggReport (Tuple : Type) where
  wtime : Timestamp
  live : List Tuple
  deriving DecidableEq, Repr

def processStateFAgg (nonFinite : Int → Int) (agg : AggCall) (node : FAgg Tuple) :
    List (FAggReport Tuple) × Except FAggFault (FAgg Tuple) :=
  match node.state with
  | .reading =>
    if node.nextSlideTime ≤ node.currentTime then
      match advanceWindow nonFinite { node with wtime := node.nextSlideTime } with
      | .error fault => ([], .error fault)
      | .ok node =>
        ([⟨node.wtime, node.liveTuples.map TupleNode.tuple⟩],
          faggScheduleAggPlan agg
            { node with
              state := .runningAgg
              liveTuplesCur := node.liveTuples })
    else ([], .ok node)
  | .runningAgg | .finishingAgg => ([], faggScheduleAggPlan agg node)
  | .punctuating => ([], .ok { node with state := .reading })
  | .noWindowExpr => ([], .error .invalidState)

def processNextFAggRangeSlide (nonFinite : Int → Int) (node : FAgg Tuple)
    (call : FAggCall Tuple) :
    List (FAggReport Tuple) × Except FAggFault (FAgg Tuple) :=
  if node.state = .noWindowExpr then
    ([], .error .invalidState)
  else
    match call.input with
    | none => processStateFAgg nonFinite call.agg node
    | some tuple =>
      match addNewTupleRangeSlide nonFinite tuple node with
      | .error fault => ([], .error fault)
      | .ok node => processStateFAgg nonFinite call.agg node

def faggMachine (nonFinite : Int → Int) :
    Machine (FAgg Tuple) (FAggCall Tuple) (FAggReport Tuple) FAggFault where
  step := processNextFAggRangeSlide nonFinite

def runFAgg (nonFinite : Int → Int) (windowStates : List (WindowState Tuple))
    (calls : List (FAggCall Tuple)) :
    List (FAggReport Tuple) × Except FAggFault (FAgg Tuple) :=
  match faggAddWindowExprs windowStates processInitFAgg with
  | .error fault => ([], .error fault)
  | .ok node => (faggMachine nonFinite).run node calls

end TelegraphCQ.Window
