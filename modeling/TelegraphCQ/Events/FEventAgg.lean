import TelegraphCQ.Foundation.Machine
import TelegraphCQ.Foundation.Pins

/-!
# The event aggregation node

The `FEventAgg` node of `nodeFEventAgg.c`.  An event expression is a tree with simple
events at its leaves; every node of it has a list of the events it has produced, which is
the input of the node above.  A tuple is published to the leaves of its stream one after
the other; from each leaf the nodes above construct their events, upwards as long as there
are new ones.

An entry of a list remembers the entries it was matched with by their addresses.  Entries
and copies of base tuples are allocated and freed; base tuples are counted by the events
that refer to them.  Lists cells, events and timestamps are allocated as well, but their
addresses are never compared.
-/

namespace TelegraphCQ.Events

open Foundation

inductive EventOperator where
  | anyone
  | both
  | follows
  | notfollows
  | precedes
  | notprecedes
  deriving DecidableEq, Repr

inductive Side where
  | left
  | right
  deriving DecidableEq, Repr

abbrev Path := List Side

abbrev Source := Nat

structure BaseTuple (Tuple : Type) where
  source : Source
  address : Address
  tuple : Tuple
  deriving DecidableEq, Repr

structure Event (Tuple : Type) where
  baseTuples : List (BaseTuple Tuple)
  eventTimestamp : Int
  deriving DecidableEq, Repr

structure EventEntry (Tuple : Type) where
  address : Address
  event : Event Tuple
  matched : List Address
  requestedTimeout : Bool
  marked : Bool
  deriving DecidableEq, Repr

inductive EventExpr (Tuple : Type) where
  | simple (source : Source) (outputList : List (EventEntry Tuple))
  | complex (op : EventOperator) (timeDelay : Int) (lchild rchild : EventExpr Tuple)
      (outputList : List (EventEntry Tuple))
  deriving DecidableEq, Repr

inductive EventFault where
  | memory (fault : PinFault)
  | badPath
  | fuel
  deriving DecidableEq, Repr

structure TimeoutRequest where
  node : Path
  ts : Int
  deriving DecidableEq, Repr

structure FEventAggState where
  mem : Pinned
  timeoutRequests : List TimeoutRequest
  lastTupleTimestamp : Int
  needToEmitPunct : Bool
  deriving DecidableEq, Repr

def maxBaseTuplesCached : Nat := 1000

variable {Tuple : Type}

def EventExpr.outputList : EventExpr Tuple → List (EventEntry Tuple)
  | .simple _ outputList | .complex _ _ _ _ outputList => outputList

def EventExpr.setOutputList (outputList : List (EventEntry Tuple)) :
    EventExpr Tuple → EventExpr Tuple
  | .simple source _ => .simple source outputList
  | .complex op timeDelay lchild rchild _ => .complex op timeDelay lchild rchild outputList

/-- What the node is given: the comparison of two base tuples on the partitioning
attributes, the allocator, and a bound on the timeout requests that are looked at for one
tuple. -/
structure EventEnv (Tuple : Type) where
  samePartition : Source → Tuple → Source → Tuple → Bool
  allocator : Allocator
  fuel : Nat

/-! ## Events and entries -/

def Event.addresses (event : Event Tuple) : List Address :=
  event.baseTuples.map BaseTuple.address

def liftMem {α : Type} : Except PinFault α → Except EventFault α
  | .ok value => .ok value
  | .error fault => .error (.memory fault)

def incrementBaseTuplePinCountsForEvent (event : Event Tuple) (mem : Pinned) :
    Except EventFault Pinned :=
  liftMem (mem.pinAll event.addresses)

def decrementBaseTuplePinCountsForEvent (event : Event Tuple) (mem : Pinned) :
    Except EventFault Pinned :=
  liftMem (mem.unpinAll event.addresses)

def haveSimpleEventConflict (first second : Event Tuple) : Bool :=
  first.baseTuples.any fun base => second.baseTuples.any fun other =>
    base.source = other.source && base.address ≠ other.address

def combineEvents (first second : Event Tuple) : Event Tuple where
  baseTuples := first.baseTuples ++ second.baseTuples.filter fun base =>
    ¬ first.baseTuples.any fun other => other.source = base.source
  eventTimestamp := max first.eventTimestamp second.eventTimestamp

def deleteEvent (event : Event Tuple) (mem : Pinned) : Except EventFault Pinned :=
  decrementBaseTuplePinCountsForEvent event mem

def deleteEventEntry (entry : EventEntry Tuple) (mem : Pinned) :
    Except EventFault Pinned := do
  let mem ← deleteEvent entry.event mem
  liftMem (mem.free entry.address)

def appendEvent (env : EventEnv Tuple) (event : Event Tuple)
    (outputList : List (EventEntry Tuple)) (mem : Pinned) :
    Except EventFault (List (EventEntry Tuple) × Pinned) := do
  let mem ← incrementBaseTuplePinCountsForEvent event mem
  let (address, mem) := mem.alloc env.allocator
  return (outputList ++ [⟨address, event, [], false, false⟩], mem)

def haveBeenMatched (first second : EventEntry Tuple) : Bool :=
  decide (first.address ∈ second.matched ∨ second.address ∈ first.matched)

def EventEntry.remember (entry other : EventEntry Tuple) : EventEntry Tuple :=
  { entry with matched := entry.matched ++ [other.address] }

/-- All base tuples of an event agree pairwise, compared in the order of their sources. -/
def isPartitionConsistent (env : EventEnv Tuple) (event : Event Tuple) : Bool :=
  event.baseTuples.all fun base => event.baseTuples.all fun other =>
    !(base.source < other.source) ||
      env.samePartition base.source base.tuple other.source other.tuple

def arePartitionConsistent (env : EventEnv Tuple) (first second : Event Tuple)
    (mem : Pinned) : Except EventFault (Bool × Pinned) := do
  let event := combineEvents first second
  let mem ← incrementBaseTuplePinCountsForEvent event mem
  let mem ← deleteEvent event mem
  return (isPartitionConsistent env event, mem)

def passAdditionalNotFollowsTest (first second : Event Tuple) : Bool :=
  first.eventTimestamp ≠ second.eventTimestamp

/-! ## Expiry -/

def expireAllEventsFromList (entries : List (EventEntry Tuple)) (mem : Pinned) :
    Except EventFault Pinned :=
  entries.foldlM (fun mem entry => deleteEventEntry entry mem) mem

def expireEventsFromListIntervalBased (ts timeDelay : Int) :
    List (EventEntry Tuple) → Pinned → Except EventFault (List (EventEntry Tuple) × Pinned)
  | [], mem => .ok ([], mem)
  | entry :: entries, mem =>
    if ts ≤ entry.event.eventTimestamp + timeDelay then do
      let (kept, mem) ← expireEventsFromListIntervalBased ts timeDelay entries mem
      return (entry :: kept, mem)
    else do
      let mem ← deleteEventEntry entry mem
      expireEventsFromListIntervalBased ts timeDelay entries mem

inductive Expiry where
  | keep
  | interval
  | all

def EventOperator.expiry : EventOperator → Expiry × Expiry
  | .anyone => (.keep, .keep)
  | .both => (.interval, .interval)
  | .follows | .notfollows => (.interval, .all)
  | .precedes | .notprecedes => (.all, .interval)

def expireList (expiry : Expiry) (ts timeDelay : Int) (entries : List (EventEntry Tuple))
    (mem : Pinned) : Except EventFault (List (EventEntry Tuple) × Pinned) :=
  match expiry with
  | .keep => .ok (entries, mem)
  | .interval => expireEventsFromListIntervalBased ts timeDelay entries mem
  | .all => do
      let mem ← expireAllEventsFromList entries mem
      return ([], mem)

/-- The lists of the children of every node; the list of the node itself is the business
of the node above. -/
def expireEvents (ts : Int) :
    EventExpr Tuple → Pinned → Except EventFault (EventExpr Tuple × Pinned)
  | .simple source outputList, mem => .ok (.simple source outputList, mem)
  | .complex op timeDelay lchild rchild outputList, mem => do
      let (lefts, mem) ← expireList op.expiry.1 ts timeDelay lchild.outputList mem
      let (rights, mem) ← expireList op.expiry.2 ts timeDelay rchild.outputList mem
      let (lchild, mem) ← expireEvents ts lchild mem
      let (rchild, mem) ← expireEvents ts rchild mem
      return (.complex op timeDelay (lchild.setOutputList lefts)
        (rchild.setOutputList rights) outputList, mem)

/-! ## Construction -/

/-- One entry of the left list against the right list: every pair that the operator
accepts, and that is not known as matched where the operator looks at that, gives an
event. -/
def pairEntry (env : EventEnv Tuple) (accepts : Event Tuple → Event Tuple → Bool)
    (checkMatched : Bool) (first : EventEntry Tuple) :
    List (EventEntry Tuple) → List (EventEntry Tuple) → Pinned →
      Except EventFault
        (EventEntry Tuple × List (EventEntry Tuple) × List (EventEntry Tuple) × Pinned)
  | [], outputList, mem => .ok (first, [], outputList, mem)
  | second :: rights, outputList, mem =>
    if haveSimpleEventConflict first.event second.event ||
        !accepts first.event second.event ||
        (checkMatched && haveBeenMatched first second) then do
      let (first, rights, outputList, mem) ←
        pairEntry env accepts checkMatched first rights outputList mem
      return (first, second :: rights, outputList, mem)
    else do
      let (outputList, mem) ←
        appendEvent env (combineEvents first.event second.event) outputList mem
      let (first', rights, outputList, mem) ←
        pairEntry env accepts checkMatched (first.remember second) rights outputList mem
      return (first', second.remember first :: rights, outputList, mem)

def pairLists (env : EventEnv Tuple) (accepts : Event Tuple → Event Tuple → Bool)
    (checkMatched : Bool) :
    List (EventEntry Tuple) → List (EventEntry Tuple) → List (EventEntry Tuple) → Pinned →
      Except EventFault
        (List (EventEntry Tuple) × List (EventEntry Tuple) × List (EventEntry Tuple) ×
          Pinned)
  | [], rights, outputList, mem => .ok ([], rights, outputList, mem)
  | first :: lefts, rights, outputList, mem => do
      let (first, rights, outputList, mem) ←
        pairEntry env accepts checkMatched first rights outputList mem
      let (lefts, rights, outputList, mem) ←
        pairLists env accepts checkMatched lefts rights outputList mem
      return (first :: lefts, rights, outputList, mem)

def seenTerminating (env : EventEnv Tuple) (relevant ends : Event Tuple → Event Tuple → Bool)
    (first : Event Tuple) :
    List (EventEntry Tuple) → Pinned → Except EventFault (Bool × Pinned)
  | [], mem => .ok (false, mem)
  | second :: rights, mem =>
    if haveSimpleEventConflict first second.event || !relevant first second.event then
      seenTerminating env relevant ends first rights mem
    else do
      let (consistent, mem) ← arePartitionConsistent env first second.event mem
      if consistent && ends first second.event then return (true, mem)
      else seenTerminating env relevant ends first rights mem

structure NotLoop (Tuple : Type) where
  done : List (EventEntry Tuple)
  outputList : List (EventEntry Tuple)
  state : FEventAggState

def notfollowsEntry (env : EventEnv Tuple) (node : Path) (lastTimestampSeen timeDelay : Int)
    (rights : List (EventEntry Tuple)) (loop : NotLoop Tuple) (first : EventEntry Tuple) :
    Except EventFault (NotLoop Tuple) :=
  if first.marked then .ok { loop with done := loop.done ++ [first] }
  else do
    let (terminated, mem) ← seenTerminating env passAdditionalNotFollowsTest
      (fun first second => second.eventTimestamp ≤ first.eventTimestamp + timeDelay)
      first.event rights loop.state.mem
    let state := { loop.state with mem := mem }
    if terminated then
      return { loop with done := loop.done ++ [{ first with marked := true }], state := state }
    else if first.event.eventTimestamp + timeDelay < lastTimestampSeen then
      let (outputList, mem) ← appendEvent env first.event loop.outputList mem
      return {
        done := loop.done ++ [{ first with marked := true }]
        outputList := outputList
        state := { state with mem := mem } }
    else if first.requestedTimeout then
      return { loop with done := loop.done ++ [first], state := state }
    else
      return { loop with
        done := loop.done ++ [{ first with requestedTimeout := true }]
        state := { state with
          timeoutRequests := state.timeoutRequests ++
            [⟨node, first.event.eventTimestamp + timeDelay⟩] } }

def notprecedesEntry (env : EventEnv Tuple) (timeDelay : Int)
    (rights : List (EventEntry Tuple)) (loop : NotLoop Tuple) (first : EventEntry Tuple) :
    Except EventFault (NotLoop Tuple) :=
  if first.marked then .ok { loop with done := loop.done ++ [first] }
  else do
    let done := loop.done ++ [{ first with marked := true }]
    let (terminated, mem) ← seenTerminating env (fun _ _ => true)
      (fun first second => first.eventTimestamp < second.eventTimestamp + timeDelay)
      first.event rights loop.state.mem
    if terminated then
      return { loop with done := done, state := { loop.state with mem := mem } }
    else
      let (outputList, mem) ← appendEvent env first.event loop.outputList mem
      return {
        done := done
        outputList := outputList
        state := { loop.state with mem := mem } }

def bothAccepts (timeDelay : Int) (first second : Event Tuple) : Bool :=
  second.eventTimestamp ≤ first.eventTimestamp + timeDelay &&
    first.eventTimestamp ≤ second.eventTimestamp + timeDelay

def followsAccepts (timeDelay : Int) (first second : Event Tuple) : Bool :=
  second.eventTimestamp ≤ first.eventTimestamp + timeDelay

def precedesAccepts (timeDelay : Int) (first second : Event Tuple) : Bool :=
  first.eventTimestamp ≤ second.eventTimestamp + timeDelay

structure Constructed (Tuple : Type) where
  detected : Bool
  lefts : List (EventEntry Tuple)
  rights : List (EventEntry Tuple)
  outputList : List (EventEntry Tuple)
  state : FEventAggState

def constructPairs (env : EventEnv Tuple) (accepts : Event Tuple → Event Tuple → Bool)
    (checkMatched : Bool) (lefts rights outputList : List (EventEntry Tuple))
    (state : FEventAggState) : Except EventFault (Constructed Tuple) := do
  let (lefts, rights, produced, mem) ←
    pairLists env accepts checkMatched lefts rights outputList state.mem
  return ⟨outputList.length < produced.length, lefts, rights, produced,
    { state with mem := mem }⟩

def constructNot (entry : NotLoop Tuple → EventEntry Tuple → Except EventFault (NotLoop Tuple))
    (lefts rights outputList : List (EventEntry Tuple)) (state : FEventAggState) :
    Except EventFault (Constructed Tuple) := do
  let loop ← lefts.foldlM entry ⟨[], outputList, state⟩
  return ⟨outputList.length < loop.outputList.length, loop.done, rights, loop.outputList,
    loop.state⟩

def Constructed.expireRights (constructed : Constructed Tuple) :
    Except EventFault (Constructed Tuple) := do
  let mem ← expireAllEventsFromList constructed.rights constructed.state.mem
  return { constructed with rights := [], state := { constructed.state with mem := mem } }

def Constructed.expireLefts (constructed : Constructed Tuple) :
    Except EventFault (Constructed Tuple) := do
  let mem ← expireAllEventsFromList constructed.lefts constructed.state.mem
  return { constructed with lefts := [], state := { constructed.state with mem := mem } }

def constructWith (env : EventEnv Tuple) (op : EventOperator) (node : Path)
    (lastTimestampSeen timeDelay : Int) (lefts rights outputList : List (EventEntry Tuple))
    (state : FEventAggState) : Except EventFault (Constructed Tuple) :=
  match op with
  | .anyone =>
    -- everything is passed up
    .ok ⟨!(lefts.isEmpty && rights.isEmpty), [], [], outputList ++ lefts ++ rights, state⟩
  | .both =>
    constructPairs env (bothAccepts timeDelay) true lefts rights outputList state
  | .follows => do
      let constructed ←
        constructPairs env (followsAccepts timeDelay) true lefts rights outputList state
      constructed.expireRights
  | .precedes => do
      let constructed ←
        constructPairs env (precedesAccepts timeDelay) false lefts rights outputList state
      constructed.expireLefts
  | .notfollows => do
      let constructed ← constructNot
        (notfollowsEntry env node lastTimestampSeen timeDelay rights) lefts rights outputList
        state
      constructed.expireRights
  | .notprecedes => do
      let constructed ← constructNot (notprecedesEntry env timeDelay rights) lefts rights
        outputList state
      constructed.expireLefts

def constructComplexEvents (env : EventEnv Tuple) (lastTimestampSeen : Int) (node : Path) :
    EventExpr Tuple → FEventAggState →
      Except EventFault (Bool × EventExpr Tuple × FEventAggState)
  | .simple source outputList, state => .ok (false, .simple source outputList, state)
  | .complex op timeDelay lchild rchild outputList, state => do
      let constructed ← constructWith env op node lastTimestampSeen timeDelay
        lchild.outputList rchild.outputList outputList state
      return (constructed.detected, .complex op timeDelay
        (lchild.setOutputList constructed.lefts) (rchild.setOutputList constructed.rights)
        constructed.outputList, constructed.state)

/-- Begin at the node at the end of a path, and construct in the nodes above as long as
there is something new. -/
def climb (env : EventEnv Tuple) (lastTimestampSeen : Int)
    (start : EventExpr Tuple → FEventAggState →
      Except EventFault (Bool × EventExpr Tuple × FEventAggState)) (above : Path) :
    Path → EventExpr Tuple → FEventAggState →
      Except EventFault (Bool × EventExpr Tuple × FEventAggState)
  | [], expr, state => start expr state
  | _ :: _, .simple .., _ => .error .badPath
  | .left :: path, .complex op timeDelay lchild rchild outputList, state => do
      let (fired, lchild, state) ←
        climb env lastTimestampSeen start (above ++ [.left]) path lchild state
      let expr := .complex op timeDelay lchild rchild outputList
      if fired then constructComplexEvents env lastTimestampSeen above expr state
      else return (false, expr, state)
  | .right :: path, .complex op timeDelay lchild rchild outputList, state => do
      let (fired, rchild, state) ←
        climb env lastTimestampSeen start (above ++ [.right]) path rchild state
      let expr := .complex op timeDelay lchild rchild outputList
      if fired then constructComplexEvents env lastTimestampSeen above expr state
      else return (false, expr, state)

/-! ## Publishing and timeouts -/

def EventExpr.leaves : EventExpr Tuple → List Path
  | .simple .. => [[]]
  | .complex _ _ lchild rchild _ =>
    lchild.leaves.map (Side.left :: ·) ++ rchild.leaves.map (Side.right :: ·)

def isRelevantSimpleEvent (source : Source) (event : Event Tuple) : Bool :=
  event.baseTuples.map BaseTuple.source = [source]

def putSimpleEventOnOutputList (env : EventEnv Tuple) (event : Event Tuple) :
    EventExpr Tuple → FEventAggState →
      Except EventFault (Bool × EventExpr Tuple × FEventAggState)
  | .simple source outputList, state =>
    if isRelevantSimpleEvent source event then do
      let (outputList, mem) ← appendEvent env event outputList state.mem
      return (true, .simple source outputList, { state with mem := mem })
    else return (false, .simple source outputList, state)
  | .complex .., _ => .error .badPath

def publishSimpleEvent (env : EventEnv Tuple) (event : Event Tuple) (expr : EventExpr Tuple)
    (state : FEventAggState) : Except EventFault (EventExpr Tuple × FEventAggState) :=
  expr.leaves.foldlM (fun current leaf => do
    let (_, expr, state) ← climb env event.eventTimestamp
      (putSimpleEventOnOutputList env event) [] leaf current.1 current.2
    return (expr, state)) (expr, state)

/-- Requests that are made meanwhile are looked at in the same loop. -/
def serviceLoop (env : EventEnv Tuple) (lastTimestampSeen : Int) :
    Nat → List TimeoutRequest → EventExpr Tuple → FEventAggState →
      Except EventFault (EventExpr Tuple × FEventAggState)
  | fuel, leftovers, expr, state =>
    match state.timeoutRequests, fuel with
    | [], _ => .ok (expr, { state with timeoutRequests := leftovers })
    | _ :: _, 0 => .error .fuel
    | request :: requests, fuel + 1 =>
      let state := { state with timeoutRequests := requests }
      if request.ts ≤ lastTimestampSeen then do
        let (_, expr, state) ← climb env lastTimestampSeen
          (constructComplexEvents env lastTimestampSeen request.node) [] request.node
          expr state
        serviceLoop env lastTimestampSeen fuel leftovers expr state
      else
        serviceLoop env lastTimestampSeen fuel (leftovers ++ [request]) expr state

def serviceTimeouts (env : EventEnv Tuple) (lastTimestampSeen : Int) (expr : EventExpr Tuple)
    (state : FEventAggState) : Except EventFault (EventExpr Tuple × FEventAggState) :=
  serviceLoop env lastTimestampSeen env.fuel [] expr state

/-! ## The node -/

structure FEventAgg (Tuple : Type) where
  eventExpr : EventExpr Tuple
  mystate : FEventAggState
  deriving DecidableEq, Repr

structure StreamTuple (Tuple : Type) where
  source : Source
  tuple : Tuple
  timestamp : Int
  deriving DecidableEq, Repr

inductive EventCall (Tuple : Type) where
  | data (input : StreamTuple Tuple)
  | punct (timestamp : Int)
  | idle
  deriving DecidableEq, Repr

/-- What the node puts into its output queue; the input goes back to the eddy in any
case. -/
inductive EventOut (Tuple : Type) where
  | event (event : Event Tuple)
  | punct (timestamp : Int)
  deriving DecidableEq, Repr

def copyEventInPrivateContext (env : EventEnv Tuple) (input : StreamTuple Tuple)
    (mem : Pinned) : Except EventFault (Event Tuple × Pinned) := do
  let (address, mem) := mem.alloc env.allocator
  let mem ← liftMem (mem.register maxBaseTuplesCached address)
  let event : Event Tuple := ⟨[⟨input.source, address, input.tuple⟩], input.timestamp⟩
  let mem ← incrementBaseTuplePinCountsForEvent event mem
  return (event, mem)

def processData (env : EventEnv Tuple) (input : StreamTuple Tuple) (expr : EventExpr Tuple)
    (state : FEventAggState) : Except EventFault (FEventAgg Tuple) := do
  let mem ← liftMem state.mem.sweep
  let (event, mem) ← copyEventInPrivateContext env input mem
  let (expr, mem) ← expireEvents input.timestamp expr mem
  let (expr, state) ← publishSimpleEvent env event expr { state with mem := mem }
  let mem ← deleteEvent event state.mem
  return ⟨expr, { state with mem := mem }⟩

def fetchNextComplexEvent (env : EventEnv Tuple) :
    List (EventEntry Tuple) → Pinned →
      Except EventFault (Option (Event Tuple) × List (EventEntry Tuple) × Pinned)
  | [], mem => .ok (none, [], mem)
  | entry :: entries, mem =>
    if isPartitionConsistent env entry.event then do
      let mem ← liftMem (mem.free entry.address)
      return (some entry.event, entries, mem)
    else do
      let mem ← deleteEventEntry entry mem
      fetchNextComplexEvent env entries mem

def processIdle (env : EventEnv Tuple) (node : FEventAgg Tuple) :
    List (EventOut Tuple) × Except EventFault (FEventAgg Tuple) :=
  let state := node.mystate
  if state.needToEmitPunct then
    ([.punct state.lastTupleTimestamp],
      .ok { node with mystate := { state with needToEmitPunct := false } })
  else
    match fetchNextComplexEvent env node.eventExpr.outputList state.mem with
    | .error fault => ([], .error fault)
    | .ok (none, outputList, mem) =>
      ([], .ok ⟨node.eventExpr.setOutputList outputList, { state with mem := mem }⟩)
    | .ok (some event, outputList, mem) =>
      match deleteEvent event mem with
      | .error fault => ([], .error fault)
      | .ok mem =>
        ([.event event],
          .ok ⟨node.eventExpr.setOutputList outputList, { state with mem := mem }⟩)

def processNextFEventAgg (env : EventEnv Tuple) (node : FEventAgg Tuple) :
    EventCall Tuple → List (EventOut Tuple) × Except EventFault (FEventAgg Tuple)
  | .data input => ([], do
      let state := { node.mystate with lastTupleTimestamp := input.timestamp }
      let (expr, state) ← serviceTimeouts env input.timestamp node.eventExpr state
      processData env input expr state)
  | .punct timestamp => ([], do
      let state := { node.mystate with lastTupleTimestamp := timestamp }
      let (expr, state) ← serviceTimeouts env timestamp node.eventExpr state
      return ⟨expr, { state with needToEmitPunct := true }⟩)
  | .idle => processIdle env node

def eventMachine (env : EventEnv Tuple) :
    Machine (FEventAgg Tuple) (EventCall Tuple) (EventOut Tuple) EventFault where
  step := processNextFEventAgg env

def processInitFEventAgg (expr : EventExpr Tuple) : FEventAgg Tuple :=
  ⟨expr, ⟨⟨[], [], 0⟩, [], 0, false⟩⟩

end TelegraphCQ.Events
