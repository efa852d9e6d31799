import Mathlib.Tactic.Abel
import TelegraphCQ.Events.Pairing

/-!
# Operators over two simple events

An operator whose children are simple events on two streams.  A data tuple is handled in
three parts: it is copied and old entries are expired; if it is on one of the two streams
an entry for it is appended and the operator constructs its events; and the copy is
released.
-/

namespace TelegraphCQ.Events

open Foundation List

section TwoStreams

variable {Tuple : Type}

def twoStreams (op : EventOperator) (timeDelay : Int) (leftSource rightSource : Source)
    (lefts rights outputList : List (EventEntry Tuple)) : EventExpr Tuple :=
  .complex op timeDelay (.simple leftSource lefts) (.simple rightSource rights) outputList

def prepareData (env : EventEnv Tuple) (input : StreamTuple Tuple) (expr : EventExpr Tuple)
    (mem : Pinned) : Except EventFault (Event Tuple × EventExpr Tuple × Pinned) := do
  let mem ← liftMem mem.sweep
  let (event, mem) ← copyEventInPrivateContext env input mem
  let (expr, mem) ← expireEvents input.timestamp expr mem
  return (event, expr, mem)

def entryAddress (env : EventEnv Tuple) (input : StreamTuple Tuple) (node : FEventAgg Tuple) :
    Except EventFault Address := do
  let (event, _, mem) ← prepareData env input node.eventExpr node.mystate.mem
  newAddress env event mem

def expired (expiry : Expiry) (ts timeDelay : Int) (entries : List (EventEntry Tuple)) :
    List (EventEntry Tuple) :=
  match expiry with
  | .keep => entries
  | .interval => entries.filter fun entry => ts ≤ entry.event.eventTimestamp + timeDelay
  | .all => []

variable {env : EventEnv Tuple} {mem : Pinned} {held : Multiset (Address × Event Tuple)}
  {loose : Multiset Address} {op : EventOperator} {timeDelay : Int}
  {leftSource rightSource : Source} {lefts rights outputList : List (EventEntry Tuple)}

theorem expireList_spec (expiry : Expiry) (ts : Int) (entries : List (EventEntry Tuple))
    (isHeld : Held mem (holding entries + held) loose) :
    ∃ next, expireList expiry ts timeDelay entries mem =
        .ok (expired expiry ts timeDelay entries, next) ∧
      Held next (holding (expired expiry ts timeDelay entries) + held) loose := by
  cases expiry with
  | keep => exact ⟨mem, rfl, isHeld⟩
  | interval => exact expireEventsFromListIntervalBased_spec ts timeDelay entries isHeld
  | all =>
    obtain ⟨next, ran, heldNext⟩ := expireAllEventsFromList_spec entries isHeld
    refine ⟨next, ?_, by simpa [expired] using heldNext⟩
    simp [expireList, expired, ran, bind, Except.bind, pure, Except.pure]

theorem prepareData_spec (input : StreamTuple Tuple)
    (isHeld : Held mem (holding lefts + holding rights + holding outputList) 0)
    (room : ∀ swept, mem.sweep = .ok swept → swept.pins.length < maxBaseTuplesCached) :
    ∃ address next,
      prepareData env input (twoStreams op timeDelay leftSource rightSource lefts rights
          outputList) mem = .ok (⟨[⟨input.source, address, input.tuple⟩], input.timestamp⟩,
          twoStreams op timeDelay leftSource rightSource
            (expired op.expiry.1 input.timestamp timeDelay lefts)
            (expired op.expiry.2 input.timestamp timeDelay rights) outputList, next) ∧
      Held next (holding (expired op.expiry.1 input.timestamp timeDelay lefts) +
        holding (expired op.expiry.2 input.timestamp timeDelay rights) +
        holding outputList) {address} := by
  obtain ⟨swept, ranSweep, heldSwept, -⟩ := isHeld.sweep
  obtain ⟨address, copied, ranCopy, heldCopied⟩ :=
    @copyEventInPrivateContext_spec _ env _ _ heldSwept (room swept ranSweep) input
  rw [add_assoc] at heldCopied
  obtain ⟨expiredLeft, ranLeft, heldLeft⟩ :=
    @expireList_spec _ _ _ _ timeDelay op.expiry.1 input.timestamp lefts heldCopied
  rw [add_left_comm] at heldLeft
  obtain ⟨next, ranRight, heldNext⟩ :=
    @expireList_spec _ _ _ _ timeDelay op.expiry.2 input.timestamp rights heldLeft
  refine ⟨address, next, ?_, ?_⟩
  · simp [prepareData, ranSweep, liftMem, ranCopy, twoStreams, expireEvents,
      EventExpr.outputList, ranLeft, ranRight, EventExpr.setOutputList, bind, Except.bind,
      pure, Except.pure]
  · rwa [add_left_comm, ← add_assoc] at heldNext

theorem processData_eq (input : StreamTuple Tuple) (expr : EventExpr Tuple)
    (state : FEventAggState) : processData env input expr state = (do
      let (event, expr, mem) ← prepareData env input expr state.mem
      let (expr, state) ← publishSimpleEvent env event expr { state with mem := mem }
      let mem ← deleteEvent event state.mem
      return ⟨expr, { state with mem := mem }⟩) := by
  simp [processData, prepareData]

def sourceOn (leftSource rightSource : Source) : Side → Source
  | .left => leftSource
  | .right => rightSource

def appendOn (side : Side) (entry : EventEntry Tuple)
    (lefts rights : List (EventEntry Tuple)) :
    List (EventEntry Tuple) × List (EventEntry Tuple) :=
  match side with
  | .left => (lefts ++ [entry], rights)
  | .right => (lefts, rights ++ [entry])

theorem holding_appendOn (side : Side) (entry : EventEntry Tuple) :
    holding (appendOn side entry lefts rights).1 + holding (appendOn side entry lefts rights).2 =
      (entry.address, entry.event) ::ₘ (holding lefts + holding rights) := by
  rw [← Multiset.singleton_add]
  cases side with
  | left | right =>
    simp only [appendOn, holding_append, holding_cons, holding_nil, ← Multiset.singleton_add]
    abel

theorem publish_on (side : Side) (different : leftSource ≠ rightSource) {event : Event Tuple}
    (relevant : event.baseTuples.map BaseTuple.source = [sourceOn leftSource rightSource side])
    {state : FEventAggState} {entry : EventEntry Tuple}
    (appended : ∀ entries, appendEvent env event entries state.mem =
      .ok (entries ++ [entry], mem)) : publishSimpleEvent env event
        (twoStreams op timeDelay leftSource rightSource lefts rights outputList) state = (do
      let constructed ← constructWith env op [] event.eventTimestamp timeDelay
        (appendOn side entry lefts rights).1 (appendOn side entry lefts rights).2 outputList
        { state with mem := mem }
      return (twoStreams op timeDelay leftSource rightSource constructed.lefts
        constructed.rights constructed.outputList, constructed.state)) := by
  have onLeft : isRelevantSimpleEvent leftSource event = decide (side = .left) := by
    cases side <;> simp [isRelevantSimpleEvent, relevant, sourceOn, different.symm]
  have onRight : isRelevantSimpleEvent rightSource event = decide (side = .right) := by
    cases side <;> simp [isRelevantSimpleEvent, relevant, sourceOn, different]
  cases built : constructWith env op [] event.eventTimestamp timeDelay
      (appendOn side entry lefts rights).1 (appendOn side entry lefts rights).2 outputList
      { state with mem := mem } with
  | error fault =>
    cases side <;> simp only [appendOn] at built <;>
      simp [publishSimpleEvent, twoStreams, EventExpr.leaves, climb,
        putSimpleEventOnOutputList, onLeft, onRight, appended, constructComplexEvents,
        EventExpr.outputList, built, bind, Except.bind, pure, Except.pure]
  | ok constructed =>
    cases side <;> simp only [appendOn] at built <;>
      simp [publishSimpleEvent, twoStreams, EventExpr.leaves, climb,
        putSimpleEventOnOutputList, onLeft, onRight, appended, constructComplexEvents,
        EventExpr.outputList, EventExpr.setOutputList, built, bind, Except.bind, pure, Except.pure]

theorem publish_other {source : Source} (notLeft : source ≠ leftSource)
    (notRight : source ≠ rightSource) (address : Address) (tuple : Tuple) (ts : Int)
    (state : FEventAggState) : publishSimpleEvent env ⟨[⟨source, address, tuple⟩], ts⟩
        (twoStreams op timeDelay leftSource rightSource lefts rights outputList) state =
      .ok (twoStreams op timeDelay leftSource rightSource lefts rights outputList, state) := by
  have irrelevant : ∀ other, source ≠ other → isRelevantSimpleEvent other
      (⟨[⟨source, address, tuple⟩], ts⟩ : Event Tuple) = false := by
    intro other isOther
    simpa [isRelevantSimpleEvent] using isOther
  simp only [publishSimpleEvent, twoStreams, EventExpr.leaves, map_cons, map_nil,
    cons_append, nil_append, foldlM_cons, foldlM_nil, climb,
    putSimpleEventOnOutputList, irrelevant _ notLeft, irrelevant _ notRight,
    Bool.false_eq_true, if_false, pure_bind, bind_pure]
  rfl

section Data

variable {input : StreamTuple Tuple} {address : Address} {prepared : Pinned}
  {expiredLefts expiredRights : List (EventEntry Tuple)} {state : FEventAggState}
  (ran : prepareData env input
      (twoStreams op timeDelay leftSource rightSource lefts rights outputList) state.mem =
    .ok (⟨[⟨input.source, address, input.tuple⟩], input.timestamp⟩,
      twoStreams op timeDelay leftSource rightSource expiredLefts expiredRights outputList,
      prepared))
  (isHeld : Held prepared
    (holding expiredLefts + holding expiredRights + holding outputList) {address})

include ran isHeld

theorem processData_on (side : Side) (different : leftSource ≠ rightSource)
    (isOn : input.source = sourceOn leftSource rightSource side) : ∃ entry appended,
      entry = ⟨entry.address, ⟨[⟨input.source, address, input.tuple⟩], input.timestamp⟩, [],
        false, false⟩ ∧
      entryAddress env input ⟨twoStreams op timeDelay leftSource rightSource lefts rights
        outputList, state⟩ = .ok entry.address ∧
      Held appended (holding (appendOn side entry expiredLefts expiredRights).1 +
        holding (appendOn side entry expiredLefts expiredRights).2 + holding outputList)
        {address} ∧ ∀ (constructed : Constructed Tuple) (held' : Multiset (Address × Event Tuple)),
        constructWith env op [] input.timestamp timeDelay
          (appendOn side entry expiredLefts expiredRights).1
          (appendOn side entry expiredLefts expiredRights).2 outputList
          { state with mem := appended } = .ok constructed →
        Held constructed.state.mem held' {address} → ∃ mem, processData env input
            (twoStreams op timeDelay leftSource rightSource lefts rights outputList) state =
              .ok ⟨twoStreams op timeDelay leftSource rightSource constructed.lefts
                constructed.rights constructed.outputList, { constructed.state with mem := mem }⟩ ∧
          Held mem held' 0 := by
  obtain ⟨entry, appended, ranAppend, isEntry, isNew, heldAppended⟩ :=
    @appendEvent_spec _ env _ _ _ isHeld
      ⟨[⟨input.source, address, input.tuple⟩], input.timestamp⟩
      (by simp [Event.addresses]) []
  have ranAppends : ∀ entries, appendEvent env
      ⟨[⟨input.source, address, input.tuple⟩], input.timestamp⟩ entries prepared =
        .ok (entries ++ [entry], appended) := appendEvent_list ranAppend
  refine ⟨entry, appended, isEntry, ?_, ?_, ?_⟩
  · simp only [entryAddress, ran, bind, Except.bind]
    exact isNew
  · rw [holding_appendOn, Multiset.cons_add, isEntry]
    exact heldAppended
  · intro constructed held' ranConstruct heldConstructed
    obtain ⟨mem, deleted, heldMem⟩ := @deleteEvent_spec _ _ held' 0
      ⟨[⟨input.source, address, input.tuple⟩], input.timestamp⟩
      (by simpa [Event.addresses] using heldConstructed)
    refine ⟨mem, ?_, heldMem⟩
    have published := @publish_on _ env appended op timeDelay leftSource rightSource
      expiredLefts expiredRights outputList side different
      ⟨[⟨input.source, address, input.tuple⟩], input.timestamp⟩ (congrArg (List.cons · []) isOn)
      { state with mem := prepared } entry ranAppends
    simp [processData_eq, ran, bind, Except.bind, published, ranConstruct, deleted, pure,
      Except.pure]

theorem processData_other (notLeft : input.source ≠ leftSource)
    (notRight : input.source ≠ rightSource) : ∃ mem, processData env input
        (twoStreams op timeDelay leftSource rightSource lefts rights outputList) state =
          .ok ⟨twoStreams op timeDelay leftSource rightSource expiredLefts expiredRights
            outputList, { state with mem := mem }⟩ ∧
      Held mem (holding expiredLefts + holding expiredRights + holding outputList) 0 := by
  obtain ⟨mem, deleted, heldMem⟩ := @deleteEvent_spec _ _ _ 0
    ⟨[⟨input.source, address, input.tuple⟩], input.timestamp⟩
    (by simpa [Event.addresses] using isHeld)
  refine ⟨mem, ?_, heldMem⟩
  simp [processData_eq, ran, bind, Except.bind, publish_other notLeft notRight, deleted, pure,
    Except.pure]

end Data

theorem serviceTimeouts_none (ts : Int) (expr : EventExpr Tuple) {state : FEventAggState}
    (noRequests : state.timeoutRequests = []) :
    serviceTimeouts env ts expr state = .ok (expr, state) := by
  cases state with
  | mk mem requests last punct =>
    cases noRequests
    simp [serviceTimeouts, serviceLoop]

end TwoStreams

end TelegraphCQ.Events
