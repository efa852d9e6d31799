import TelegraphCQ.Events.TwoStreams

/-!
# Delivery of events

The events in the list of the root are handed over one at a time when the node is called
without input.  Events that are not partition consistent are dropped on the way.  An
occurrence is what is left of an event without the addresses of its base tuples.
-/

namespace TelegraphCQ.Events

open Foundation

variable {Tuple : Type}

structure Occurrence (Tuple : Type) where
  parts : List (Source × Tuple)
  timestamp : Int
  deriving DecidableEq, Repr

def Event.occurrence (event : Event Tuple) : Occurrence Tuple where
  parts := event.baseTuples.map fun base => (base.source, base.tuple)
  timestamp := event.eventTimestamp

def Occurrence.consistent (env : EventEnv Tuple) (occurrence : Occurrence Tuple) : Bool :=
  occurrence.parts.all fun part => occurrence.parts.all fun other =>
    !(part.1 < other.1) || env.samePartition part.1 part.2 other.1 other.2

def StreamTuple.occurrence (input : StreamTuple Tuple) : Occurrence Tuple :=
  ⟨[(input.source, input.tuple)], input.timestamp⟩

def together (first second : StreamTuple Tuple) : Occurrence Tuple where
  parts := [(first.source, first.tuple), (second.source, second.tuple)]
  timestamp := max first.timestamp second.timestamp

def Occurrence.join (first second : Occurrence Tuple) : Occurrence Tuple where
  parts := first.parts ++ second.parts.filter fun part =>
    ¬ first.parts.any fun other => other.1 = part.1
  timestamp := max first.timestamp second.timestamp

def EventOut.occurrence? : EventOut Tuple → Option (Occurrence Tuple)
  | .event found => some found.occurrence
  | .punct _ => none

def delivered (outs : List (EventOut Tuple)) : List (Occurrence Tuple) :=
  outs.filterMap EventOut.occurrence?

def pending (env : EventEnv Tuple) (outputList : List (EventEntry Tuple)) :
    List (Occurrence Tuple) :=
  (outputList.map fun entry => entry.event.occurrence).filter (Occurrence.consistent env)

def EventCall.arrival? : EventCall Tuple → Option (StreamTuple Tuple)
  | .data input => some input
  | .punct _ | .idle => none

def arrivals (calls : List (EventCall Tuple)) : List (StreamTuple Tuple) :=
  calls.filterMap EventCall.arrival?

@[simp] theorem arrivals_append_data (calls : List (EventCall Tuple)) (input : StreamTuple Tuple) :
    arrivals (calls ++ [.data input]) = arrivals calls ++ [input] := by
  simp [arrivals, EventCall.arrival?]

@[simp] theorem arrivals_append_punct (calls : List (EventCall Tuple)) (timestamp : Int) :
    arrivals (calls ++ [.punct timestamp]) = arrivals calls := by
  simp [arrivals, EventCall.arrival?]

@[simp] theorem arrivals_append_idle (calls : List (EventCall Tuple)) :
    arrivals (calls ++ [.idle]) = arrivals calls := by
  simp [arrivals, EventCall.arrival?]

def hasRoom (node : FEventAgg Tuple) : Bool :=
  match node.mystate.mem.sweep with
  | .ok swept => swept.pins.length < maxBaseTuplesCached
  | .error _ => false

variable {env : EventEnv Tuple} {op : EventOperator} {timeDelay : Int}
  {leftSource rightSource : Source} {lefts rights outputList : List (EventEntry Tuple)}
  {mem : Pinned} {held : Multiset (Address × Event Tuple)} {node : FEventAgg Tuple}
  {input : StreamTuple Tuple}

theorem isPartitionConsistent_eq (event : Event Tuple) :
    isPartitionConsistent env event = event.occurrence.consistent env := by
  simp [isPartitionConsistent, Occurrence.consistent, Event.occurrence, Function.comp_def]

theorem occurrence_eq_iff {event : Event Tuple} : event.occurrence = input.occurrence ↔
      ∃ address, event = ⟨[⟨input.source, address, input.tuple⟩], input.timestamp⟩ := by
  constructor
  · intro same
    rcases event with ⟨baseTuples, timestamp⟩
    simp only [Event.occurrence, StreamTuple.occurrence, Occurrence.mk.injEq,
      List.map_eq_singleton_iff, Prod.mk.injEq] at same
    obtain ⟨⟨⟨source, address, tuple⟩, rfl, rfl, rfl⟩, rfl⟩ := same
    exact ⟨address, rfl⟩
  · rintro ⟨address, rfl⟩
    rfl

theorem occurrence_combineEvents (first second : Event Tuple) :
    (combineEvents first second).occurrence = first.occurrence.join second.occurrence := by
  simp [combineEvents, Event.occurrence, Occurrence.join, List.filter_map, Function.comp_def]

theorem join_occurrence {first second : StreamTuple Tuple}
    (different : first.source ≠ second.source) :
    first.occurrence.join second.occurrence = together first second := by
  simp [Occurrence.join, StreamTuple.occurrence, together, different]

@[simp] theorem delivered_append (front back : List (EventOut Tuple)) :
    delivered (front ++ back) = delivered front ++ delivered back := List.filterMap_append

theorem pending_append (front back : List (EventEntry Tuple)) :
    pending env (front ++ back) = pending env front ++ pending env back := by
  simp [pending]

variable {entry : EventEntry Tuple}

theorem pending_cons_consistent (consistent : isPartitionConsistent env entry.event = true) :
    pending env (entry :: outputList) = entry.event.occurrence :: pending env outputList := by
  rw [isPartitionConsistent_eq] at consistent
  simp [pending, consistent]

theorem pending_cons_inconsistent (inconsistent : ¬ isPartitionConsistent env entry.event = true) :
    pending env (entry :: outputList) = pending env outputList := by
  rw [isPartitionConsistent_eq] at inconsistent
  simp [pending, inconsistent]

theorem fetchNextComplexEvent_spec (outputList : List (EventEntry Tuple))
    (isHeld : Held mem (held + holding outputList) 0) : ∃ result rest next,
      fetchNextComplexEvent env outputList mem = .ok (result, rest, next) ∧
      (result.map Event.occurrence).toList ++ pending env rest = pending env outputList ∧
      Held next (held + holding rest)
        ((result.map Event.addresses).getD [] : Multiset Address) ∧
      rest.length ≤ outputList.length - 1 := by
  induction outputList generalizing mem with
  | nil => exact ⟨none, [], mem, rfl, rfl, isHeld, le_refl _⟩
  | cons entry entries ih =>
    rw [holding_cons, Multiset.add_cons] at isHeld
    by_cases consistent : isPartitionConsistent env entry.event = true
    · obtain ⟨next, freed, counted, -⟩ := isHeld.free (Multiset.mem_map_of_mem _
        (Multiset.mem_cons_self (entry.address, entry.event) _))
      refine ⟨some entry.event, entries, next, ?_, ?_, ?_, ?_⟩
      · simp [fetchNextComplexEvent, consistent, freed, liftMem, bind, Except.bind, pure,
          Except.pure]
      · rw [pending_cons_consistent consistent]
        rfl
      · simp only [references_cons, Multiset.map_cons, Multiset.erase_cons_head,
          add_zero] at counted
        simp only [Held, Option.map_some, Option.getD_some]
        rwa [add_comm (entry.event.addresses : Multiset Address)] at counted
      · simp
    · obtain ⟨next, deleted, heldNext⟩ := deleteEventEntry_spec isHeld
      obtain ⟨result, rest, final, ran, same, heldFinal, shorter⟩ := ih heldNext
      refine ⟨result, rest, final, ?_, ?_, heldFinal, by simp; omega⟩
      · simp [fetchNextComplexEvent, consistent, deleted, ran, bind, Except.bind]
      · rw [pending_cons_inconsistent consistent, same]

structure OverStreams (op : EventOperator) (timeDelay : Int) (leftSource rightSource : Source)
    (lefts rights outputList : List (EventEntry Tuple)) (node : FEventAgg Tuple) : Prop where
  expr : node.eventExpr =
    twoStreams op timeDelay leftSource rightSource lefts rights outputList
  held : Held node.mystate.mem (holding lefts + holding rights + holding outputList) 0

def backlog (outputList : List (EventEntry Tuple)) (node : FEventAgg Tuple) : Nat :=
  outputList.length + node.mystate.needToEmitPunct.toNat

theorem processIdle_spec
    (streams : OverStreams op timeDelay leftSource rightSource lefts rights outputList node) :
    ∃ emitted rest next, processIdle env node = (emitted, .ok next) ∧
      delivered emitted ++ pending env rest = pending env outputList ∧
      OverStreams op timeDelay leftSource rightSource lefts rights rest next ∧
      next.mystate.timeoutRequests = node.mystate.timeoutRequests ∧
      backlog rest next ≤ backlog outputList node - 1 := by
  by_cases punct : node.mystate.needToEmitPunct = true
  · refine ⟨[.punct node.mystate.lastTupleTimestamp], outputList,
      { node with mystate := { node.mystate with needToEmitPunct := false } }, ?_, rfl,
      ⟨streams.expr, streams.held⟩, rfl, ?_⟩
    · simp [processIdle, punct]
    · simp [backlog, punct]
  · obtain ⟨result, rest, fetched, ran, same, heldFetched, shorter⟩ :=
      @fetchNextComplexEvent_spec _ env _ _ outputList streams.held
    have outputs : node.eventExpr.outputList = outputList := by
      rw [streams.expr]
      rfl
    have replaced : node.eventExpr.setOutputList rest =
        twoStreams op timeDelay leftSource rightSource lefts rights rest := by
      rw [streams.expr]
      rfl
    have less : ∀ mem, backlog rest (⟨node.eventExpr.setOutputList rest,
        { node.mystate with mem := mem }⟩ : FEventAgg Tuple) ≤ backlog outputList node - 1 := by
      intro mem
      simp only [backlog, punct, Bool.toNat_false, add_zero]
      exact shorter
    cases result with
    | none =>
      refine ⟨[], rest, ⟨node.eventExpr.setOutputList rest,
        { node.mystate with mem := fetched }⟩, ?_, same, ⟨replaced, heldFetched⟩, rfl, less fetched⟩
      simp [processIdle, punct, outputs, ran]
    | some event =>
      obtain ⟨next, deleted, heldNext⟩ := @deleteEvent_spec _ _ _ 0 event (by
        simpa using heldFetched)
      refine ⟨[.event event], rest, ⟨node.eventExpr.setOutputList rest,
        { node.mystate with mem := next }⟩, ?_, same, ⟨replaced, heldNext⟩, rfl, less next⟩
      simp [processIdle, punct, outputs, ran, deleted]

theorem drain {m : Nat} (enough : backlog outputList node ≤ m)
    (streams : OverStreams op timeDelay leftSource rightSource lefts rights outputList node) :
    ∃ emitted final, (eventMachine env).run node (List.replicate m .idle) = (emitted, .ok final) ∧
      delivered emitted = pending env outputList := by
  induction m generalizing outputList node with
  | zero =>
    have isEmpty : outputList = [] := by
      rw [← List.length_eq_zero_iff]
      simp only [backlog] at enough
      omega
    rw [isEmpty]
    exact ⟨[], node, rfl, rfl⟩
  | succ m ih =>
    obtain ⟨emitted, rest, next, stepped, same, overNext, -, less⟩ :=
      @processIdle_spec _ env _ _ _ _ _ _ _ _ streams
    obtain ⟨more, final, ran, restSame⟩ := ih (by omega) overNext
    have step : (eventMachine env).step node .idle = (emitted, .ok next) := stepped
    refine ⟨emitted ++ more, final, ?_, ?_⟩
    · rw [List.replicate_succ, (eventMachine env).run_cons_ok step, ran]
    · rw [delivered_append, restSame, same]

theorem handed_over {init : FEventAgg Tuple} {calls : List (EventCall Tuple)}
    {outs : List (EventOut Tuple)} {expected : Multiset (Occurrence Tuple)}
    (ran : (eventMachine env).run init calls = (outs, .ok node))
    (streams : OverStreams op timeDelay leftSource rightSource lefts rights outputList node)
    (produced : (delivered outs : Multiset (Occurrence Tuple)) + pending env outputList =
      expected) :
    (delivered outs : Multiset (Occurrence Tuple)) + pending env node.eventExpr.outputList =
        expected ∧ ∃ m, ∀ more, m ≤ more → ∃ emitted final,
        (eventMachine env).run init (calls ++ List.replicate more .idle) = (emitted, .ok final) ∧
        (delivered emitted : Multiset (Occurrence Tuple)) = expected := by
  have outputs : node.eventExpr.outputList = outputList := by
    rw [streams.expr]
    rfl
  refine ⟨by rw [outputs, produced], backlog outputList node, fun more enough => ?_⟩
  obtain ⟨emitted, final, drained, same⟩ := drain enough streams
  refine ⟨outs ++ emitted, final, ?_, ?_⟩
  · rw [(eventMachine env).run_append_ok ran, drained]
  · rw [delivered_append, ← Multiset.coe_add, same, produced]

/-- Without partitioning attributes, and with addresses that are used again. -/
def stackEnv : EventEnv Nat := ⟨fun _ _ _ _ => true, stackAllocator, 10⟩


end TelegraphCQ.Events
