import TelegraphCQ.Events.Timeouts

/-!
# Left events that are not followed

NOTFOLLOWS over simple events on two streams.  The unmarked entries of the left list are
the left events that are still open: nothing has ended them and no tuple after the delay
has been seen.  When such a tuple is seen, they are emitted before they expire only if a
timeout request is due.
-/

namespace TelegraphCQ.Events

open Foundation List Function

section NotFollows

variable {Tuple : Type}

def EventCall.tick? : EventCall Tuple → Option Int
  | .data input => some input.timestamp
  | .punct timestamp => some timestamp
  | .idle => none

def ticks (calls : List (EventCall Tuple)) : List Int :=
  calls.filterMap EventCall.tick?

section Spec

variable (env : EventEnv Tuple) (timeDelay : Int) (leftSource rightSource : Source)
  (history : List (StreamTuple Tuple)) (seen : List Int)

def endedBy (first second : StreamTuple Tuple) : Bool :=
  second.source = rightSource && decide (first.timestamp < second.timestamp) &&
    decide (second.timestamp ≤ first.timestamp + timeDelay) &&
    (together first second).consistent env

def unfollowed (first : StreamTuple Tuple) : Bool :=
  first.source = leftSource &&
    history.all fun second => !endedBy env timeDelay rightSource first second

def delayOver (first : StreamTuple Tuple) : Bool :=
  seen.any fun tick => first.timestamp + timeDelay < tick

def expectedUnfollowed : Multiset (Occurrence Tuple) :=
  ((history.filter fun first =>
    unfollowed env timeDelay leftSource rightSource history first &&
      delayOver timeDelay seen first).map StreamTuple.occurrence : List (Occurrence Tuple))

def stillOpen : List (Occurrence Tuple) :=
  (history.filter fun first =>
    unfollowed env timeDelay leftSource rightSource history first &&
      !delayOver timeDelay seen first).map StreamTuple.occurrence

end Spec

def timely (ts : Int) (node : FEventAgg Tuple) : Bool :=
  match node.eventExpr with
  | .complex _ timeDelay lchild _ _ => lchild.outputList.all fun first =>
    first.marked || !overdue timeDelay ts first ||
      node.mystate.timeoutRequests.any fun request => request.ts ≤ ts
  | .simple .. => true

def hasRoomAfter (env : EventEnv Tuple) (ts : Int) (node : FEventAgg Tuple) : Bool :=
  match serviceTimeouts env ts node.eventExpr
      { node.mystate with lastTupleTimestamp := ts } with
  | .ok (expr, state) => hasRoom ⟨expr, state⟩
  | .error _ => false

def Timely (env : EventEnv Tuple) (node : FEventAgg Tuple) : EventCall Tuple → Prop
  | .data input => timely input.timestamp node = true ∧
      hasRoomAfter env input.timestamp node = true
  | .punct timestamp => timely timestamp node = true
  | .idle => True

instance (env : EventEnv Tuple) (node : FEventAgg Tuple) :
    ∀ call, Decidable (Timely env node call)
  | .data _ => inferInstanceAs (Decidable (_ ∧ _))
  | .punct _ => inferInstanceAs (Decidable (_ = _))
  | .idle => .isTrue trivial

variable {env : EventEnv Tuple} {timeDelay ts : Int} {leftSource rightSource : Source}
  {history : List (StreamTuple Tuple)} {seen : List Int} {input : StreamTuple Tuple}
  {lefts rights outputList : List (EventEntry Tuple)} {outs : List (EventOut Tuple)}
  {node : FEventAgg Tuple}

/-! ## How what is asked for changes -/

theorem delayOver_concat (first : StreamTuple Tuple) : delayOver timeDelay (seen ++ [ts]) first =
      (delayOver timeDelay seen first || decide (first.timestamp + timeDelay < ts)) := by
  simp [delayOver]

theorem stillOpen_tick : stillOpen env timeDelay leftSource rightSource history (seen ++ [ts]) =
      (stillOpen env timeDelay leftSource rightSource history seen).filter
        fun occurrence => ts ≤ occurrence.timestamp + timeDelay := by
  rw [stillOpen, stillOpen, filter_map, filter_filter]
  congr 1
  apply filter_congr
  intro first _
  have within : (!decide (first.timestamp + timeDelay < ts)) =
      decide (ts ≤ first.occurrence.timestamp + timeDelay) := by
    rw [← decide_not, decide_eq_decide]
    exact not_lt
  simp only [delayOver_concat, Bool.not_or, within, comp]
  rw [← Bool.and_assoc, Bool.and_comm]

theorem expectedUnfollowed_tick :
    expectedUnfollowed env timeDelay leftSource rightSource history (seen ++ [ts]) =
      expectedUnfollowed env timeDelay leftSource rightSource history seen +
        ((stillOpen env timeDelay leftSource rightSource history seen).filter
          fun occurrence => occurrence.timestamp + timeDelay < ts : List (Occurrence Tuple)) := by
  rw [expectedUnfollowed, expectedUnfollowed, stillOpen, filter_map, filter_filter,
    Multiset.coe_add, ← map_append, Multiset.coe_eq_coe]
  apply List.Perm.map
  refine (filter_append_perm (delayOver timeDelay seen) _).symm.trans ?_
  rw [filter_filter, filter_filter]
  apply List.Perm.of_eq
  congr 1
  · apply filter_congr
    intro first _
    rw [delayOver_concat]
    cases delayOver timeDelay seen first <;> simp
  · apply filter_congr
    intro first _
    rw [delayOver_concat]
    cases delayOver timeDelay seen first with
    | true => simp
    | false =>
      simp only [Bool.not_false, Bool.true_and, Bool.false_or, Bool.and_true]
      exact Bool.and_comm _ _

section Arrivals

variable (latest : ∀ earlier ∈ history, earlier.timestamp ≤ input.timestamp)
  (bounded : ∀ tick ∈ seen, tick ≤ input.timestamp) (counted : input.timestamp ∈ seen)

theorem unfollowed_concat_of_ne (notRight : input.source ≠ rightSource)
    (first : StreamTuple Tuple) :
    unfollowed env timeDelay leftSource rightSource (history ++ [input]) first =
      unfollowed env timeDelay leftSource rightSource history first := by
  simp [unfollowed, endedBy, notRight]

theorem arrival_other (notLeft : input.source ≠ leftSource)
    (notRight : input.source ≠ rightSource) :
    stillOpen env timeDelay leftSource rightSource (history ++ [input]) seen =
        stillOpen env timeDelay leftSource rightSource history seen ∧
      expectedUnfollowed env timeDelay leftSource rightSource (history ++ [input]) seen =
        expectedUnfollowed env timeDelay leftSource rightSource history seen := by
  have notIt : unfollowed env timeDelay leftSource rightSource history input = false := by
    simp [unfollowed, notLeft]
  simp [stillOpen, expectedUnfollowed, unfollowed_concat_of_ne notRight, filter_append, notIt]

include latest bounded counted in
theorem arrival_left (different : leftSource ≠ rightSource) (isOn : input.source = leftSource) :
    stillOpen env timeDelay leftSource rightSource (history ++ [input]) seen =
        stillOpen env timeDelay leftSource rightSource history seen ++
          (if timeDelay < 0 then [] else [input.occurrence]) ∧
      expectedUnfollowed env timeDelay leftSource rightSource (history ++ [input]) seen =
        expectedUnfollowed env timeDelay leftSource rightSource history seen +
          ((if timeDelay < 0 then [input.occurrence] else [] : List (Occurrence Tuple)) :
            Multiset (Occurrence Tuple)) := by
  have notRight : input.source ≠ rightSource := by rw [isOn]; exact different
  have isIt : unfollowed env timeDelay leftSource rightSource history input = true := by
    simp only [unfollowed, isOn, decide_true, Bool.true_and, all_eq_true, endedBy]
    intro earlier isEarlier
    have := latest earlier isEarlier
    simp only [Bool.not_eq_true', Bool.and_eq_false_iff, decide_eq_false_iff_not]
    exact .inl (.inl (.inr (by omega)))
  have atOnce : delayOver timeDelay seen input = decide (timeDelay < 0) := by
    rw [Bool.eq_iff_iff]
    simp only [delayOver, any_eq_true, decide_eq_true_eq]
    constructor
    · rintro ⟨tick, isTick, late⟩
      have := bounded tick isTick
      omega
    · exact fun negative => ⟨input.timestamp, counted, by omega⟩
  by_cases negative : timeDelay < 0
  · simp [stillOpen, expectedUnfollowed, unfollowed_concat_of_ne notRight, filter_append,
      isIt, atOnce, negative, ← Multiset.coe_add]
  · simp [stillOpen, expectedUnfollowed, unfollowed_concat_of_ne notRight, filter_append,
      isIt, atOnce, negative]

def ends (env : EventEnv Tuple) (timeDelay : Int) (input : StreamTuple Tuple)
    (occurrence : Occurrence Tuple) : Bool :=
  decide (occurrence.timestamp < input.timestamp) &&
    decide (input.timestamp ≤ occurrence.timestamp + timeDelay) &&
    (occurrence.join input.occurrence).consistent env

include bounded in
theorem arrival_right (different : leftSource ≠ rightSource) (isOn : input.source = rightSource) :
    stillOpen env timeDelay leftSource rightSource (history ++ [input]) seen =
        (stillOpen env timeDelay leftSource rightSource history seen).filter
          (fun occurrence => !ends env timeDelay input occurrence) ∧
      expectedUnfollowed env timeDelay leftSource rightSource (history ++ [input]) seen =
        expectedUnfollowed env timeDelay leftSource rightSource history seen := by
  have notLeft : input.source ≠ leftSource := by rw [isOn]; exact different.symm
  have notIt : ∀ more, unfollowed env timeDelay leftSource rightSource more input = false := by
    intro more
    simp [unfollowed, notLeft]
  constructor
  · rw [stillOpen, stillOpen, filter_append, filter_map, filter_filter,
      filter_cons_of_neg (by simp [notIt]), filter_nil, append_nil]
    congr 1
    apply filter_congr
    intro first _
    by_cases onLeft : first.source = leftSource
    · have same : ends env timeDelay input first.occurrence =
          endedBy env timeDelay rightSource first input := by
        rw [ends, endedBy, join_occurrence (by rw [onLeft, isOn]; exact different)]
        simp only [isOn, decide_true, Bool.true_and]
        rfl
      simp only [unfollowed, all_append, all_cons, all_nil, Bool.and_true, comp, same]
      cases endedBy env timeDelay rightSource first input <;> simp
    · simp [unfollowed, onLeft]
  · rw [expectedUnfollowed, expectedUnfollowed, filter_append,
      filter_cons_of_neg (by simp [notIt]), filter_nil, append_nil]
    congr 2
    apply filter_congr
    intro first _
    cases isOver : delayOver timeDelay seen first with
    | false => simp
    | true =>
      obtain ⟨tick, isTick, late⟩ := by simpa [delayOver] using isOver
      have := bounded tick isTick
      have notEnded : endedBy env timeDelay rightSource first input = false := by
        simp only [endedBy, Bool.and_eq_false_iff, decide_eq_false_iff_not]
        exact .inl (.inr (by omega))
      simp [unfollowed, notEnded]

end Arrivals

/-! ## The left list -/

def unmarked (lefts : List (EventEntry Tuple)) : List (Occurrence Tuple) :=
  (lefts.filter fun first => !first.marked).map fun first => first.event.occurrence

theorem unmarked_append (front back : List (EventEntry Tuple)) :
    unmarked (front ++ back) = unmarked front ++ unmarked back := by
  simp [unmarked]

theorem unmarked_examined (lefts : List (EventEntry Tuple)) :
    unmarked (lefts.map (examined env timeDelay ts rights)) =
      (lefts.filter fun first => !first.marked && !terminated env timeDelay rights first &&
        !overdue timeDelay ts first).map fun first => first.event.occurrence := by
  simp [unmarked, filter_map, comp_def]

theorem unmarked_expired (lefts : List (EventEntry Tuple)) :
    unmarked (expired .interval ts timeDelay lefts) =
      (unmarked lefts).filter fun occurrence => ts ≤ occurrence.timestamp + timeDelay := by
  rw [unmarked, unmarked, expired, filter_map, filter_filter, filter_filter]
  congr 1
  apply filter_congr
  intro first _
  exact Bool.and_comm _ _

theorem unmarked_serviced (lefts : List (EventEntry Tuple)) :
    unmarked (lefts.map (examined env timeDelay ts [])) =
      (unmarked lefts).filter fun occurrence => ts ≤ occurrence.timestamp + timeDelay := by
  rw [unmarked_examined, unmarked, filter_map, filter_filter]
  congr 1
  apply filter_congr
  intro first _
  have within : (!overdue timeDelay ts first) =
      decide (ts ≤ first.event.occurrence.timestamp + timeDelay) := by
    rw [overdue, ← decide_not, decide_eq_decide]
    exact not_lt
  simp only [terminated, any_nil, Bool.not_false, Bool.and_true, comp, within]
  exact Bool.and_comm _ _

theorem emitted_serviced (lefts : List (EventEntry Tuple)) :
    ((lefts.filter (emits env timeDelay ts [])).map fun first => first.event.occurrence) =
      (unmarked lefts).filter fun occurrence => occurrence.timestamp + timeDelay < ts := by
  rw [unmarked, filter_map, filter_filter]
  congr 1
  apply filter_congr
  intro first _
  rw [emits_nil, Bool.and_comm]
  rfl

theorem consistent_occurrence (input : StreamTuple Tuple) :
    input.occurrence.consistent env = true := by
  simp [Occurrence.consistent, StreamTuple.occurrence]

theorem terminates_eq_ends {first second : Event Tuple} {left : StreamTuple Tuple}
    (isLeft : first.occurrence = left.occurrence) (isRight : second.occurrence = input.occurrence)
    (different : left.source ≠ input.source) (before : left.timestamp ≤ input.timestamp) :
    terminates env timeDelay first second = ends env timeDelay input first.occurrence := by
  have noConflict : haveSimpleEventConflict first second = false := by
    obtain ⟨leftAddress, rfl⟩ := occurrence_eq_iff.mp isLeft
    obtain ⟨rightAddress, rfl⟩ := occurrence_eq_iff.mp isRight
    simp [haveSimpleEventConflict, different]
  have leftTime : first.eventTimestamp = left.timestamp := congrArg Occurrence.timestamp isLeft
  have rightTime : second.eventTimestamp = input.timestamp := congrArg Occurrence.timestamp isRight
  have sameTime : first.occurrence.timestamp = left.timestamp :=
    congrArg Occurrence.timestamp isLeft
  rw [terminates, ends, isPartitionConsistent_eq, occurrence_combineEvents, isRight, noConflict,
    passAdditionalNotFollowsTest, leftTime, rightTime, sameTime, Bool.eq_iff_iff]
  simp only [Bool.not_false, Bool.true_and, Bool.and_eq_true, decide_eq_true_eq]
  constructor
  · rintro ⟨⟨other, consistent⟩, within⟩
    exact ⟨⟨by omega, within⟩, consistent⟩
  · rintro ⟨⟨later, within⟩, consistent⟩
    exact ⟨⟨by omega, consistent⟩, within⟩

theorem pending_simple {entries : List (EventEntry Tuple)} {occurrences : List (Occurrence Tuple)}
    (same : (entries.map fun entry => entry.event.occurrence) = occurrences)
    (simple : ∀ occurrence ∈ occurrences, ∃ input : StreamTuple Tuple,
      occurrence = input.occurrence) : pending env entries = occurrences := by
  rw [pending, same, filter_eq_self]
  intro occurrence isOne
  obtain ⟨input, rfl⟩ := simple occurrence isOne
  exact consistent_occurrence input

theorem stillOpen_simple {occurrence : Occurrence Tuple}
    (isOpen : occurrence ∈ stillOpen env timeDelay leftSource rightSource history seen) :
    ∃ earlier ∈ history, earlier.source = leftSource ∧
      delayOver timeDelay seen earlier = false ∧ occurrence = earlier.occurrence := by
  obtain ⟨earlier, isEarlier, rfl⟩ := mem_map.mp isOpen
  obtain ⟨inHistory, holds⟩ := mem_filter.mp isEarlier
  simp only [unfollowed, Bool.and_eq_true, decide_eq_true_eq, Bool.not_eq_true'] at holds
  exact ⟨earlier, inHistory, holds.1.1, holds.2, rfl⟩

/-! ## The node -/

/-- The state of the node after a history: the unmarked entries are the open events, and
what was produced is what the history asks for. -/
structure Watched (env : EventEnv Tuple) (timeDelay : Int) (leftSource rightSource : Source)
    (history : List (StreamTuple Tuple)) (seen : List Int) (outs : List (EventOut Tuple))
    (node : FEventAgg Tuple) (lefts outputList : List (EventEntry Tuple)) : Prop where
  streams : OverStreams .notfollows timeDelay leftSource rightSource lefts [] outputList node
  atRoot : ∀ request ∈ node.mystate.timeoutRequests, request.node = []
  few : node.mystate.timeoutRequests.length ≤ history.length
  settling : Settling lefts
  isOpen : unmarked lefts = stillOpen env timeDelay leftSource rightSource history seen
  produced : (delivered outs : Multiset (Occurrence Tuple)) + pending env outputList =
    expectedUnfollowed env timeDelay leftSource rightSource history seen

theorem Watched.tick {expr : EventExpr Tuple} {state : FEventAggState}
    (watched : Watched env timeDelay leftSource rightSource history seen outs ⟨expr, state⟩ lefts
      outputList)
    (enough : history.length ≤ env.fuel) (isTimely : timely ts ⟨expr, state⟩ = true) :
    ∃ expr' state' lefts' outputList',
      serviceTimeouts env ts expr { state with lastTupleTimestamp := ts } = .ok (expr', state') ∧
      Watched env timeDelay leftSource rightSource history (seen ++ [ts]) outs ⟨expr', state'⟩
        lefts' outputList' := by
  obtain rfl : expr = twoStreams .notfollows timeDelay leftSource rightSource lefts [] outputList :=
    watched.streams.expr
  have due : (∃ first ∈ lefts, emits env timeDelay ts [] first = true) →
      ∃ request ∈ state.timeoutRequests, request.ts ≤ ts := by
    rintro ⟨first, isFirst, emitted⟩
    rw [emits_nil, Bool.and_eq_true, Bool.not_eq_true'] at emitted
    simp only [timely, twoStreams, EventExpr.outputList, all_eq_true] at isTimely
    simpa [emitted] using isTimely first isFirst
  obtain ⟨entries, next, ran, events, heldNext⟩ :=
    @serviceLoop_spec _ env timeDelay ts lefts 0 leftSource rightSource outputList env.fuel
      state.timeoutRequests [] { state with lastTupleTimestamp := ts } watched.streams.held
      (watched.few.trans enough) watched.atRoot watched.settling due
  refine ⟨_, _, _, _, ran, ⟨rfl, heldNext⟩, ?_, ?_, ?_, ?_, ?_⟩
  · intro request isRequest
    exact watched.atRoot request (mem_of_mem_filter isRequest)
  · exact (length_filter_le _ _).trans watched.few
  · exact forall_mem_map.mpr fun old _ => examined_settled old
  · rw [unmarked_serviced, watched.isOpen, stillOpen_tick]
  · have occurrences : (entries.map fun entry => entry.event.occurrence) =
        (stillOpen env timeDelay leftSource rightSource history seen).filter
          fun occurrence => occurrence.timestamp + timeDelay < ts := by
      rw [← watched.isOpen, ← @emitted_serviced _ env]
      simpa [comp_def] using congrArg (List.map Event.occurrence) events
    rw [pending_append, ← Multiset.coe_add, ← add_assoc, watched.produced,
      expectedUnfollowed_tick, pending_simple occurrences]
    intro occurrence isOne
    obtain ⟨earlier, -, -, -, same⟩ := stillOpen_simple (mem_of_mem_filter isOne)
    exact ⟨earlier, same⟩

abbrev Arrives (env : EventEnv Tuple) (timeDelay : Int) (leftSource rightSource : Source)
    (history : List (StreamTuple Tuple)) (seen : List Int) (outs : List (EventOut Tuple))
    (input : StreamTuple Tuple) (lefts outputList : List (EventEntry Tuple))
    (state : FEventAggState) : Prop :=
  ∃ next lefts' outputList', processData env input
      (twoStreams .notfollows timeDelay leftSource rightSource lefts [] outputList) state =
        .ok next ∧
    Watched env timeDelay leftSource rightSource (history ++ [input]) seen outs next lefts'
      outputList'

section DataStep

variable {state : FEventAggState}
  (room : hasRoom ⟨twoStreams .notfollows timeDelay leftSource rightSource lefts [] outputList,
    state⟩ = true)
  (watched : Watched env timeDelay leftSource rightSource history seen outs
    ⟨twoStreams .notfollows timeDelay leftSource rightSource lefts [] outputList, state⟩ lefts
    outputList)

include room in
theorem roomFor (swept : Pinned) (ran : state.mem.sweep = .ok swept) :
    swept.pins.length < maxBaseTuplesCached := by
  simpa [hasRoom, ran] using room

include room watched in
theorem processData_examines (side : Side) (different : leftSource ≠ rightSource)
    (isOn : input.source = sourceOn leftSource rightSource side) :
    ∃ entry onLeft onRight entries next,
      entry.event.occurrence = input.occurrence ∧ entry.marked = false ∧
      appendOn side entry (expired .interval input.timestamp timeDelay lefts) [] =
        (onLeft, onRight) ∧ processData env input
          (twoStreams .notfollows timeDelay leftSource rightSource lefts [] outputList) state =
        .ok ⟨twoStreams .notfollows timeDelay leftSource rightSource
          (onLeft.map (examined env timeDelay input.timestamp onRight)) []
          (outputList ++ entries), { state with
            mem := next
            timeoutRequests := state.timeoutRequests ++
              onLeft.flatMap (requestsOf env timeDelay input.timestamp onRight []) }⟩ ∧
      entries.map EventEntry.event =
        (onLeft.filter (emits env timeDelay input.timestamp onRight)).map EventEntry.event ∧
      Held next (holding (onLeft.map (examined env timeDelay input.timestamp onRight)) +
        holding ([] : List (EventEntry Tuple)) + holding (outputList ++ entries)) 0 := by
  obtain ⟨address, prepared, ran, heldPrepared⟩ :=
    @prepareData_spec _ env _ .notfollows timeDelay leftSource rightSource lefts [] outputList
      input watched.streams.held (roomFor room)
  obtain ⟨entry, appended, isEntry, -, heldAppended, finish⟩ :=
    @processData_on _ env .notfollows timeDelay leftSource rightSource lefts [] outputList input
      address prepared _ _ state ran heldPrepared side different isOn
  obtain ⟨detected, entries, built, ranConstruct, events, heldBuilt⟩ :=
    @constructNotfollows_spec _ env timeDelay input.timestamp _ _ _ outputList []
      { state with mem := appended } heldAppended
  obtain ⟨next, ranData, heldNext⟩ := finish _ _ ranConstruct heldBuilt
  exact ⟨entry, _, _, entries, next, by rw [isEntry]; rfl, by rw [isEntry], rfl, ranData, events,
    heldNext⟩

variable (counted : input.timestamp ∈ seen)

include counted in
theorem stillOpen_within {occurrence : Occurrence Tuple}
    (isOpen : occurrence ∈ stillOpen env timeDelay leftSource rightSource history seen) :
    input.timestamp ≤ occurrence.timestamp + timeDelay := by
  obtain ⟨earlier, -, -, notOver, rfl⟩ := stillOpen_simple isOpen
  simp only [delayOver, any_eq_false, decide_eq_true_eq, not_lt] at notOver
  exact notOver input.timestamp counted

include watched counted in
theorem Watched.unmarked_kept : unmarked (expired .interval input.timestamp timeDelay lefts) =
      stillOpen env timeDelay leftSource rightSource history seen := by
  rw [unmarked_expired, watched.isOpen, filter_eq_self]
  intro occurrence isOpen
  exact decide_eq_true (stillOpen_within counted isOpen)

include watched in
theorem Watched.settling_kept : Settling (expired .interval input.timestamp timeDelay lefts) :=
  fun first isFirst => watched.settling first (mem_of_mem_filter isFirst)

include room watched counted in
theorem Watched.arrive_other (notLeft : input.source ≠ leftSource)
    (notRight : input.source ≠ rightSource) :
    Arrives env timeDelay leftSource rightSource history seen outs input lefts outputList
      state := by
  obtain ⟨address, prepared, ran, heldPrepared⟩ :=
    @prepareData_spec _ env _ .notfollows timeDelay leftSource rightSource lefts [] outputList
      input watched.streams.held (roomFor room)
  obtain ⟨next, ranData, heldNext⟩ :=
    @processData_other _ env .notfollows timeDelay leftSource rightSource lefts [] outputList
      input address prepared _ _ state ran heldPrepared notLeft notRight
  obtain ⟨sameOpen, sameExpected⟩ :=
    @arrival_other _ env timeDelay leftSource rightSource history seen input notLeft notRight
  refine ⟨_, _, _, ranData, ⟨rfl, heldNext⟩, watched.atRoot, ?_, watched.settling_kept, ?_, ?_⟩
  · exact watched.few.trans (by simp)
  · exact (watched.unmarked_kept counted).trans sameOpen.symm
  · exact watched.produced.trans sameExpected.symm

variable (different : leftSource ≠ rightSource)
  (latest : ∀ earlier ∈ history, earlier.timestamp ≤ input.timestamp)
  (bounded : ∀ tick ∈ seen, tick ≤ input.timestamp)
include room watched counted different latest bounded

theorem Watched.arrive_left (isOn : input.source = leftSource) :
    Arrives env timeDelay leftSource rightSource history seen outs input lefts outputList
      state := by
  obtain ⟨entry, onLeft, onRight, entries, next, occurs, isUnmarked, lists, ranData, events,
    heldNext⟩ := processData_examines room watched .left different isOn
  obtain ⟨rfl, rfl⟩ := Prod.mk.inj lists
  obtain ⟨nowOpen, nowExpected⟩ := @arrival_left _ env timeDelay leftSource rightSource history
    seen input latest bounded counted different isOn
  have unmarkedAll : unmarked (expired .interval input.timestamp timeDelay lefts ++ [entry]) =
      stillOpen env timeDelay leftSource rightSource history seen ++ [input.occurrence] := by
    rw [unmarked_append, watched.unmarked_kept counted]
    simp [unmarked, isUnmarked, occurs]
  refine ⟨_, _, _, ranData, ⟨rfl, heldNext⟩, ?_, ?_, ?_, ?_, ?_⟩
  · refine forall_mem_append.mpr ⟨watched.atRoot, fun request isNew => ?_⟩
    obtain ⟨first, -, asked⟩ := mem_flatMap.mp isNew
    exact requestsOf_node asked
  · have onlyNew : (expired .interval input.timestamp timeDelay lefts).flatMap
        (requestsOf env timeDelay input.timestamp [] []) = [] := by
      rw [flatMap_eq_nil_iff]
      exact fun first isFirst => requestsOf_settled (watched.settling_kept first isFirst)
    have few := watched.few
    have one := @length_requestsOf_le _ env timeDelay input.timestamp [] [] entry
    simp only [flatMap_append, onlyNew, nil_append, flatMap_cons,
      flatMap_nil, append_nil, length_append, length_singleton] at few ⊢
    omega
  · exact forall_mem_map.mpr fun old _ => examined_settled old
  · rw [unmarked_serviced, unmarkedAll, nowOpen, filter_append,
      filter_eq_self.mpr fun occurrence isOpen =>
        decide_eq_true (stillOpen_within counted isOpen)]
    by_cases negative : timeDelay < 0
    · simp [StreamTuple.occurrence, negative]
    · simp [StreamTuple.occurrence, negative, not_lt.mp negative]
  · have occurrences : (entries.map fun entry => entry.event.occurrence) =
        if timeDelay < 0 then [input.occurrence] else [] := by
      have emitted := congrArg (List.map Event.occurrence) events
      rw [map_map, map_map] at emitted
      refine emitted.trans ((emitted_serviced _).trans ?_)
      rw [unmarkedAll, filter_append, filter_eq_nil_iff.mpr, nil_append]
      · by_cases negative : timeDelay < 0 <;>
          simp [StreamTuple.occurrence, negative]
      · intro occurrence isOpen
        have := stillOpen_within counted isOpen
        simpa using this
    rw [pending_append, ← Multiset.coe_add, ← add_assoc, watched.produced, nowExpected,
      pending_simple occurrences]
    intro occurrence isOne
    refine ⟨input, ?_⟩
    split at isOne
    · exact mem_singleton.mp isOne
    · cases isOne

theorem Watched.arrive_right (isOn : input.source = rightSource) :
    Arrives env timeDelay leftSource rightSource history seen outs input lefts outputList
      state := by
  obtain ⟨entry, onLeft, onRight, entries, next, occurs, -, lists, ranData, events,
    heldNext⟩ := processData_examines room watched .right different isOn
  obtain ⟨rfl, rfl⟩ := Prod.mk.inj lists
  obtain ⟨nowOpen, nowExpected⟩ := @arrival_right _ env timeDelay leftSource rightSource history
    seen input bounded different isOn
  have notLate : ∀ first ∈ expired .interval input.timestamp timeDelay lefts,
      overdue timeDelay input.timestamp first = false := by
    intro first isFirst
    simpa [overdue, expired] using (mem_filter.mp isFirst).2
  have noRequests : (expired .interval input.timestamp timeDelay lefts).flatMap
      (requestsOf env timeDelay input.timestamp ([] ++ [entry]) []) = [] := by
    rw [flatMap_eq_nil_iff]
    exact fun first isFirst => requestsOf_settled (watched.settling_kept first isFirst)
  have noEntries : entries = [] := by
    rw [filter_eq_nil_iff.mpr] at events
    · simpa using events
    · intro first isFirst
      simp [emits, notLate first isFirst]
  rw [noRequests, append_nil] at ranData
  refine ⟨_, _, _, ranData, ⟨rfl, heldNext⟩, watched.atRoot, ?_, ?_, ?_, ?_⟩
  · exact watched.few.trans (by simp)
  · exact forall_mem_map.mpr fun old _ => examined_settled old
  · rw [unmarked_examined, nowOpen, ← watched.unmarked_kept counted, unmarked, filter_map,
      filter_filter]
    congr 1
    apply filter_congr
    intro first isFirst
    cases isMarked : first.marked with
    | true => simp
    | false =>
      have isOpen : first.event.occurrence ∈
          stillOpen env timeDelay leftSource rightSource history seen := by
        rw [← watched.unmarked_kept counted]
        exact mem_map.mpr ⟨first, mem_filter.mpr ⟨isFirst, by simp [isMarked]⟩, rfl⟩
      obtain ⟨earlier, inHistory, onLeft, -, same⟩ := stillOpen_simple isOpen
      have sameEnds : terminated env timeDelay ([] ++ [entry]) first =
          ends env timeDelay input first.event.occurrence := by
        rw [terminated, nil_append, any_cons, any_nil, Bool.or_false]
        exact terminates_eq_ends same occurs (by rw [onLeft, isOn]; exact different)
          (latest earlier inHistory)
      simp only [sameEnds, notLate first isFirst, comp, Bool.not_false,
        Bool.true_and, Bool.and_true]
  · rw [noEntries, append_nil, nowExpected]
    exact watched.produced

end DataStep

@[simp] theorem ticks_append_idle (calls : List (EventCall Tuple)) :
    ticks (calls ++ [.idle]) = ticks calls := by
  simp [ticks, EventCall.tick?]

@[simp] theorem ticks_append_data (calls : List (EventCall Tuple)) (input : StreamTuple Tuple) :
    ticks (calls ++ [.data input]) = ticks calls ++ [input.timestamp] := by
  simp [ticks, EventCall.tick?]

@[simp] theorem ticks_append_punct (calls : List (EventCall Tuple)) (timestamp : Int) :
    ticks (calls ++ [.punct timestamp]) = ticks calls ++ [timestamp] := by
  simp [ticks, EventCall.tick?]

variable {calls : List (EventCall Tuple)}

theorem tick_of_arrival (isArrival : input ∈ arrivals calls) : input.timestamp ∈ ticks calls := by
  obtain ⟨call, isCall, arrived⟩ := mem_filterMap.mp isArrival
  cases call with
  | data other =>
    obtain rfl : other = input := Option.some.inj arrived
    exact mem_filterMap.mpr ⟨.data other, isCall, rfl⟩
  | punct _ => cases arrived
  | idle => cases arrived

theorem length_arrivals_le (calls : List (EventCall Tuple)) :
    (arrivals calls).length ≤ calls.length := length_filterMap_le _ _

theorem Watched.step (different : leftSource ≠ rightSource) {call : EventCall Tuple}
    (ordered : (ticks (calls ++ [call])).Pairwise fun earlier later => earlier ≤ later)
    (enough : (calls ++ [call]).length ≤ env.fuel) (isTimely : Timely env node call)
    (watched : Watched env timeDelay leftSource rightSource (arrivals calls) (ticks calls) outs
      node lefts outputList) : ∃ emitted next lefts' outputList',
      processNextFEventAgg env node call = (emitted, .ok next) ∧
      Watched env timeDelay leftSource rightSource (arrivals (calls ++ [call]))
        (ticks (calls ++ [call])) (outs ++ emitted) next lefts' outputList' := by
  have fuelEnough : (arrivals calls).length ≤ env.fuel := by
    have := length_arrivals_le calls
    simp only [length_append, length_singleton] at enough
    omega
  rcases node with ⟨expr, state⟩
  cases call with
  | data input =>
    rw [arrivals_append_data, ticks_append_data] at *
    obtain ⟨expr', state', lefts', outputList', serviced, ticked⟩ :=
      watched.tick fuelEnough isTimely.1
    obtain rfl : expr' = twoStreams .notfollows timeDelay leftSource rightSource lefts' []
      outputList' := ticked.streams.expr
    have room : hasRoom ⟨twoStreams .notfollows timeDelay leftSource rightSource lefts' []
        outputList', state'⟩ = true := by
      simpa only [hasRoomAfter, serviced] using isTimely.2
    have bounded : ∀ tick ∈ ticks calls ++ [input.timestamp], tick ≤ input.timestamp :=
      forall_mem_append.mpr ⟨fun tick old =>
        (pairwise_append.mp ordered).2.2 tick old input.timestamp (by simp), by simp⟩
    have latest : ∀ earlier ∈ arrivals calls, earlier.timestamp ≤ input.timestamp :=
      fun earlier isEarlier =>
        bounded _ (mem_append_left _ (tick_of_arrival isEarlier))
    have counted : input.timestamp ∈ ticks calls ++ [input.timestamp] := by simp
    have arrives : Arrives env timeDelay leftSource rightSource (arrivals calls)
        (ticks calls ++ [input.timestamp]) outs input lefts' outputList' state' := by
      by_cases onLeft : input.source = leftSource
      · exact ticked.arrive_left room counted different latest bounded onLeft
      by_cases onRight : input.source = rightSource
      · exact ticked.arrive_right room counted different latest bounded onRight
      exact ticked.arrive_other room counted onLeft onRight
    obtain ⟨next, lefts'', outputList'', ran, watchedNext⟩ := arrives
    refine ⟨[], next, lefts'', outputList'', ?_, ?_⟩
    · simp only [processNextFEventAgg, serviced, bind, Except.bind, ran]
    · rwa [append_nil]
  | punct timestamp =>
    rw [arrivals_append_punct, ticks_append_punct] at *
    obtain ⟨expr', state', lefts', outputList', serviced, ticked⟩ :=
      watched.tick fuelEnough isTimely
    refine ⟨[], ⟨expr', { state' with needToEmitPunct := true }⟩, lefts', outputList', ?_, ?_⟩
    · simp only [processNextFEventAgg, serviced, bind, Except.bind, pure, Except.pure]
    · rw [append_nil]
      exact { ticked with streams := ⟨ticked.streams.expr, ticked.streams.held⟩ }
  | idle =>
    rw [arrivals_append_idle, ticks_append_idle] at *
    obtain ⟨emitted, rest, next, ran, same, overNext, requests, -⟩ :=
      @processIdle_spec _ env _ _ _ _ _ _ _ _ watched.streams
    refine ⟨emitted, next, lefts, rest, ran, ?_⟩
    refine { watched with
      streams := overNext
      atRoot := by rw [requests]; exact watched.atRoot
      few := by rw [requests]; exact watched.few
      produced := ?_ }
    rw [delivered_append, ← Multiset.coe_add, add_assoc, Multiset.coe_add, same, watched.produced]

def notfollowsNode (timeDelay : Int) (leftSource rightSource : Source) : FEventAgg Tuple :=
  processInitFEventAgg (twoStreams .notfollows timeDelay leftSource rightSource [] [] [])

theorem watched_init : Watched env timeDelay leftSource rightSource [] [] []
      (notfollowsNode timeDelay leftSource rightSource) [] [] where
  streams := ⟨rfl, held_init⟩
  atRoot _ isRequest := by cases isRequest
  few := le_refl _
  settling _ isFirst := by cases isFirst
  isOpen := rfl
  produced := rfl

/-- As long as a timeout request is due whenever an open event is overdue, and the cache has
room, NOTFOLLOWS emits each left event that is not followed once its delay is over, and
nothing else; calls without input hand them over. -/
theorem unfollowed_emitted_once (env : EventEnv Tuple) (timeDelay : Int)
    (different : leftSource ≠ rightSource) (calls : List (EventCall Tuple))
    (ordered : (ticks calls).Pairwise fun earlier later => earlier ≤ later)
    (enough : calls.length ≤ env.fuel) (guarded : (eventMachine env).Guarded (Timely env)
      (notfollowsNode timeDelay leftSource rightSource) calls) :
    ∃ outs node, (eventMachine env).run (notfollowsNode timeDelay leftSource rightSource)
        calls = (outs, .ok node) ∧
      (delivered outs : Multiset (Occurrence Tuple)) + pending env node.eventExpr.outputList =
        expectedUnfollowed env timeDelay leftSource rightSource (arrivals calls)
          (ticks calls) ∧
      ∃ m, ∀ more, m ≤ more → ∃ emitted final,
        (eventMachine env).run (notfollowsNode timeDelay leftSource rightSource)
          (calls ++ List.replicate more .idle) = (emitted, .ok final) ∧
        (delivered emitted : Multiset (Occurrence Tuple)) =
          expectedUnfollowed env timeDelay leftSource rightSource (arrivals calls)
            (ticks calls) := by
  obtain ⟨outs, node, ran, lefts, outputList, watched⟩ :=
    @Machine.run_guarded _ _ _ _ (eventMachine env)
      (fun calls => (ticks calls).Pairwise (fun earlier later => earlier ≤ later) ∧
        calls.length ≤ env.fuel)
      (Timely env)
      (fun calls outs node => ∃ lefts outputList,
        Watched env timeDelay leftSource rightSource (arrivals calls) (ticks calls) outs node
          lefts outputList)
      (fun calls more valid => by
        rw [ticks, filterMap_append, length_append] at valid
        exact ⟨(pairwise_append.mp valid.1).1, by omega⟩)
      (fun calls call outs node valid isTimely ⟨lefts, outputList, watched⟩ => by
        obtain ⟨emitted, next, lefts', outputList', ran, watchedNext⟩ :=
          watched.step different valid.1 valid.2 isTimely
        exact ⟨emitted, next, ran, lefts', outputList', watchedNext⟩)
      (notfollowsNode timeDelay leftSource rightSource) ⟨[], [], watched_init⟩ calls
      ⟨ordered, enough⟩ guarded
  exact ⟨outs, node, ran, handed_over ran watched.streams watched.produced⟩

end NotFollows

theorem unfollowed_emitted_once_in_time :
    ∃ outs node, (eventMachine stackEnv).run (notfollowsNode 5 0 1)
        [.data ⟨0, 10, 0⟩, .data ⟨1, 20, 6⟩, .punct 12] = (outs, .ok node) ∧
      (delivered outs : Multiset (Occurrence Nat)) +
          pending stackEnv node.eventExpr.outputList =
        expectedUnfollowed stackEnv 5 0 1 [⟨0, 10, 0⟩, ⟨1, 20, 6⟩] [0, 6, 12] := by
  obtain ⟨outs, node, ran, produced, -⟩ := unfollowed_emitted_once stackEnv 5
    (by decide : (0 : Source) ≠ 1) [.data ⟨0, 10, 0⟩, .data ⟨1, 20, 6⟩, .punct 12]
    (by decide) (by decide) (by decide)
  exact ⟨outs, node, ran, produced⟩

/-- A tuple with the timestamp of the deadline uses the request up, and the next one expires
the event. -/
theorem unfollowed_lost_at_deadline :
    let calls : List (EventCall Nat) :=
      [.data ⟨0, 10, 0⟩, .data ⟨2, 20, 5⟩, .data ⟨2, 30, 6⟩, .idle]
    (ticks calls).Pairwise (fun earlier later => earlier ≤ later) ∧
      ∃ outs node, (eventMachine stackEnv).run (notfollowsNode 5 0 1) calls =
          (outs, .ok node) ∧
        (delivered outs : Multiset (Occurrence Nat)) +
            pending stackEnv node.eventExpr.outputList ≠
          expectedUnfollowed stackEnv 5 0 1 (arrivals calls) (ticks calls) :=
  ⟨by decide, _, _, rfl, by decide⟩

end TelegraphCQ.Events
