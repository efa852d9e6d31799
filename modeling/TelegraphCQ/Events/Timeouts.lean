import TelegraphCQ.Events.Delivery

/-!
# Examining the left events of NOTFOLLOWS

An unmarked left event is ended by a right event within the delay, or is emitted once the
delay is over, or asks for a timeout.  Requests that are due have the node examine its
events again; an event asks only once.
-/

namespace TelegraphCQ.Events

open Foundation List

variable {Tuple : Type}

section Examine

variable (env : EventEnv Tuple) (timeDelay ts : Int) (rights : List (EventEntry Tuple))

def terminates (first second : Event Tuple) : Bool :=
  !haveSimpleEventConflict first second && passAdditionalNotFollowsTest first second &&
    isPartitionConsistent env (combineEvents first second) &&
    decide (second.eventTimestamp ≤ first.eventTimestamp + timeDelay)

def terminated (first : EventEntry Tuple) : Bool :=
  rights.any fun second => terminates env timeDelay first.event second.event

def overdue (first : EventEntry Tuple) : Bool :=
  decide (first.event.eventTimestamp + timeDelay < ts)

def emits (first : EventEntry Tuple) : Bool :=
  !first.marked && !terminated env timeDelay rights first && overdue timeDelay ts first

def examined (first : EventEntry Tuple) : EventEntry Tuple :=
  if first.marked then first
  else if terminated env timeDelay rights first || overdue timeDelay ts first then
    { first with marked := true }
  else { first with requestedTimeout := true }

def requestsOf (node : Path) (first : EventEntry Tuple) : List TimeoutRequest :=
  if first.marked || terminated env timeDelay rights first || overdue timeDelay ts first ||
      first.requestedTimeout then []
  else [⟨node, first.event.eventTimestamp + timeDelay⟩]

end Examine

variable {env : EventEnv Tuple} {timeDelay ts : Int} {lefts rights : List (EventEntry Tuple)}
  {mem : Pinned} {held : Multiset (Address × Event Tuple)} {loose : Multiset Address}
  {leftSource rightSource : Source} {outputList : List (EventEntry Tuple)}

theorem arePartitionConsistent_spec (isHeld : Held mem held loose) {first second : Event Tuple}
    (pinned : ∀ address ∈ (combineEvents first second).addresses,
      address ∈ references held + loose) : ∃ next, arePartitionConsistent env first second mem =
        .ok (isPartitionConsistent env (combineEvents first second), next) ∧
      Held next held loose := by
  obtain ⟨pinnedMem, ran, counted, -⟩ :=
    isHeld.pinAll (combineEvents first second).addresses fun address isBase =>
      isHeld.covered address (pinned address isBase)
  rw [add_assoc] at counted
  obtain ⟨next, deleted, heldNext⟩ := deleteEvent_spec counted
  refine ⟨next, ?_, heldNext⟩
  simp [arePartitionConsistent, incrementBaseTuplePinCountsForEvent, ran, liftMem, deleted, bind,
    Except.bind, pure, Except.pure]

theorem seenTerminating_spec (isHeld : Held mem held loose) {first : EventEntry Tuple}
    (pinned : AllPinned held loose (first :: rights)) :
    ∃ next, seenTerminating env passAdditionalNotFollowsTest
        (fun first second => second.eventTimestamp ≤ first.eventTimestamp + timeDelay)
        first.event rights mem = .ok (terminated env timeDelay rights first, next) ∧
      Held next held loose := by
  induction rights generalizing mem with
  | nil => exact ⟨mem, rfl, isHeld⟩
  | cons second rights ih =>
    obtain ⟨pinnedFirst, pinnedSecond, pinnedRights⟩ :=
      (forall_mem_cons.mp pinned).imp_right forall_mem_cons.mp
    have pinnedRest : AllPinned held loose (first :: rights) :=
      forall_mem_cons.mpr ⟨pinnedFirst, pinnedRights⟩
    cases skips : haveSimpleEventConflict first.event second.event ||
        !passAdditionalNotFollowsTest first.event second.event with
    | true =>
      obtain ⟨next, ran, heldNext⟩ := ih isHeld pinnedRest
      refine ⟨next, ?_, heldNext⟩
      have no : terminates env timeDelay first.event second.event = false := by
        rcases Bool.or_eq_true _ _ ▸ skips with conflict | irrelevant
        · simp [terminates, conflict]
        · simp [terminates, Bool.not_eq_true' _ ▸ irrelevant]
      simp [seenTerminating, skips, ran, terminated, no]
    | false =>
      obtain ⟨checked, ranCheck, heldChecked⟩ :=
        @arePartitionConsistent_spec _ env _ _ _ isHeld _ _
          (forall_mem_combineEvents pinnedFirst pinnedSecond)
      obtain ⟨noConflict, relevant⟩ := by simpa using skips
      have same : terminates env timeDelay first.event second.event =
          (isPartitionConsistent env (combineEvents first.event second.event) &&
            decide (second.event.eventTimestamp ≤ first.event.eventTimestamp + timeDelay)) := by
        simp [terminates, noConflict, relevant]
      cases ends : terminates env timeDelay first.event second.event with
      | true =>
        refine ⟨checked, ?_, heldChecked⟩
        simp [seenTerminating, skips, ranCheck, bind, Except.bind, ← same, ends, pure, Except.pure,
          terminated]
      | false =>
        obtain ⟨next, ran, heldNext⟩ := ih heldChecked pinnedRest
        refine ⟨next, ?_, heldNext⟩
        simp [seenTerminating, skips, ranCheck, bind, Except.bind, ← same, ends, ran, terminated]

theorem notfollowsEntry_spec (node : Path) (loop : NotLoop Tuple) (first : EventEntry Tuple)
    (isHeld : Held loop.state.mem held loose) (pinned : AllPinned held loose (first :: rights)) :
    ∃ entries next, notfollowsEntry env node ts timeDelay rights loop first = .ok {
        done := loop.done ++ [examined env timeDelay ts rights first]
        outputList := loop.outputList ++ entries
        state := { loop.state with
          mem := next
          timeoutRequests := loop.state.timeoutRequests ++
            requestsOf env timeDelay ts rights node first } } ∧ entries.map EventEntry.event =
        ([first].filter (emits env timeDelay ts rights)).map EventEntry.event ∧
      Held next (holding entries + held) loose := by
  by_cases marked : first.marked = true
  · refine ⟨[], loop.state.mem, ?_, ?_, by simpa using isHeld⟩
    · simp [notfollowsEntry, marked, examined, requestsOf]
    · simp [emits, marked]
  obtain ⟨seen, ranSeen, heldSeen⟩ := @seenTerminating_spec _ env timeDelay _ _ _ _ isHeld _ pinned
  by_cases ends : terminated env timeDelay rights first = true
  · refine ⟨[], seen, ?_, ?_, by simpa using heldSeen⟩
    · simp [notfollowsEntry, marked, ranSeen, ends, examined, requestsOf, bind, Except.bind, pure,
        Except.pure]
    · simp [emits, ends]
  by_cases late : first.event.eventTimestamp + timeDelay < ts
  · obtain ⟨entry, next, appended, isEntry, -, heldNext⟩ :=
      @appendEvent_spec _ env _ _ _ heldSeen first.event
        (pinned first mem_cons_self) loop.outputList
    refine ⟨[entry], next, ?_, ?_, ?_⟩
    · simp [notfollowsEntry, marked, ranSeen, ends, late, appended, examined, overdue,
        requestsOf, bind, Except.bind, pure, Except.pure]
    · rw [isEntry]
      simp [emits, marked, ends, overdue, late]
    · rw [isEntry]
      simpa [← Multiset.singleton_add] using heldNext
  · refine ⟨[], seen, ?_, ?_, by simpa using heldSeen⟩
    · by_cases requested : first.requestedTimeout = true
      · have same : first = { first with requestedTimeout := true, marked := false } := by
          cases first
          simp_all
        simp only [notfollowsEntry, marked, ranSeen, ends, late, requested, examined, overdue,
          requestsOf, bind, Except.bind, pure, Except.pure, append_nil]
        simpa using same
      · simp [notfollowsEntry, marked, ranSeen, ends, late, requested, examined, overdue,
          requestsOf, bind, Except.bind, pure, Except.pure]
    · simp [emits, overdue, late]

theorem notfollows_spec (node : Path) (lefts : List (EventEntry Tuple)) (loop : NotLoop Tuple)
    (isHeld : Held loop.state.mem held loose) (pinnedLefts : AllPinned held loose lefts)
    (pinnedRights : AllPinned held loose rights) : ∃ entries next,
      lefts.foldlM (notfollowsEntry env node ts timeDelay rights) loop = .ok {
        done := loop.done ++ lefts.map (examined env timeDelay ts rights)
        outputList := loop.outputList ++ entries
        state := { loop.state with
          mem := next
          timeoutRequests := loop.state.timeoutRequests ++
            lefts.flatMap (requestsOf env timeDelay ts rights node) } } ∧
      entries.map EventEntry.event =
        (lefts.filter (emits env timeDelay ts rights)).map EventEntry.event ∧
      Held next (holding entries + held) loose := by
  induction lefts generalizing loop held with
  | nil =>
    refine ⟨[], loop.state.mem, ?_, rfl, by simpa using isHeld⟩
    simp [pure, Except.pure]
  | cons first lefts ih =>
    have pinned : AllPinned held loose (first :: rights) :=
      forall_mem_cons.mpr ⟨pinnedLefts first mem_cons_self, pinnedRights⟩
    obtain ⟨entries, grown, ran, events, heldGrown⟩ :=
      @notfollowsEntry_spec _ env timeDelay ts _ _ _ node loop first isHeld pinned
    obtain ⟨more, next, ranRest, eventsRest, heldNext⟩ := ih {
        done := loop.done ++ [examined env timeDelay ts rights first]
        outputList := loop.outputList ++ entries
        state := { loop.state with
          mem := grown
          timeoutRequests := loop.state.timeoutRequests ++
            requestsOf env timeDelay ts rights node first } } heldGrown
      (forall_mem_cons.mp (pinnedLefts.mono _)).2 (pinnedRights.mono _)
    refine ⟨entries ++ more, next, ?_, ?_, ?_⟩
    · rw [foldlM_cons, ran]
      simpa [bind, Except.bind] using ranRest
    · rw [map_append, events, eventsRest, ← map_append, ← filter_append, singleton_append]
    · rw [holding_append, add_comm (holding entries), add_assoc]
      exact heldNext

@[simp] theorem examined_address (first : EventEntry Tuple) :
    (examined env timeDelay ts rights first).address = first.address := by
  unfold examined
  split
  · rfl
  · split <;> rfl

@[simp] theorem examined_event (first : EventEntry Tuple) :
    (examined env timeDelay ts rights first).event = first.event := by
  unfold examined
  split
  · rfl
  · split <;> rfl

@[simp] theorem examined_marked (first : EventEntry Tuple) :
    (examined env timeDelay ts rights first).marked =
      (first.marked || terminated env timeDelay rights first || overdue timeDelay ts first) := by
  cases marked : first.marked <;> cases ends : terminated env timeDelay rights first <;>
    cases late : overdue timeDelay ts first <;> simp [examined, marked, ends, late]

theorem holding_examined (entries : List (EventEntry Tuple)) :
    holding (entries.map (examined env timeDelay ts rights)) = holding entries := by
  simp [holding, Function.comp_def]

theorem constructNotfollows_spec (node : Path) {state : FEventAggState}
    (isHeld : Held state.mem (holding lefts + holding rights + holding outputList) loose) :
    ∃ detected entries next,
      constructWith env .notfollows node ts timeDelay lefts rights outputList state = .ok {
        detected := detected
        lefts := lefts.map (examined env timeDelay ts rights)
        rights := []
        outputList := outputList ++ entries
        state := { state with
          mem := next
          timeoutRequests := state.timeoutRequests ++
            lefts.flatMap (requestsOf env timeDelay ts rights node) } } ∧
      entries.map EventEntry.event =
        (lefts.filter (emits env timeDelay ts rights)).map EventEntry.event ∧
      Held next (holding (lefts.map (examined env timeDelay ts rights)) +
        holding ([] : List (EventEntry Tuple)) + holding (outputList ++ entries)) loose := by
  obtain ⟨onLeft, onRight⟩ := holding_le lefts rights outputList
  obtain ⟨entries, grown, ran, events, heldGrown⟩ :=
    @notfollows_spec _ env timeDelay ts rights _ loose node lefts ⟨[], outputList, state⟩ isHeld
      (allPinned_of_holding onLeft) (allPinned_of_holding onRight)
  have regrouped : holding entries + (holding lefts + holding rights + holding outputList) =
      holding rights + (holding lefts + holding (outputList ++ entries)) := by
    rw [holding_append]
    abel
  rw [regrouped] at heldGrown
  obtain ⟨next, expiredRights, heldNext⟩ := expireAllEventsFromList_spec _ heldGrown
  refine ⟨outputList.length < (outputList ++ entries).length, entries, next, ?_, events, ?_⟩
  · simp [constructWith, constructNot, ran, Constructed.expireRights, expiredRights, bind,
      Except.bind, pure, Except.pure]
  · simpa [holding_examined] using heldNext

/-! ## Requests that are due -/

theorem emits_nil (first : EventEntry Tuple) :
    emits env timeDelay ts [] first = (!first.marked && overdue timeDelay ts first) := by
  simp [emits, terminated]

variable {first : EventEntry Tuple} {node : Path}

theorem examined_eq_self (settled : first.marked = true ∨ first.requestedTimeout = true)
    (notEmitted : emits env timeDelay ts [] first = false) :
    examined env timeDelay ts [] first = first := by
  rw [emits_nil] at notEmitted
  rcases first with ⟨address, event, matched, requested, marked⟩
  cases marked with
  | true => rfl
  | false =>
    obtain rfl : requested = true := by simpa using settled
    have notLate : overdue timeDelay ts (⟨address, event, matched, true, false⟩ :
        EventEntry Tuple) = false := by simpa using notEmitted
    simp [examined, terminated, notLate]

theorem examined_settled (first : EventEntry Tuple) :
    (examined env timeDelay ts rights first).marked = true ∨
      (examined env timeDelay ts rights first).requestedTimeout = true := by
  unfold examined
  split
  · exact .inl ‹_›
  · split
    · exact .inl rfl
    · exact .inr rfl

theorem emits_examined (first : EventEntry Tuple) :
    emits env timeDelay ts [] (examined env timeDelay ts [] first) = false := by
  have sameTime : overdue timeDelay ts (examined env timeDelay ts [] first) =
      overdue timeDelay ts first := by simp [overdue]
  rw [emits_nil, examined_marked, sameTime]
  cases overdue timeDelay ts first <;> simp

theorem requestsOf_node {request : TimeoutRequest}
    (isRequest : request ∈ requestsOf env timeDelay ts rights node first) :
    request.node = node := by
  unfold requestsOf at isRequest
  split at isRequest
  · cases isRequest
  · rw [mem_singleton.mp isRequest]

theorem length_requestsOf_le (node : Path) (first : EventEntry Tuple) :
    (requestsOf env timeDelay ts rights node first).length ≤ 1 := by
  unfold requestsOf
  split <;> simp

theorem requestsOf_settled (settled : first.marked = true ∨ first.requestedTimeout = true) :
    requestsOf env timeDelay ts rights node first = [] := by
  rcases settled with marked | requested
  · simp [requestsOf, marked]
  · simp [requestsOf, requested]

section Service

def Settling (lefts : List (EventEntry Tuple)) : Prop :=
  ∀ first ∈ lefts, first.marked = true ∨ first.requestedTimeout = true

theorem Settling.examined_self (settling : Settling lefts)
    (noneEmitted : ∀ first ∈ lefts, emits env timeDelay ts [] first = false) :
    lefts.map (examined env timeDelay ts []) = lefts := by
  conv_rhs => rw [← map_id lefts]
  apply map_congr_left
  intro first isFirst
  exact examined_eq_self (settling first isFirst) (noneEmitted first isFirst)

theorem serviceLoop_spec {fuel : Nat} {requests leftovers : List TimeoutRequest}
    {state : FEventAggState} (isHeld : Held state.mem
      (holding lefts + holding ([] : List (EventEntry Tuple)) + holding outputList) loose)
    (enough : requests.length ≤ fuel) (atRoot : ∀ request ∈ requests, request.node = [])
    (settling : Settling lefts)
    (due : (∃ first ∈ lefts, emits env timeDelay ts [] first = true) →
      ∃ request ∈ requests, request.ts ≤ ts) : ∃ entries next, serviceLoop env ts fuel leftovers
          (twoStreams .notfollows timeDelay leftSource rightSource lefts [] outputList)
          { state with timeoutRequests := requests } =
        .ok (twoStreams .notfollows timeDelay leftSource rightSource
            (lefts.map (examined env timeDelay ts [])) [] (outputList ++ entries), { state with
            mem := next
            timeoutRequests := leftovers ++ requests.filter fun request => ts < request.ts }) ∧
      entries.map EventEntry.event =
        (lefts.filter (emits env timeDelay ts [])).map EventEntry.event ∧
      Held next (holding (lefts.map (examined env timeDelay ts [])) +
        holding ([] : List (EventEntry Tuple)) + holding (outputList ++ entries)) loose := by
  induction requests generalizing lefts outputList state leftovers fuel with
  | nil =>
    have noneEmitted : ∀ first ∈ lefts, emits env timeDelay ts [] first = false := by
      intro first isFirst
      by_contra emitted
      obtain ⟨_, isRequest, -⟩ := due ⟨first, isFirst, by simpa using emitted⟩
      cases isRequest
    have noneLeft : lefts.filter (emits env timeDelay ts []) = [] := by
      simpa [filter_eq_nil_iff] using noneEmitted
    rw [settling.examined_self noneEmitted, noneLeft]
    refine ⟨[], state.mem, ?_, rfl, by simpa using isHeld⟩
    simp [serviceLoop]
  | cons request requests ih =>
    obtain ⟨fuel, rfl⟩ : ∃ less, fuel = less + 1 := ⟨fuel - 1, by simp at enough; omega⟩
    have enoughRest : requests.length ≤ fuel := by simpa using enough
    obtain ⟨atRootFirst, atRootRest⟩ := forall_mem_cons.mp atRoot
    by_cases isDue : request.ts ≤ ts
    · obtain ⟨detected, entries, built, ran, events, heldBuilt⟩ :=
        @constructNotfollows_spec _ env timeDelay ts lefts [] loose outputList []
          { state with timeoutRequests := requests } isHeld
      have noRequests : lefts.flatMap (requestsOf env timeDelay ts [] []) = [] := by
        rw [flatMap_eq_nil_iff]
        exact fun first isFirst => requestsOf_settled (settling first isFirst)
      have settlingNext : Settling (lefts.map (examined env timeDelay ts [])) :=
        forall_mem_map.mpr fun old _ => examined_settled old
      have noneEmitted : ∀ first ∈ lefts.map (examined env timeDelay ts []),
          emits env timeDelay ts [] first = false :=
        forall_mem_map.mpr fun old _ => emits_examined old
      obtain ⟨more, next, ranRest, eventsRest, heldNext⟩ :=
        @ih _ _ fuel leftovers { state with mem := built } heldBuilt enoughRest atRootRest
          settlingNext (by
            rintro ⟨first, isFirst, emitted⟩
            rw [noneEmitted first isFirst] at emitted
            cases emitted)
      rw [settlingNext.examined_self noneEmitted] at ranRest heldNext
      obtain rfl : more = [] := by
        have : (lefts.map (examined env timeDelay ts [])).filter
            (emits env timeDelay ts []) = [] := by
          simpa [filter_eq_nil_iff] using noneEmitted
        simpa [this] using eventsRest
      rw [append_nil] at ranRest heldNext
      refine ⟨entries, next, ?_, events, heldNext⟩
      rw [filter_cons_of_neg (by simpa using isDue), ← ranRest]
      simp [serviceLoop, isDue, atRootFirst, climb,
        constructComplexEvents, twoStreams, EventExpr.outputList, EventExpr.setOutputList, ran,
        noRequests, bind, Except.bind, pure, Except.pure]
    · have dueRest : (∃ first ∈ lefts, emits env timeDelay ts [] first = true) →
          ∃ other ∈ requests, other.ts ≤ ts := by
        intro isEmitted
        obtain ⟨other, isOther, dueOther⟩ := due isEmitted
        rcases mem_cons.mp isOther with rfl | later
        · exact absurd dueOther isDue
        · exact ⟨other, later, dueOther⟩
      obtain ⟨entries, next, ran, events, heldNext⟩ :=
        @ih _ _ fuel (leftovers ++ [request]) state isHeld enoughRest atRootRest settling dueRest
      refine ⟨entries, next, ?_, events, heldNext⟩
      rw [filter_cons_of_pos (by simpa using isDue), append_cons, ← ran]
      simp [serviceLoop, isDue]

end Service

end TelegraphCQ.Events
