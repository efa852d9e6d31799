import TelegraphCQ.Events.Delivery
import TelegraphCQ.Foundation.Pairs

/-!
# Pairs of events on two streams

FOLLOWS and BOTH over simple events on two streams.  The left list, and for BOTH the right
list too, has the events that are still within the delay; all pairs of them are settled.
A new entry is paired with those of the other list that do not remember its address.
-/

namespace TelegraphCQ.Events

open Foundation List Function

section Sequences

variable {Tuple : Type}

def Ordered (history : List (StreamTuple Tuple)) : Prop :=
  history.Pairwise fun earlier later => earlier.timestamp ≤ later.timestamp

instance (history : List (StreamTuple Tuple)) : Decidable (Ordered history) :=
  inferInstanceAs (Decidable (history.Pairwise _))

def related (op : EventOperator) (timeDelay : Int) (leftSource rightSource : Source)
    (earlier later : StreamTuple Tuple) : Bool :=
  match op with
  | .follows => earlier.source = leftSource && later.source = rightSource &&
      decide (later.timestamp ≤ earlier.timestamp + timeDelay)
  | .both => (earlier.source = leftSource && later.source = rightSource ||
        earlier.source = rightSource && later.source = leftSource) &&
      decide (later.timestamp ≤ earlier.timestamp + timeDelay) &&
      decide (earlier.timestamp ≤ later.timestamp + timeDelay)
  | _ => false

def combination (leftSource : Source) (pair : StreamTuple Tuple × StreamTuple Tuple) :
    Occurrence Tuple :=
  if pair.1.source = leftSource then together pair.1 pair.2 else together pair.2 pair.1

def expectedPairs (env : EventEnv Tuple) (op : EventOperator) (timeDelay : Int)
    (leftSource rightSource : Source) (history : List (StreamTuple Tuple)) :
    Multiset (Occurrence Tuple) :=
  (((laterPairs (related op timeDelay leftSource rightSource) history : Multiset _).map
    (combination leftSource)).filter fun occurrence => occurrence.consistent env)

/-! ## What an operator remembers -/

/-- No entry that the new one is to be paired with remembers its address. -/
def unremembered (env : EventEnv Tuple) (input : StreamTuple Tuple) (node : FEventAgg Tuple) :
    Bool :=
  match node.eventExpr, entryAddress env input node with
  | .complex _ timeDelay (.simple leftSource lefts) (.simple rightSource rights) _,
      .ok address =>
      let remembers (entry : EventEntry Tuple) (pair : Occurrence Tuple) : Bool :=
        input.timestamp ≤ entry.event.eventTimestamp + timeDelay && pair.consistent env &&
          entry.matched.contains address
      (input.source ≠ rightSource || lefts.all fun entry =>
          !remembers entry (entry.event.occurrence.join input.occurrence)) &&
        (input.source ≠ leftSource || rights.all fun entry =>
          !remembers entry (input.occurrence.join entry.event.occurrence))
  | _, _ => true

def CanPair (env : EventEnv Tuple) (node : FEventAgg Tuple) : EventCall Tuple → Prop
  | .data input => hasRoom node = true ∧ unremembered env input node = true
  | .punct _ | .idle => True

instance (env : EventEnv Tuple) (node : FEventAgg Tuple) :
    ∀ call, Decidable (CanPair env node call)
  | .data _ => inferInstanceAs (Decidable (_ ∧ _))
  | .punct _ | .idle => .isTrue trivial

def Recent (source : Source) (timeDelay : Int) (history : List (StreamTuple Tuple))
    (events : List (Event Tuple)) : Prop :=
  ∀ ts, (∀ earlier ∈ history, earlier.timestamp ≤ ts) →
    (events.filter fun event => ts ≤ event.eventTimestamp + timeDelay).map Event.occurrence =
      (history.filter fun earlier => earlier.source = source ∧
        ts ≤ earlier.timestamp + timeDelay).map StreamTuple.occurrence

variable {env : EventEnv Tuple} {op : EventOperator} {timeDelay : Int} {source : Source}
  {leftSource rightSource : Source} {lefts rights outputList : List (EventEntry Tuple)}
  {history : List (StreamTuple Tuple)} {input : StreamTuple Tuple}

theorem Recent.concat {events : List (Event Tuple)}
    (recent : Recent source timeDelay history events) {more : List (Event Tuple)}
    (isNew : more.map Event.occurrence =
      ([input].filter fun arrived => arrived.source = source).map StreamTuple.occurrence) :
    Recent source timeDelay (history ++ [input])
      ((events.filter fun event => input.timestamp ≤ event.eventTimestamp + timeDelay) ++
        more) := by
  intro ts bound
  have notPast : input.timestamp ≤ ts := bound input (by simp)
  have kept : (events.filter fun event =>
      input.timestamp ≤ event.eventTimestamp + timeDelay).filter
        (fun event => ts ≤ event.eventTimestamp + timeDelay) =
      events.filter fun event => ts ≤ event.eventTimestamp + timeDelay := by
    rw [filter_filter]
    apply filter_congr
    intro event _
    rw [← Bool.decide_and, decide_eq_decide]
    omega
  rw [filter_append, filter_append, map_append, map_append, kept,
    recent ts fun earlier isEarlier => bound earlier (mem_append_left _ isEarlier)]
  congr 1
  by_cases onStream : input.source = source
  · rw [filter_cons_of_pos (by simpa using onStream), filter_nil, map_singleton,
      map_eq_singleton_iff] at isNew
    obtain ⟨event, rfl, same⟩ := isNew
    have sameTime : event.eventTimestamp = input.timestamp := congrArg Occurrence.timestamp same
    by_cases within : ts ≤ input.timestamp + timeDelay
    · simp [onStream, sameTime, within, same]
    · simp [onStream, sameTime, within]
  · rw [filter_cons_of_neg (by simpa using onStream), filter_nil, map_nil, map_eq_nil_iff] at isNew
    simp [isNew, onStream]

/-! ## Pairs with a new entry -/

section NewEntry

variable {accepts : Event Tuple → Event Tuple → Bool} {entry : EventEntry Tuple}

def Settled (accepts : Event Tuple → Event Tuple → Bool)
    (lefts rights : List (EventEntry Tuple)) : Prop :=
  ∀ first ∈ lefts, ∀ second ∈ rights, fires accepts true first second = false

section

variable (settled : Settled accepts lefts rights)
include settled

theorem Settled.pairedEvents {first : EventEntry Tuple} (isFirst : first ∈ lefts) :
    pairedEvents accepts true first rights = [] := by
  rw [Events.pairedEvents, map_eq_nil_iff, filter_eq_nil_iff]
  intro second isSecond
  rw [settled first isFirst second isSecond]
  exact Bool.false_ne_true

theorem Settled.new_right : lefts.flatMap (Events.pairedEvents accepts true · (rights ++ [entry])) =
      (lefts.filter (fires accepts true · entry)).map
        fun first => combineEvents first.event entry.event := by
  induction lefts with
  | nil => rfl
  | cons first lefts ih =>
    have settledRest : Settled accepts lefts rights := fun other isOther =>
      settled other (mem_cons_of_mem _ isOther)
    have old := settled.pairedEvents mem_cons_self
    rw [Events.pairedEvents, map_eq_nil_iff] at old
    rw [flatMap_cons, ih settledRest, Events.pairedEvents, filter_append, old, nil_append]
    by_cases firing : fires accepts true first entry = true
    · simp [firing]
    · simp [firing]

theorem Settled.new_left : (lefts ++ [entry]).flatMap (Events.pairedEvents accepts true · rights) =
      (rights.filter (fires accepts true entry)).map
        fun second => combineEvents entry.event second.event := by
  rw [flatMap_append, flatMap_eq_nil_iff.mpr fun first isFirst =>
    settled.pairedEvents isFirst]
  simp [Events.pairedEvents]

end

theorem settled_after (lefts rights : List (EventEntry Tuple)) : Settled accepts
      (lefts.map fun first => first.withMatches (rights.filter (fires accepts true first)))
      (rights.map fun second =>
        second.withMatches (lefts.filter (fires accepts true · second))) := by
  intro first' isFirst second' isSecond
  obtain ⟨first, -, rfl⟩ := mem_map.mp isFirst
  obtain ⟨second, inRights, rfl⟩ := mem_map.mp isSecond
  by_cases firing : fires accepts true first second = true
  · have remembered : second.address ∈ (first.withMatches
        (rights.filter (fires accepts true first))).matched := by
      simp only [EventEntry.withMatches, mem_append]
      exact .inr (mem_map_of_mem (mem_filter.mpr ⟨inRights, firing⟩))
    simp only [fires, haveBeenMatched, Bool.true_and, Bool.not_eq_false', Bool.or_eq_true,
      decide_eq_true_eq]
    exact .inr (.inr remembered)
  · simp only [fires, Bool.true_and, haveBeenMatched, EventEntry.withMatches,
      Bool.not_eq_true, Bool.not_eq_false', Bool.or_eq_true, decide_eq_true_eq] at firing ⊢
    rcases firing with refused | matchedBefore
    · exact .inl refused
    · right
      rcases matchedBefore with inSecond | inFirst
      · exact .inl (mem_append_left _ inSecond)
      · exact .inr (mem_append_left _ inFirst)

theorem Settled.mono (settled : Settled accepts lefts rights)
    {someLefts someRights : List (EventEntry Tuple)} (onLeft : someLefts ⊆ lefts)
    (onRight : someRights ⊆ rights) : Settled accepts someLefts someRights :=
  fun first isFirst second isSecond =>
    settled first (onLeft isFirst) second (onRight isSecond)

theorem fires_fresh {first second : EventEntry Tuple} {left right : StreamTuple Tuple}
    (isLeft : first.event.occurrence = left.occurrence)
    (isRight : second.event.occurrence = right.occurrence) (different : left.source ≠ right.source)
    (fresh : first.address ∉ second.matched ∧ second.address ∉ first.matched)
    (accepted : accepts first.event second.event = true) :
    fires accepts true first second = true := by
  obtain ⟨leftAddress, isFirst⟩ := occurrence_eq_iff.mp isLeft
  obtain ⟨rightAddress, isSecond⟩ := occurrence_eq_iff.mp isRight
  have noConflict : haveSimpleEventConflict first.event second.event = false := by
    simp [haveSimpleEventConflict, isFirst, isSecond, different]
  simp [fires, noConflict, accepted, haveBeenMatched, fresh]

end NewEntry

def accepted (op : EventOperator) (timeDelay : Int) : Event Tuple → Event Tuple → Bool :=
  match op with
  | .both => bothAccepts timeDelay
  | _ => followsAccepts timeDelay

theorem holding_withMatches (entries : List (EventEntry Tuple))
    (others : EventEntry Tuple → List (EventEntry Tuple)) :
    holding (entries.map fun entry => entry.withMatches (others entry)) = holding entries := by
  simp [holding, EventEntry.withMatches, comp_def]

section Construct

variable {held : Multiset (Address × Event Tuple)} {loose : Multiset Address}

theorem constructWith_spec (isSequence : op = .follows ∨ op = .both) {state : FEventAggState}
    (isHeld : Held state.mem (holding lefts + holding rights + holding outputList) loose)
    (ts : Int) : ∃ detected entries next,
      constructWith env op [] ts timeDelay lefts rights outputList state = .ok ⟨detected,
        lefts.map fun first =>
          first.withMatches (rights.filter (fires (accepted op timeDelay) true first)),
        if op = .both then rights.map fun second =>
          second.withMatches (lefts.filter (fires (accepted op timeDelay) true · second))
        else [], outputList ++ entries, { state with mem := next }⟩ ∧ entries.map EventEntry.event =
        lefts.flatMap (pairedEvents (accepted op timeDelay) true · rights) ∧
      Held next (holding lefts + (if op = .both then holding rights else 0) +
        holding (outputList ++ entries)) loose := by
  obtain ⟨onLeft, onRight⟩ := holding_le lefts rights outputList
  obtain ⟨entries, next, ran, events, heldNext⟩ :=
    @pairLists_spec _ (accepted op timeDelay) true env _ _ _ lefts rights outputList isHeld
      (allPinned_of_holding onLeft) (allPinned_of_holding onRight)
      (nodup_of_holding isHeld onLeft) (nodup_of_holding isHeld onRight)
  rcases isSequence with rfl | rfl
  · have regrouped : holding entries + (holding lefts + holding rights + holding outputList) =
        holding (rights.map fun second => second.withMatches
          (lefts.filter (fires (accepted .follows timeDelay) true · second))) +
          (holding lefts + holding (outputList ++ entries)) := by
      rw [holding_withMatches, holding_append]
      abel
    rw [regrouped] at heldNext
    obtain ⟨final, expiredRights, heldFinal⟩ := expireAllEventsFromList_spec _ heldNext
    refine ⟨outputList.length < (outputList ++ entries).length, entries, final, ?_, events, ?_⟩
    · simp only [accepted] at ran expiredRights
      simp [constructWith, constructPairs, accepted, ran, bind, Except.bind, pure, Except.pure,
        Constructed.expireRights, expiredRights, reduceCtorEq]
    · simpa using heldFinal
  · refine ⟨outputList.length < (outputList ++ entries).length, entries, next, ?_, events, ?_⟩
    · simp only [accepted] at ran
      simp [constructWith, constructPairs, accepted, ran, bind, Except.bind, pure, Except.pure]
    · rw [holding_append]
      have regrouped : holding entries + (holding lefts + holding rights + holding outputList) =
            holding lefts + holding rights + (holding outputList + holding entries) := by abel
      rw [regrouped] at heldNext
      simpa using heldNext

end Construct

theorem fired_occurrences {others : List (EventEntry Tuple)} {fire : EventEntry Tuple → Bool}
    (pair : Occurrence Tuple → Occurrence Tuple)
    (same : (others.map fun other => other.event.occurrence) = history.map StreamTuple.occurrence)
    (fired : ∀ other ∈ others, ∀ earlier ∈ history, other.event.occurrence = earlier.occurrence →
      (pair other.event.occurrence).consistent env = true → fire other = true) :
    ((others.filter fire).map fun other => pair other.event.occurrence).filter
        (Occurrence.consistent env) = (history.map fun earlier => pair earlier.occurrence).filter
        (Occurrence.consistent env) := by
  have all : (others.map fun other => pair other.event.occurrence) =
      history.map fun earlier => pair earlier.occurrence := by
    simpa [comp_def] using congrArg (List.map pair) same
  rw [← all, filter_map, filter_map, filter_filter]
  congr 1
  apply filter_congr
  intro other isOther
  have inHistory : other.event.occurrence ∈ history.map StreamTuple.occurrence := by
    rw [← same]
    exact mem_map_of_mem isOther
  obtain ⟨earlier, isEarlier, isSame⟩ := mem_map.mp inHistory
  cases consistent : (pair other.event.occurrence).consistent env with
  | false => simp [consistent]
  | true =>
    simp [consistent, fired other isOther earlier isEarlier isSame.symm consistent]

def pairsWith (env : EventEnv Tuple) (op : EventOperator) (timeDelay : Int)
    (leftSource rightSource : Source) (history : List (StreamTuple Tuple))
    (input : StreamTuple Tuple) : List (Occurrence Tuple) :=
  ((history.filter (related op timeDelay leftSource rightSource · input)).map
    fun earlier => combination leftSource (earlier, input)).filter (Occurrence.consistent env)

theorem expectedPairs_concat :
    expectedPairs env op timeDelay leftSource rightSource (history ++ [input]) =
      expectedPairs env op timeDelay leftSource rightSource history +
        (pairsWith env op timeDelay leftSource rightSource history input : Multiset _) := by
  simp [pairsWith, expectedPairs, laterPairs_concat, comp_def]

theorem events_expired (ts : Int) (entries : List (EventEntry Tuple)) :
    (expired .interval ts timeDelay entries).map EventEntry.event =
      (entries.map EventEntry.event).filter fun event =>
        ts ≤ event.eventTimestamp + timeDelay := by
  simp [expired, filter_map, comp_def]

theorem Recent.kept {entries : List (EventEntry Tuple)}
    (recent : Recent source timeDelay history (entries.map EventEntry.event))
    (latest : ∀ earlier ∈ history, earlier.timestamp ≤ input.timestamp) :
    ((expired .interval input.timestamp timeDelay entries).map
        fun entry => entry.event.occurrence) =
      (history.filter fun earlier => earlier.source = source ∧
        input.timestamp ≤ earlier.timestamp + timeDelay).map StreamTuple.occurrence := by
  rw [← recent input.timestamp latest, ← events_expired, map_map]
  rfl

section NewPairs

variable {entry : EventEntry Tuple} (isSequence : op = .follows ∨ op = .both)
  (different : leftSource ≠ rightSource)
  (latest : ∀ earlier ∈ history, earlier.timestamp ≤ input.timestamp)
  (isEntry : entry.event.occurrence = input.occurrence) (noMatches : entry.matched = [])

include isSequence different latest isEntry noMatches in
theorem new_right_occurrences
    (recent : Recent leftSource timeDelay history (lefts.map EventEntry.event))
    (isOn : input.source = rightSource) (fresh : ∀ first ∈ lefts,
      input.timestamp ≤ first.event.eventTimestamp + timeDelay →
      (first.event.occurrence.join input.occurrence).consistent env = true →
      entry.address ∉ first.matched) : (((expired .interval input.timestamp timeDelay lefts).filter
        (fires (accepted op timeDelay) true · entry)).map fun first =>
          (combineEvents first.event entry.event).occurrence).filter
            (Occurrence.consistent env) =
      pairsWith env op timeDelay leftSource rightSource history input := by
  have sameRelated : history.filter (related op timeDelay leftSource rightSource · input) =
      history.filter fun earlier => earlier.source = leftSource ∧
        input.timestamp ≤ earlier.timestamp + timeDelay := by
    apply filter_congr
    intro earlier isEarlier
    have before := latest earlier isEarlier
    rcases isSequence with rfl | rfl
    · simp [related, isOn]
    · rw [Bool.eq_iff_iff]
      simp [related, isOn, different.symm]
      omega
  rw [pairsWith, sameRelated]
  simp only [occurrence_combineEvents, isEntry]
  rw [fired_occurrences (·.join input.occurrence) (recent.kept latest)]
  · congr 1
    apply map_congr_left
    intro earlier isEarlier
    obtain ⟨-, onLeft, -⟩ := by simpa using mem_filter.mp isEarlier
    rw [combination, if_pos onLeft, join_occurrence (by rw [onLeft, isOn]; exact different)]
  · intro first isFirst earlier isEarlier same consistent
    obtain ⟨isLeft, within⟩ := by simpa [expired] using isFirst
    obtain ⟨inHistory, onLeft, -⟩ := by simpa using mem_filter.mp isEarlier
    have before := latest earlier inHistory
    have firstTime : first.event.eventTimestamp = earlier.timestamp :=
      congrArg Occurrence.timestamp same
    have entryTime : entry.event.eventTimestamp = input.timestamp :=
      congrArg Occurrence.timestamp isEntry
    apply fires_fresh same isEntry (by rw [onLeft, isOn]; exact different)
      ⟨by simp [noMatches], fresh first isLeft within consistent⟩
    rcases isSequence with rfl | rfl
    · simpa [accepted, followsAccepts, entryTime] using within
    · simp only [accepted, bothAccepts, entryTime, firstTime, Bool.and_eq_true, decide_eq_true_eq]
      omega

include different latest isEntry noMatches in
theorem new_left_occurrences
    (recent : Recent rightSource timeDelay history (rights.map EventEntry.event))
    (isOn : input.source = leftSource) (fresh : ∀ second ∈ rights,
      input.timestamp ≤ second.event.eventTimestamp + timeDelay →
      (input.occurrence.join second.event.occurrence).consistent env = true →
      entry.address ∉ second.matched) :
    (((expired .interval input.timestamp timeDelay rights).filter
        (fires (accepted .both timeDelay) true entry)).map fun second =>
          (combineEvents entry.event second.event).occurrence).filter
            (Occurrence.consistent env) =
      pairsWith env .both timeDelay leftSource rightSource history input := by
  have sameRelated : history.filter (related .both timeDelay leftSource rightSource · input) =
        history.filter fun earlier => earlier.source = rightSource ∧
          input.timestamp ≤ earlier.timestamp + timeDelay := by
    apply filter_congr
    intro earlier isEarlier
    have before := latest earlier isEarlier
    rw [Bool.eq_iff_iff]
    simp [related, isOn, different]
    omega
  rw [pairsWith, sameRelated]
  simp only [occurrence_combineEvents, isEntry]
  rw [fired_occurrences input.occurrence.join (recent.kept latest)]
  · congr 1
    apply map_congr_left
    intro earlier isEarlier
    obtain ⟨-, onRight, -⟩ := by simpa using mem_filter.mp isEarlier
    rw [combination, if_neg (by rw [onRight]; exact different.symm),
      join_occurrence (by rw [onRight, isOn]; exact different)]
  · intro second isSecond earlier isEarlier same consistent
    obtain ⟨isRight, within⟩ := by simpa [expired] using isSecond
    obtain ⟨inHistory, onRight, -⟩ := by simpa using mem_filter.mp isEarlier
    have before := latest earlier inHistory
    have secondTime : second.event.eventTimestamp = earlier.timestamp :=
      congrArg Occurrence.timestamp same
    have entryTime : entry.event.eventTimestamp = input.timestamp :=
      congrArg Occurrence.timestamp isEntry
    apply fires_fresh isEntry same (by rw [onRight, isOn]; exact different)
      ⟨fresh second isRight within consistent, by simp [noMatches]⟩
    simp only [accepted, bothAccepts, entryTime, secondTime, Bool.and_eq_true, decide_eq_true_eq]
    omega

end NewPairs

/-! ## The node -/

/-- The state of the node after a history: the lists have what is still within the delay,
and what was produced is what the history asks for. -/
structure Sequenced (env : EventEnv Tuple) (op : EventOperator) (timeDelay : Int)
    (leftSource rightSource : Source) (history : List (StreamTuple Tuple))
    (outs : List (EventOut Tuple)) (node : FEventAgg Tuple)
    (lefts rights outputList : List (EventEntry Tuple)) : Prop where
  streams : OverStreams op timeDelay leftSource rightSource lefts rights outputList node
  noRequests : node.mystate.timeoutRequests = []
  recentLefts : Recent leftSource timeDelay history (lefts.map EventEntry.event)
  recentRights : op = .both → Recent rightSource timeDelay history (rights.map EventEntry.event)
  noRights : op = .follows → rights = []
  settled : Settled (accepted op timeDelay) lefts rights
  produced : (delivered outs : Multiset (Occurrence Tuple)) + pending env outputList =
    expectedPairs env op timeDelay leftSource rightSource history

variable {outs : List (EventOut Tuple)} {node : FEventAgg Tuple}

theorem unremembered_spec {state : FEventAggState} {address : Address}
    (isNew : entryAddress env input
      ⟨twoStreams op timeDelay leftSource rightSource lefts rights outputList, state⟩ = .ok address)
    (unrememberedHere : unremembered env input
      ⟨twoStreams op timeDelay leftSource rightSource lefts rights outputList, state⟩ = true) :
    (input.source = rightSource → ∀ first ∈ lefts,
      input.timestamp ≤ first.event.eventTimestamp + timeDelay →
      (first.event.occurrence.join input.occurrence).consistent env = true →
      address ∉ first.matched) ∧ (input.source = leftSource → ∀ second ∈ rights,
      input.timestamp ≤ second.event.eventTimestamp + timeDelay →
      (input.occurrence.join second.event.occurrence).consistent env = true →
      address ∉ second.matched) := by
  simp only [unremembered, isNew] at unrememberedHere
  simp only [twoStreams, ne_eq, Bool.and_eq_true, Bool.or_eq_true, all_eq_true,
    Bool.not_eq_true', Bool.and_eq_false_iff, decide_eq_false_iff_not, decide_not]
    at unrememberedHere
  obtain ⟨onRight, onLeft⟩ := unrememberedHere
  constructor
  · intro isOn first isFirst within consistent
    have := onRight.resolve_left (by simpa using isOn) first isFirst
    simpa [within, consistent] using this
  · intro isOn second isSecond within consistent
    have := onLeft.resolve_left (by simpa using isOn) second isSecond
    simpa [within, consistent] using this

theorem events_withMatches (entries : List (EventEntry Tuple))
    (others : EventEntry Tuple → List (EventEntry Tuple)) :
    (entries.map fun entry => entry.withMatches (others entry)).map EventEntry.event =
      entries.map EventEntry.event := by
  simp [EventEntry.withMatches, comp_def]

theorem events_appendOn (side : Side) (entry : EventEntry Tuple) :
    (appendOn side entry lefts rights).1.map EventEntry.event =
        lefts.map EventEntry.event ++ (if side = .left then [entry.event] else []) ∧
      (appendOn side entry lefts rights).2.map EventEntry.event =
        rights.map EventEntry.event ++ (if side = .right then [entry.event] else []) := by
  cases side <;> simp [appendOn]

theorem Recent.append (side : Side) (different : leftSource ≠ rightSource)
    (isOn : input.source = sourceOn leftSource rightSource side) {entry : EventEntry Tuple}
    (isEntry : entry.event.occurrence = input.occurrence) :
    (∀ events, Recent leftSource timeDelay history events →
      Recent leftSource timeDelay (history ++ [input])
        ((events.filter fun event => input.timestamp ≤ event.eventTimestamp + timeDelay) ++
          if side = .left then [entry.event] else [])) ∧
    (∀ events, Recent rightSource timeDelay history events →
      Recent rightSource timeDelay (history ++ [input])
        ((events.filter fun event => input.timestamp ≤ event.eventTimestamp + timeDelay) ++
          if side = .right then [entry.event] else [])) := by
  constructor
  · intro events recent
    apply recent.concat
    cases side with
    | left => simp [show input.source = leftSource from isOn, isEntry]
    | right => simp [show input.source = rightSource from isOn, different.symm]
  · intro events recent
    apply recent.concat
    cases side with
    | left => simp [show input.source = leftSource from isOn, different]
    | right => simp [show input.source = rightSource from isOn, isEntry]

theorem processNext_data {state : FEventAggState} (noRequests : state.timeoutRequests = [])
    (expr : EventExpr Tuple) : processNextFEventAgg env ⟨expr, state⟩ (.data input) =
      ([], processData env input expr
        { state with lastTupleTimestamp := input.timestamp }) := by
  have none := @serviceTimeouts_none _ env input.timestamp expr
    { state with lastTupleTimestamp := input.timestamp } noRequests
  simp [processNextFEventAgg, none, bind, Except.bind]

section DataStep

variable {state : FEventAggState} (isSequence : op = .follows ∨ op = .both)
  (different : leftSource ≠ rightSource)
  (latest : ∀ earlier ∈ history, earlier.timestamp ≤ input.timestamp)
  (can : CanPair env
    ⟨twoStreams op timeDelay leftSource rightSource lefts rights outputList, state⟩
    (.data input))
  (sequenced : Sequenced env op timeDelay leftSource rightSource history outs
    ⟨twoStreams op timeDelay leftSource rightSource lefts rights outputList, state⟩
    lefts rights outputList)

include isSequence can sequenced

omit can sequenced in
theorem expiry_left : op.expiry.1 = .interval := by
  rcases isSequence with rfl | rfl <;> rfl

omit can in
theorem Sequenced.settled_expired :
    Settled (accepted op timeDelay) (expired op.expiry.1 input.timestamp timeDelay lefts)
      (expired op.expiry.2 input.timestamp timeDelay rights) := by
  apply sequenced.settled.mono
  · rw [expiry_left isSequence]
    exact filter_subset_self _
  · rcases isSequence with rfl | rfl
    · exact nil_subset _
    · exact filter_subset_self _

omit isSequence sequenced in
theorem CanPair.room (swept : Pinned) (ranSweep : state.mem.sweep = .ok swept) :
    swept.pins.length < maxBaseTuplesCached := by
  simpa [hasRoom, ranSweep] using can.1

include different latest

theorem new_occurrences (side : Side)
    (isOn : input.source = sourceOn leftSource rightSource side) {entry : EventEntry Tuple}
    (isEntry : entry.event.occurrence = input.occurrence) (noMatches : entry.matched = [])
    (isNew : entryAddress env input
      ⟨twoStreams op timeDelay leftSource rightSource lefts rights outputList, state⟩ =
        .ok entry.address) :
    (((appendOn side entry (expired op.expiry.1 input.timestamp timeDelay lefts)
        (expired op.expiry.2 input.timestamp timeDelay rights)).1.flatMap
          (pairedEvents (accepted op timeDelay) true ·
            (appendOn side entry (expired op.expiry.1 input.timestamp timeDelay lefts)
              (expired op.expiry.2 input.timestamp timeDelay rights)).2)).map
                Event.occurrence).filter (Occurrence.consistent env) =
      pairsWith env op timeDelay leftSource rightSource history input := by
  obtain ⟨freshRight, freshLeft⟩ := unremembered_spec isNew can.2
  cases side with
  | right =>
    simp only [appendOn]
    rw [(sequenced.settled_expired isSequence).new_right, map_map, expiry_left isSequence]
    exact new_right_occurrences isSequence different latest isEntry noMatches
      sequenced.recentLefts isOn (freshRight isOn)
  | left =>
    simp only [appendOn]
    rw [(sequenced.settled_expired isSequence).new_left, map_map]
    rcases isSequence with rfl | rfl
    · have noneRelated :
          history.filter (related .follows timeDelay leftSource rightSource · input) = [] := by
        rw [filter_eq_nil_iff]
        intro earlier _
        simp [related, show input.source = leftSource from isOn, different]
      rw [pairsWith, noneRelated]
      rfl
    · exact new_left_occurrences different latest isEntry noMatches
        (sequenced.recentRights rfl) isOn (freshLeft isOn)

theorem Sequenced.data_on (side : Side)
    (isOn : input.source = sourceOn leftSource rightSource side) :
    ∃ next lefts' rights' outputList', processNextFEventAgg env
        ⟨twoStreams op timeDelay leftSource rightSource lefts rights outputList, state⟩
        (.data input) = ([], .ok next) ∧
      Sequenced env op timeDelay leftSource rightSource (history ++ [input]) outs next
        lefts' rights' outputList' := by
  obtain ⟨address, prepared, ran, heldPrepared⟩ :=
    @prepareData_spec _ env _ op timeDelay leftSource rightSource lefts rights outputList input
      sequenced.streams.held can.room
  obtain ⟨entry, appended, isEntry, isNew, heldAppended, finish⟩ :=
    @processData_on _ env op timeDelay leftSource rightSource lefts rights outputList input
      address prepared _ _ { state with lastTupleTimestamp := input.timestamp } ran heldPrepared
      side different isOn
  have occurs : entry.event.occurrence = input.occurrence := by
    rw [isEntry]
    rfl
  have noMatches : entry.matched = [] := by rw [isEntry]
  obtain ⟨detected, entries, constructedMem, ranConstruct, events, heldConstructed⟩ :=
    @constructWith_spec _ env op timeDelay _ _ outputList _ isSequence
      { state with lastTupleTimestamp := input.timestamp, mem := appended } heldAppended
      input.timestamp
  obtain ⟨mem, ranData, heldMem⟩ := finish _ _ ranConstruct heldConstructed
  have newOccurrences := new_occurrences isSequence different latest can sequenced side isOn
    occurs noMatches isNew
  rw [← events] at newOccurrences
  obtain ⟨appendLeft, appendRight⟩ :=
    @Recent.append _ timeDelay _ _ history _ side different isOn entry occurs
  have onLeft := expiry_left isSequence
  have ranNext := (@processNext_data _ env input _ sequenced.noRequests _).trans
    (congrArg (Prod.mk []) ranData)
  refine ⟨_, _, _, _, ranNext, ⟨rfl, ?_⟩, sequenced.noRequests, ?_, ?_, ?_, ?_, ?_⟩
  · rw [holding_withMatches]
    rcases isSequence with rfl | rfl
    · simpa using heldMem
    · simpa [holding_withMatches] using heldMem
  · rw [events_withMatches, (events_appendOn side entry).1, onLeft, events_expired]
    exact appendLeft _ sequenced.recentLefts
  · rintro rfl
    rw [if_pos rfl, events_withMatches, (events_appendOn side entry).2]
    simp only [EventOperator.expiry]
    rw [events_expired]
    exact appendRight _ (sequenced.recentRights rfl)
  · rintro rfl
    rfl
  · rcases isSequence with rfl | rfl
    · exact fun first _ second isSecond => by cases isSecond
    · exact settled_after _ _
  · rw [expectedPairs_concat, ← sequenced.produced, pending_append, ← Multiset.coe_add,
      ← newOccurrences, pending, map_map, ← add_assoc]
    rfl

omit different latest in
theorem Sequenced.data_other (notLeft : input.source ≠ leftSource)
    (notRight : input.source ≠ rightSource) : ∃ next lefts' rights' outputList',
      processNextFEventAgg env
        ⟨twoStreams op timeDelay leftSource rightSource lefts rights outputList, state⟩
        (.data input) = ([], .ok next) ∧
      Sequenced env op timeDelay leftSource rightSource (history ++ [input]) outs next
        lefts' rights' outputList' := by
  obtain ⟨address, prepared, ran, heldPrepared⟩ :=
    @prepareData_spec _ env _ op timeDelay leftSource rightSource lefts rights outputList input
      sequenced.streams.held can.room
  obtain ⟨mem, ranData, heldMem⟩ :=
    @processData_other _ env op timeDelay leftSource rightSource lefts rights outputList input
      address prepared _ _ { state with lastTupleTimestamp := input.timestamp } ran heldPrepared
      notLeft notRight
  have onLeft := expiry_left isSequence
  have noneRelated : history.filter (related op timeDelay leftSource rightSource · input) = [] := by
    rw [filter_eq_nil_iff]
    intro earlier _
    rcases isSequence with rfl | rfl
    · simp [related, notRight]
    · simp [related, notRight, notLeft]
  have ranNext := (@processNext_data _ env input _ sequenced.noRequests _).trans
    (congrArg (Prod.mk []) ranData)
  refine ⟨_, _, _, _, ranNext, ⟨rfl, heldMem⟩, sequenced.noRequests, ?_, ?_, ?_, ?_, ?_⟩
  · rw [onLeft, events_expired, ← append_nil (List.filter _ _)]
    exact sequenced.recentLefts.concat (by simp [notLeft])
  · rintro rfl
    simp only [EventOperator.expiry]
    rw [events_expired, ← append_nil (List.filter _ _)]
    exact (sequenced.recentRights rfl).concat (by simp [notRight])
  · rintro rfl
    rfl
  · exact sequenced.settled_expired isSequence
  · rw [expectedPairs_concat, pairsWith, noneRelated, sequenced.produced]
    simp

end DataStep

theorem Sequenced.step (isSequence : op = .follows ∨ op = .both)
    (different : leftSource ≠ rightSource) {calls : List (EventCall Tuple)}
    {call : EventCall Tuple} (ordered : Ordered (arrivals (calls ++ [call])))
    (can : CanPair env node call)
    (sequenced : Sequenced env op timeDelay leftSource rightSource (arrivals calls) outs node
      lefts rights outputList) : ∃ emitted next lefts' rights' outputList',
      processNextFEventAgg env node call = (emitted, .ok next) ∧
      Sequenced env op timeDelay leftSource rightSource (arrivals (calls ++ [call]))
        (outs ++ emitted) next lefts' rights' outputList' := by
  cases call with
  | data input =>
    rw [arrivals_append_data] at ordered ⊢
    have latest : ∀ earlier ∈ arrivals calls, earlier.timestamp ≤ input.timestamp :=
      fun earlier isEarlier =>
        (pairwise_append.mp ordered).2.2 earlier isEarlier input (by simp)
    rcases node with ⟨expr, state⟩
    obtain rfl : expr = twoStreams op timeDelay leftSource rightSource lefts rights
      outputList := sequenced.streams.expr
    refine ⟨[], ?_⟩
    rw [append_nil]
    by_cases onLeft : input.source = leftSource
    · exact sequenced.data_on isSequence different latest can .left onLeft
    by_cases onRight : input.source = rightSource
    · exact sequenced.data_on isSequence different latest can .right onRight
    exact sequenced.data_other isSequence can onLeft onRight
  | punct timestamp =>
    rcases node with ⟨expr, state⟩
    have none := @serviceTimeouts_none _ env timestamp expr
      { state with lastTupleTimestamp := timestamp } sequenced.noRequests
    refine ⟨[], ⟨expr, { state with
      lastTupleTimestamp := timestamp, needToEmitPunct := true }⟩, lefts, rights, outputList,
      ?_, ?_⟩
    · simp [processNextFEventAgg, none, bind, Except.bind, pure, Except.pure]
    · rw [append_nil, arrivals_append_punct]
      exact { sequenced with streams := ⟨sequenced.streams.expr, sequenced.streams.held⟩ }
  | idle =>
    obtain ⟨emitted, rest, next, ran, same, overNext, requests, -⟩ :=
      @processIdle_spec _ env _ _ _ _ _ _ _ _ sequenced.streams
    refine ⟨emitted, next, lefts, rights, rest, ran, ?_⟩
    rw [arrivals_append_idle]
    refine { sequenced with
      streams := overNext
      noRequests := requests.trans sequenced.noRequests
      produced := ?_ }
    rw [delivered_append, ← Multiset.coe_add, add_assoc, Multiset.coe_add, same, sequenced.produced]

def sequenceNode (op : EventOperator) (timeDelay : Int) (leftSource rightSource : Source) :
    FEventAgg Tuple :=
  processInitFEventAgg (twoStreams op timeDelay leftSource rightSource [] [] [])

theorem sequenced_init : Sequenced env op timeDelay leftSource rightSource [] []
      (sequenceNode op timeDelay leftSource rightSource) [] [] [] where
  streams := ⟨rfl, held_init⟩
  noRequests := rfl
  recentLefts _ _ := rfl
  recentRights _ _ _ := rfl
  noRights _ := rfl
  settled := fun _ isFirst => by cases isFirst
  produced := rfl

/-- As long as no entry is given an address that an entry it is to be paired with
remembers, and the cache has room, FOLLOWS and BOTH produce their pairs, each once, and
nothing else; calls without input hand them over. -/
theorem pairs_produced_once (env : EventEnv Tuple) (isSequence : op = .follows ∨ op = .both)
    (timeDelay : Int) (different : leftSource ≠ rightSource) (calls : List (EventCall Tuple))
    (ordered : Ordered (arrivals calls)) (guarded : (eventMachine env).Guarded (CanPair env)
      (sequenceNode op timeDelay leftSource rightSource) calls) :
    ∃ outs node, (eventMachine env).run (sequenceNode op timeDelay leftSource rightSource)
        calls = (outs, .ok node) ∧
      (delivered outs : Multiset (Occurrence Tuple)) + pending env node.eventExpr.outputList =
        expectedPairs env op timeDelay leftSource rightSource (arrivals calls) ∧
      ∃ m, ∀ more, m ≤ more → ∃ emitted final,
        (eventMachine env).run (sequenceNode op timeDelay leftSource rightSource)
          (calls ++ List.replicate more .idle) = (emitted, .ok final) ∧
        (delivered emitted : Multiset (Occurrence Tuple)) =
          expectedPairs env op timeDelay leftSource rightSource (arrivals calls) := by
  obtain ⟨outs, node, ran, lefts, rights, outputList, sequenced⟩ :=
    @Machine.run_guarded _ _ _ _ (eventMachine env) (fun calls => Ordered (arrivals calls))
      (CanPair env)
      (fun calls outs node => ∃ lefts rights outputList,
        Sequenced env op timeDelay leftSource rightSource (arrivals calls) outs node lefts
          rights outputList)
      (fun calls more both => (pairwise_append.mp (by
        rwa [Ordered, arrivals, filterMap_append] at both)).1)
      (fun calls call outs node ordered can ⟨lefts, rights, outputList, sequenced⟩ => by
        obtain ⟨emitted, next, lefts', rights', outputList', ran, sequencedNext⟩ :=
          sequenced.step isSequence different ordered can
        exact ⟨emitted, next, ran, lefts', rights', outputList', sequencedNext⟩)
      (sequenceNode op timeDelay leftSource rightSource) ⟨[], [], [], sequenced_init⟩ calls
      ordered guarded
  exact ⟨outs, node, ran, handed_over ran sequenced.streams sequenced.produced⟩

end Sequences

theorem pairs_produced_once_in_order :
    ∃ outs node, (eventMachine stackEnv).run (sequenceNode .follows 5 0 1)
        [.data ⟨0, 10, 0⟩, .data ⟨1, 20, 1⟩, .data ⟨1, 30, 2⟩] = (outs, .ok node) ∧
      (delivered outs : Multiset (Occurrence Nat)) +
          pending stackEnv node.eventExpr.outputList =
        expectedPairs stackEnv .follows 5 0 1 [⟨0, 10, 0⟩, ⟨1, 20, 1⟩, ⟨1, 30, 2⟩] := by
  obtain ⟨outs, node, ran, produced, -⟩ := pairs_produced_once stackEnv (.inl rfl) 5
    (by decide : (0 : Source) ≠ 1) [.data ⟨0, 10, 0⟩, .data ⟨1, 20, 1⟩, .data ⟨1, 30, 2⟩]
    (by decide) (by decide)
  exact ⟨outs, node, ran, produced⟩

/-- The pair with the first tuple on the right stream is handed over before the second one
arrives, whose entry is given the address that the left entry remembers. -/
theorem pair_lost_to_reused_address :
    let calls : List (EventCall Nat) :=
      [.data ⟨0, 10, 0⟩, .data ⟨1, 20, 1⟩, .idle, .data ⟨1, 30, 2⟩, .idle]
    Ordered (arrivals calls) ∧
      ∃ outs node, (eventMachine stackEnv).run (sequenceNode .follows 5 0 1) calls =
          (outs, .ok node) ∧
        (delivered outs : Multiset (Occurrence Nat)) +
            pending stackEnv node.eventExpr.outputList ≠
          expectedPairs stackEnv .follows 5 0 1 (arrivals calls) :=
  ⟨by decide, _, _, rfl, by decide⟩

end TelegraphCQ.Events
