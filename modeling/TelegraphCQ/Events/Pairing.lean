import TelegraphCQ.Events.Memory

/-!
# Pairing two lists

The loops of BOTH, FOLLOWS and PRECEDES over the left and the right list.  As long as the
entries of each list have different addresses, what the loops remember on the way does not
matter to them: a pair gives an event according to what was remembered before.
-/

namespace TelegraphCQ.Events

open Foundation List Function

section Pairing

variable {Tuple : Type} (accepts : Event Tuple → Event Tuple → Bool) (checkMatched : Bool)

def fires (first second : EventEntry Tuple) : Bool :=
  !(haveSimpleEventConflict first.event second.event ||
    !accepts first.event second.event || (checkMatched && haveBeenMatched first second))

def EventEntry.withMatches (entry : EventEntry Tuple) (others : List (EventEntry Tuple)) :
    EventEntry Tuple :=
  { entry with matched := entry.matched ++ others.map EventEntry.address }

def pairedEvents (first : EventEntry Tuple) (rights : List (EventEntry Tuple)) :
    List (Event Tuple) :=
  (rights.filter (fires accepts checkMatched first)).map fun second =>
    combineEvents first.event second.event

variable {accepts checkMatched}

@[simp] theorem withMatches_nil (entry : EventEntry Tuple) : entry.withMatches [] = entry := by
  simp [EventEntry.withMatches]

theorem withMatches_withMatches (entry : EventEntry Tuple) (front back : List (EventEntry Tuple)) :
    (entry.withMatches front).withMatches back = entry.withMatches (front ++ back) := by
  simp [EventEntry.withMatches]

theorem remember_eq (entry other : EventEntry Tuple) :
    entry.remember other = entry.withMatches [other] := rfl

variable {first second : EventEntry Tuple} {others entries : List (EventEntry Tuple)}

theorem fires_withMatches_left (different : ∀ other ∈ others, other.address ≠ second.address) :
    fires accepts checkMatched (first.withMatches others) second =
      fires accepts checkMatched first second := by
  have noMatch : second.address ∉ others.map EventEntry.address := by simpa using different
  simp [fires, haveBeenMatched, EventEntry.withMatches, noMatch]

theorem fires_withMatches_right (different : ∀ other ∈ others, other.address ≠ first.address) :
    fires accepts checkMatched first (second.withMatches others) =
      fires accepts checkMatched first second := by
  have noMatch : first.address ∉ others.map EventEntry.address := by simpa using different
  simp [fires, haveBeenMatched, EventEntry.withMatches, noMatch]

theorem forall_mem_combineEvents {first second : Event Tuple} {P : Address → Prop}
    (inFirst : ∀ address ∈ first.addresses, P address)
    (inSecond : ∀ address ∈ second.addresses, P address) :
    ∀ address ∈ (combineEvents first second).addresses, P address := by
  rw [Event.addresses, combineEvents, map_append]
  exact forall_mem_append.mpr ⟨inFirst, forall_mem_map.mpr fun base isBase =>
    inSecond _ (mem_map_of_mem (mem_of_mem_filter isBase))⟩

variable {env : EventEnv Tuple} {mem : Pinned} {held : Multiset (Address × Event Tuple)}
  {loose : Multiset Address}

def AllPinned (held : Multiset (Address × Event Tuple)) (loose : Multiset Address)
    (entries : List (EventEntry Tuple)) : Prop :=
  ∀ entry ∈ entries, ∀ address ∈ entry.event.addresses, address ∈ references held + loose

theorem AllPinned.mono (pinned : AllPinned held loose entries)
    (more : Multiset (Address × Event Tuple)) : AllPinned (more + held) loose entries := by
  intro entry isEntry address isBase
  rw [references_add, add_assoc]
  exact Multiset.mem_add.mpr (.inr (pinned entry isEntry address isBase))

theorem holding_le (lefts rights others : List (EventEntry Tuple)) :
    holding lefts ≤ holding lefts + holding rights + holding others ∧
      holding rights ≤ holding lefts + holding rights + holding others := by
  rw [add_assoc, add_left_comm]
  exact ⟨add_left_comm (holding lefts) .. ▸ Multiset.le_add_right _ _, Multiset.le_add_right _ _⟩

theorem allPinned_of_holding (within : holding entries ≤ held) : AllPinned held loose entries := by
  intro entry isEntry address isBase
  have isHeld : (entry.address, entry.event) ∈ held :=
    Multiset.mem_of_le within (mem_map.mpr ⟨entry, isEntry, rfl⟩)
  exact Multiset.mem_add.mpr (.inl (mem_references isHeld isBase))

theorem nodup_of_holding (isHeld : Held mem held loose) (within : holding entries ≤ held) :
    (entries.map EventEntry.address).Nodup := by
  have nodup := Multiset.nodup_of_le (Multiset.map_le_map within) isHeld.nodup
  simpa [holding, comp_def] using nodup

theorem pairEntry_spec (first : EventEntry Tuple) (rights : List (EventEntry Tuple))
    (outputList : List (EventEntry Tuple)) (isHeld : Held mem held loose)
    (pinned : AllPinned held loose (first :: rights))
    (distinct : (rights.map EventEntry.address).Nodup) : ∃ entries next,
      pairEntry env accepts checkMatched first rights outputList mem =
        .ok (first.withMatches (rights.filter (fires accepts checkMatched first)),
          rights.map fun second =>
            second.withMatches ([first].filter (fires accepts checkMatched · second)),
          outputList ++ entries, next) ∧
      entries.map EventEntry.event = pairedEvents accepts checkMatched first rights ∧
      Held next (holding entries + held) loose := by
  induction rights generalizing first outputList mem held with
  | nil =>
    exact ⟨[], mem, by simp [pairEntry], rfl, by simpa using isHeld⟩
  | cons second rights ih =>
    obtain ⟨notLater, distinctRest⟩ := nodup_cons.mp distinct
    obtain ⟨pinnedFirst, pinnedSecond, pinnedRights⟩ :=
      (forall_mem_cons.mp pinned).imp_right forall_mem_cons.mp
    have pinnedRest : AllPinned held loose (first :: rights) :=
      forall_mem_cons.mpr ⟨pinnedFirst, pinnedRights⟩
    by_cases firing : fires accepts checkMatched first second = true
    · obtain ⟨entry, grown, appended, isEntry, -, heldGrown⟩ :=
        @appendEvent_spec _ env _ _ _ isHeld _ (forall_mem_combineEvents pinnedFirst pinnedSecond)
          outputList
      have pinnedGrown : AllPinned ((entry.address, entry.event) ::ₘ held) loose
          (first.remember second :: rights) := by
        rw [← Multiset.singleton_add]
        exact forall_mem_cons.mpr (forall_mem_cons.mp (pinnedRest.mono _))
      rw [isEntry] at heldGrown
      have event : entry.event = combineEvents first.event second.event := by rw [isEntry]
      obtain ⟨entries, next, ran, events, heldNext⟩ :=
        ih (first.remember second) (outputList ++ [entry]) (by rwa [event]) pinnedGrown
          distinctRest
      have sameFires : ∀ other ∈ rights, fires accepts checkMatched (first.remember second)
          other = fires accepts checkMatched first other := by
        intro other isOther
        rw [remember_eq]
        apply fires_withMatches_left
        intro remembered isRemembered same
        rw [mem_singleton.mp isRemembered] at same
        exact notLater (same ▸ mem_map_of_mem isOther)
      have sameFilter : rights.filter (fires accepts checkMatched (first.remember second)) =
          rights.filter (fires accepts checkMatched first) := filter_congr sameFires
      refine ⟨entry :: entries, next, ?_, ?_, ?_⟩
      · have goes : (haveSimpleEventConflict first.event second.event ||
            !accepts first.event second.event ||
            (checkMatched && haveBeenMatched first second)) = false := by
          simpa only [fires, Bool.not_eq_true'] using firing
        simp only [pairEntry, goes, Bool.false_eq_true, if_false, appended, bind, Except.bind,
          ran, pure, Except.pure, sameFilter, filter_cons_of_pos firing,
          map_cons, append_assoc, singleton_append, Except.ok.injEq,
          Prod.mk.injEq, List.cons.injEq, and_true]
        refine ⟨?_, ?_, ?_⟩
        · rw [remember_eq, withMatches_withMatches, singleton_append]
        · rw [filter_cons_of_pos (by simpa using firing), filter_nil]
          rfl
        · apply map_congr_left
          intro other isOther
          simp only [filter_cons, filter_nil, sameFires other isOther]
          split <;> rfl
      · simp only [map_cons, event, pairedEvents, filter_cons_of_pos firing, events, sameFilter]
        rfl
      · rw [holding_cons, Multiset.cons_add, ← Multiset.add_cons]
        exact heldNext
    · obtain ⟨entries, next, ran, events, heldNext⟩ :=
        ih first outputList isHeld pinnedRest distinctRest
      refine ⟨entries, next, ?_, ?_, heldNext⟩
      · have stays : (haveSimpleEventConflict first.event second.event ||
            !accepts first.event second.event ||
            (checkMatched && haveBeenMatched first second)) = true := by
          simpa only [fires, Bool.not_eq_true', Bool.not_eq_false] using firing
        have none_ : [first].filter (fires accepts checkMatched · second) = [] := by
          simpa using firing
        simp [pairEntry, stays, ran, bind, Except.bind, pure, Except.pure,
          filter_cons_of_neg firing, none_, withMatches_nil]
      · rw [events, pairedEvents, pairedEvents, filter_cons_of_neg firing]

theorem pairLists_spec (lefts rights outputList : List (EventEntry Tuple))
    (isHeld : Held mem held loose) (pinnedLefts : AllPinned held loose lefts)
    (pinnedRights : AllPinned held loose rights)
    (distinctLefts : (lefts.map EventEntry.address).Nodup)
    (distinctRights : (rights.map EventEntry.address).Nodup) : ∃ entries next,
      pairLists env accepts checkMatched lefts rights outputList mem = .ok (lefts.map fun first =>
            first.withMatches (rights.filter (fires accepts checkMatched first)),
          rights.map fun second =>
            second.withMatches (lefts.filter (fires accepts checkMatched · second)),
          outputList ++ entries, next) ∧ entries.map EventEntry.event =
        lefts.flatMap (pairedEvents accepts checkMatched · rights) ∧
      Held next (holding entries + held) loose := by
  induction lefts generalizing rights outputList mem held with
  | nil =>
    refine ⟨[], mem, ?_, rfl, by simpa using isHeld⟩
    simp [pairLists]
  | cons first lefts ih =>
    obtain ⟨notLater, distinctRest⟩ := nodup_cons.mp distinctLefts
    have pinned : AllPinned held loose (first :: rights) :=
      forall_mem_cons.mpr ⟨pinnedLefts first mem_cons_self, pinnedRights⟩
    obtain ⟨entries, grown, paired, events, heldGrown⟩ :=
      @pairEntry_spec _ _ checkMatched env _ _ _ first rights outputList isHeld pinned
        distinctRights
    have distinctGrown : ((rights.map fun second => second.withMatches
        ([first].filter (fires accepts checkMatched · second))).map
          EventEntry.address).Nodup := by
      rw [map_map]
      exact distinctRights
    have pinnedGrown : AllPinned (holding entries + held) loose
        (rights.map fun second => second.withMatches
          ([first].filter (fires accepts checkMatched · second))) := by
      exact forall_mem_map.mpr (pinnedRights.mono _)
    obtain ⟨more, next, pairedRest, eventsRest, heldNext⟩ :=
      ih _ (outputList ++ entries) heldGrown
        (forall_mem_cons.mp (pinnedLefts.mono _)).2
        pinnedGrown distinctRest distinctGrown
    -- what the first entry leaves in the right list does not concern the others
    have sameFires : ∀ other ∈ lefts, ∀ second, fires accepts checkMatched other
        (second.withMatches ([first].filter (fires accepts checkMatched · second))) =
          fires accepts checkMatched other second := by
      intro other isOther second
      apply fires_withMatches_right
      intro remembered isRemembered same
      rw [mem_singleton.mp (mem_of_mem_filter isRemembered)] at same
      exact notLater (same ▸ mem_map_of_mem isOther)
    refine ⟨entries ++ more, next, ?_, ?_, ?_⟩
    · rw [append_assoc] at pairedRest
      simp only [pairLists, bind, Except.bind, pure, Except.pure]
      rw [paired]
      simp only [pairedRest, map_cons, Except.ok.injEq, Prod.mk.injEq, and_true,
        List.cons.injEq, true_and, map_map]
      constructor
      · apply map_congr_left
        intro other isOther
        rw [filter_map, EventEntry.withMatches, EventEntry.withMatches, map_map]
        congr 2
        simp only [comp_def]
        rw [filter_congr fun second _ => sameFires other isOther second]
        rfl
      · apply map_congr_left
        intro second _
        simp only [comp, withMatches_withMatches]
        congr 1
        rw [filter_congr fun other isOther => sameFires other isOther second,
          ← filter_append, singleton_append]
    · rw [map_append, events, eventsRest, flatMap_cons]
      congr 1
      apply flatMap_congr
      intro other isOther
      simp only [pairedEvents, filter_map, map_map, comp_def]
      rw [filter_congr fun second _ => sameFires other isOther second]
      rfl
    · rw [holding_append, add_comm (holding entries), add_assoc]
      exact heldNext

end Pairing

end TelegraphCQ.Events
