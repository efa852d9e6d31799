import Mathlib.Data.Multiset.Bind
import TelegraphCQ.Events.FEventAgg

/-!
# Entries in memory

What the lists of the tree hold: every entry is a live object, and every base tuple of its
event is pinned once for it.  The operations on lists keep the counts exact and never
fault; appending needs nothing but that the base tuples of the new event are pinned.
-/

namespace TelegraphCQ.Events

open Foundation List

section Memory

variable {Tuple : Type}

def holding (entries : List (EventEntry Tuple)) : Multiset (Address × Event Tuple) :=
  (entries.map fun entry => (entry.address, entry.event) : List _)

def references (held : Multiset (Address × Event Tuple)) : Multiset Address :=
  held.bind fun object => object.2.addresses

def Held (mem : Pinned) (held : Multiset (Address × Event Tuple))
    (loose : Multiset Address) : Prop :=
  mem.Counted (held.map Prod.fst) (references held + loose)

variable {env : EventEnv Tuple} {mem : Pinned} {held : Multiset (Address × Event Tuple)}
  {loose : Multiset Address}

@[simp] theorem holding_nil : holding ([] : List (EventEntry Tuple)) = 0 := rfl

@[simp] theorem holding_cons (entry : EventEntry Tuple) (entries : List (EventEntry Tuple)) :
    holding (entry :: entries) = (entry.address, entry.event) ::ₘ holding entries := rfl

@[simp] theorem holding_append (front back : List (EventEntry Tuple)) :
    holding (front ++ back) = holding front + holding back := by
  simp [holding, ← Multiset.coe_add]

@[simp] theorem references_zero : references (0 : Multiset (Address × Event Tuple)) = 0 := rfl

@[simp] theorem references_cons (object : Address × Event Tuple) :
    references (object ::ₘ held) = object.2.addresses + references held := by
  simp [references]

theorem references_add (more : Multiset (Address × Event Tuple)) :
    references (held + more) = references held + references more := by
  simp [references]

theorem mem_references {object : Address × Event Tuple} (isHeld : object ∈ held)
    {address : Address} (isBase : address ∈ object.2.addresses) : address ∈ references held :=
  Multiset.mem_bind.mpr ⟨object, isHeld, isBase⟩

theorem held_init : Held (⟨[], [], 0⟩ : Pinned) (0 : Multiset (Address × Event Tuple)) 0 where
  live := rfl
  nodup := nodup_nil
  count _ isPin := by cases isPin
  covered _ isBase := absurd isBase (Multiset.notMem_zero _)

def newAddress (env : EventEnv Tuple) (event : Event Tuple) (mem : Pinned) :
    Except EventFault Address := do
  let mem ← incrementBaseTuplePinCountsForEvent event mem
  return (mem.alloc env.allocator).1

theorem appendEvent_spec (isHeld : Held mem held loose) {event : Event Tuple}
    (pinned : ∀ address ∈ event.addresses, address ∈ references held + loose)
    (outputList : List (EventEntry Tuple)) :
    ∃ entry next, appendEvent env event outputList mem = .ok (outputList ++ [entry], next) ∧
      entry = ⟨entry.address, event, [], false, false⟩ ∧
      newAddress env event mem = .ok entry.address ∧
      Held next ((entry.address, event) ::ₘ held) loose := by
  obtain ⟨pinnedMem, ran, counted, -⟩ :=
    isHeld.pinAll event.addresses fun address isBase =>
      isHeld.covered address (pinned address isBase)
  obtain ⟨-, allocated, -⟩ := counted.alloc env.allocator
  refine ⟨⟨(pinnedMem.alloc env.allocator).1, event, [], false, false⟩,
    (pinnedMem.alloc env.allocator).2, ?_, rfl, ?_, ?_⟩
  · simp [appendEvent, incrementBaseTuplePinCountsForEvent, ran, liftMem, bind, Except.bind,
      pure, Except.pure]
  · simp [newAddress, incrementBaseTuplePinCountsForEvent, ran, liftMem, bind, Except.bind,
      pure, Except.pure]
  · simp only [Held, Multiset.map_cons, references_cons]
    have sum : references held + loose + (event.addresses : Multiset Address) =
        event.addresses + references held + loose := by
      rw [add_comm, ← add_assoc]
    rw [← sum]
    exact allocated

variable {entry : EventEntry Tuple}

theorem appendEvent_list {event : Event Tuple} {next : Pinned}
    (appended : appendEvent env event [] mem = .ok ([] ++ [entry], next))
    (outputList : List (EventEntry Tuple)) :
    appendEvent env event outputList mem = .ok (outputList ++ [entry], next) := by
  simp only [appendEvent, bind, Except.bind] at appended ⊢
  cases ran : incrementBaseTuplePinCountsForEvent event mem with
  | error fault =>
    rw [ran] at appended
    cases appended
  | ok pinned =>
    rw [ran] at appended
    simp only [pure, Except.pure, Except.ok.injEq, Prod.mk.injEq, nil_append,
      List.cons.injEq, and_true] at appended ⊢
    rw [appended.1]
    exact ⟨rfl, appended.2⟩

theorem Held.nodup (isHeld : Held mem held loose) : (held.map Prod.fst).Nodup :=
  (Multiset.nodup_add.mp isHeld.nodup_sum).2.1

theorem copyEventInPrivateContext_spec (isHeld : Held mem held 0)
    (room : mem.pins.length < maxBaseTuplesCached) (input : StreamTuple Tuple) :
    ∃ address next, copyEventInPrivateContext env input mem =
        .ok (⟨[⟨input.source, address, input.tuple⟩], input.timestamp⟩, next) ∧
      Held next held {address} := by
  obtain ⟨-, allocated, pins⟩ := isHeld.alloc env.allocator
  obtain ⟨registered, ran, counted, keys⟩ := allocated.register (by rwa [pins])
  obtain ⟨next, pinned, countedNext, -⟩ := counted.pinAll [(mem.alloc env.allocator).1] (by
    intro address isNew
    rw [keys, mem_singleton.mp isNew]
    simp)
  refine ⟨(mem.alloc env.allocator).1, next, ?_, ?_⟩
  · simp [copyEventInPrivateContext, ran, incrementBaseTuplePinCountsForEvent, Event.addresses,
      pinned, liftMem, bind, Except.bind, pure, Except.pure]
  · simp only [Held, add_zero, Multiset.coe_singleton] at countedNext ⊢
    exact countedNext

theorem deleteEvent_spec {event : Event Tuple} (isHeld : Held mem held (loose + event.addresses)) :
    ∃ next, deleteEvent event mem = .ok next ∧ Held next held loose := by
  rw [Held, ← add_assoc] at isHeld
  obtain ⟨next, ran, counted, -⟩ := isHeld.unpinAll event.addresses
  refine ⟨next, ?_, counted⟩
  simp [deleteEvent, decrementBaseTuplePinCountsForEvent, ran, liftMem]

theorem deleteEventEntry_spec (isHeld : Held mem ((entry.address, entry.event) ::ₘ held) loose) :
    ∃ next, deleteEventEntry entry mem = .ok next ∧ Held next held loose := by
  simp only [Held, Multiset.map_cons, references_cons] at isHeld
  have sum : (entry.event.addresses : Multiset Address) + references held + loose =
      references held + loose + (entry.event.addresses : Multiset Address) := by
    rw [add_comm _ (entry.event.addresses : Multiset Address), ← add_assoc]
  rw [sum] at isHeld
  obtain ⟨unpinned, ran, counted, -⟩ := isHeld.unpinAll entry.event.addresses
  obtain ⟨next, freed, countedNext, -⟩ := counted.free (Multiset.mem_cons_self _ _)
  rw [Multiset.erase_cons_head] at countedNext
  refine ⟨next, ?_, countedNext⟩
  simp [deleteEventEntry, deleteEvent, decrementBaseTuplePinCountsForEvent, ran, freed,
    liftMem, bind, Except.bind]

theorem expireAllEventsFromList_spec (entries : List (EventEntry Tuple))
    (isHeld : Held mem (holding entries + held) loose) :
    ∃ next, expireAllEventsFromList entries mem = .ok next ∧ Held next held loose := by
  induction entries generalizing mem with
  | nil => exact ⟨mem, rfl, by simpa using isHeld⟩
  | cons entry entries ih =>
    rw [holding_cons, Multiset.cons_add] at isHeld
    obtain ⟨next, deleted, heldNext⟩ := deleteEventEntry_spec isHeld
    obtain ⟨final, ran, heldFinal⟩ := ih heldNext
    refine ⟨final, ?_, heldFinal⟩
    simp only [expireAllEventsFromList, foldlM_cons, deleted, bind, Except.bind]
    exact ran

theorem expireEventsFromListIntervalBased_spec (ts timeDelay : Int)
    (entries : List (EventEntry Tuple)) (isHeld : Held mem (holding entries + held) loose) :
    ∃ next, expireEventsFromListIntervalBased ts timeDelay entries mem =
        .ok (entries.filter fun entry => ts ≤ entry.event.eventTimestamp + timeDelay, next) ∧
      Held next (holding (entries.filter fun entry =>
        ts ≤ entry.event.eventTimestamp + timeDelay) + held) loose := by
  induction entries generalizing mem held with
  | nil => exact ⟨mem, rfl, isHeld⟩
  | cons entry entries ih =>
    rw [holding_cons, Multiset.cons_add] at isHeld
    by_cases kept : ts ≤ entry.event.eventTimestamp + timeDelay
    · rw [← Multiset.add_cons] at isHeld
      obtain ⟨next, ran, heldNext⟩ := ih isHeld
      refine ⟨next, ?_, ?_⟩
      · simp [expireEventsFromListIntervalBased, kept, ran, bind, Except.bind, pure, Except.pure]
      · rw [filter_cons_of_pos (by simpa using kept), holding_cons, Multiset.cons_add,
          ← Multiset.add_cons]
        exact heldNext
    · obtain ⟨next, deleted, heldNext⟩ := deleteEventEntry_spec isHeld
      obtain ⟨final, ran, heldFinal⟩ := ih heldNext
      refine ⟨final, ?_, ?_⟩
      · simp [expireEventsFromListIntervalBased, kept, deleted, ran, bind, Except.bind]
      · rw [filter_cons_of_neg (by simpa using kept)]
        exact heldFinal

end Memory

end TelegraphCQ.Events
