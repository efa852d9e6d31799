import Mathlib.Data.List.Basic

/-!
# First-in first-out traces

The observable events of a bounded queue, and the abstract queue they have to
follow.  An implementation may refuse an item, but it may report an empty queue
only when the queue is empty.
-/

namespace TelegraphCQ.Foundation

inductive FifoEvent (Item : Type*) where
  | accepted (item : Item)
  | refused (item : Item)
  | removed (item : Item)
  | nothing
  deriving DecidableEq, Repr

namespace FifoEvent

variable {Item : Type*}

inductive Step : List Item → FifoEvent Item → List Item → Prop
  | accepted (items : List Item) (item : Item) :
      Step items (.accepted item) (items ++ [item])
  | refused (items : List Item) (item : Item) : Step items (.refused item) items
  | removed (item : Item) (items : List Item) :
      Step (item :: items) (.removed item) items
  | nothing : Step [] .nothing []

inductive Trace : List Item → List (FifoEvent Item) → List Item → Prop
  | nil (items : List Item) : Trace items [] items
  | snoc {before items after : List Item} {events : List (FifoEvent Item)}
      {event : FifoEvent Item} (earlier : Trace before events items)
      (last : Step items event after) : Trace before (events ++ [event]) after

def acceptedItem? : FifoEvent Item → Option Item
  | .accepted item => some item
  | _ => none

def removedItem? : FifoEvent Item → Option Item
  | .removed item => some item
  | _ => none

theorem Trace.accepted_eq {before after : List Item}
    {events : List (FifoEvent Item)} (trace : Trace before events after) :
    before ++ events.filterMap acceptedItem? = events.filterMap removedItem? ++ after := by
  induction trace with
  | nil => simp
  | snoc earlier last ih =>
    simp only [List.filterMap_append, ← List.append_assoc, ih]
    cases last <;> simp [List.filterMap_cons, acceptedItem?, removedItem?]

end FifoEvent

end TelegraphCQ.Foundation
