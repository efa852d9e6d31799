import Mathlib.Data.List.Forall2
import TelegraphCQ.ResultQueue.Queue

/-!
# The circular queue is a first-in first-out queue

The elements stored in the buffer lie either in one run from `head` to `tail`, with
the wall at the end, or in two runs, from `head` to the wall and from the start to
`tail`.  Both layouts determine the free space, so each branch of the two operations
is decided by the layout alone.
-/

namespace TelegraphCQ.ResultQueue

open Foundation List

variable {Data : Type} {qs : QueueSerializer Data}

/-! ## One stored element -/

theorem eltSize_eq (data : Data) : eltSize qs data = (qs.serialize data).length + 13 := by
  have size := qs.length_serialize data
  have bound := qs.determineSize_le data
  simp only [maxAllocSize] at bound
  unfold eltSize cInt qhdrsz padsize
  rw [Int.bmod_eq_of_le (by omega) (by omega)]
  omega

theorem eltSize_pos (data : Data) : 0 < eltSize qs data := by
  rw [eltSize_eq]
  omega

def frame (qs : QueueSerializer Data) (data : Data) : List UInt8 :=
  Memory.wordBytes 4 eltcheck ++
    (Memory.wordBytes 4 (eltSize qs data).toNat ++
      (qs.serialize data ++ List.replicate 5 pad))

theorem length_frame (data : Data) : ((frame qs data).length : Int) = eltSize qs data := by
  rw [eltSize_eq]
  simp [frame]
  omega

theorem holds_storeElt (data : Data) (addr : Int) (mem : Memory) :
    (storeElt qs data addr mem).Holds addr (frame qs data) := by
  have size := @eltSize_eq Data qs data
  unfold frame
  rw [Memory.holds_append, Memory.holds_append, Memory.holds_append]
  simp only [Memory.length_wordBytes, storeElt, qhdrsz]
  refine ⟨?_, ?_, ?_, ?_⟩
  · apply Memory.Holds.write_other
    · apply Memory.Holds.write_other
      · apply Memory.Holds.write_other
        · exact Memory.holds_write mem addr _
        · simp
      · simp
    · simp
  · apply Memory.Holds.write_other
    · apply Memory.Holds.write_other
      · exact Memory.holds_write _ _ _
      · simp
        omega
    · simp
      omega
  · have place : addr + (4 : Nat) + (4 : Nat) = addr + 8 := by omega
    rw [place]
    exact Memory.holds_write _ _ _
  · -- the padding is what the fill leaves behind the serialized bytes
    have place : addr + (4 : Nat) + (4 : Nat) = addr + 8 := by omega
    have count : (eltSize qs data - 8).toNat = (qs.serialize data).length + 5 := by
      omega
    rw [place, count, replicate_add]
    apply Memory.Holds.write_other
    · have filled := Memory.holds_append.mp (Memory.holds_write
        ((mem.write addr (Memory.wordBytes 4 eltcheck)).write (addr + 4)
          (Memory.wordBytes 4 (eltSize qs data).toNat)) (addr + 8)
        (List.replicate (qs.serialize data).length pad ++ List.replicate 5 pad))
      simpa using filled.2
    · simp

variable {data : Data} {first last : Int} {mem : Memory} {q : Queue} {items front back : List Data}

theorem laid_storeElt {addr : Int} {blocks : List (List UInt8)} (laid : mem.Laid first blocks last)
    (apart : last ≤ addr ∨ addr + eltSize qs data ≤ first) :
    (storeElt qs data addr mem).Laid first blocks last := by
  have size := @eltSize_eq Data qs data
  unfold storeElt
  apply Memory.Laid.write_other
  · apply Memory.Laid.write_other
    · apply Memory.Laid.write_other
      · apply Memory.Laid.write_other laid
        simp
        omega
      · simp
        omega
    · simp [qhdrsz]
      omega
  · simp [qhdrsz]
    omega

def popElt (qs : QueueSerializer Data) (data : Data) (q : Queue) : Queue :=
  { q with
    mem := q.mem.write q.head (List.replicate (eltSize qs data).toNat 0)
    head := q.head + eltSize qs data
    bytesfree := q.bytesfree + eltSize qs data
    numelts := q.numelts - 1 }

theorem takeElt_eq (holds : q.mem.Holds q.head (frame qs data))
    (small : eltSize qs data ≤ maxAllocSize) :
    takeElt qs q = .ok (some data, popElt qs data q) := by
  unfold frame at holds
  rw [Memory.holds_append, Memory.holds_append, Memory.holds_append] at holds
  obtain ⟨check, length, bytes, -⟩ := holds
  simp only [Memory.length_wordBytes] at length bytes
  have checked : q.mem.readWord 4 q.head = eltcheck := Memory.readWord_of_holds check
  have size : varSize q.mem q.head = eltSize qs data := by
    have positive := @eltSize_pos Data qs data
    have read := Memory.readWord_of_holds length
    simp only [maxAllocSize] at small
    simp only [varSize, Nat.cast_ofNat] at read ⊢
    rw [read]
    omega
  have found : qs.deserialize (q.mem.view (q.head + qhdrsz)) = data := by
    apply qs.deserialize_serialize
    apply Memory.holds_view.mpr
    have place : q.head + qhdrsz = q.head + (4 : Nat) + (4 : Nat) := by
      simp only [qhdrsz]
      omega
    rw [place]
    exact bytes
  unfold takeElt
  rw [if_neg (not_not.mpr checked), size, found]
  rfl

/-! ## Layouts of the buffer -/

def bytesOf (qs : QueueSerializer Data) (items : List Data) : Int :=
  (items.map (eltSize qs)).sum

@[simp] theorem bytesOf_nil : bytesOf qs ([] : List Data) = 0 := rfl

@[simp] theorem bytesOf_cons (data : Data) (items : List Data) :
    bytesOf qs (data :: items) = eltSize qs data + bytesOf qs items := by
  simp [bytesOf]

@[simp] theorem bytesOf_append (left right : List Data) :
    bytesOf qs (left ++ right) = bytesOf qs left + bytesOf qs right := by
  simp [bytesOf]

theorem bytesOf_nonneg (items : List Data) : 0 ≤ bytesOf qs items := by
  induction items with
  | nil => simp
  | cons data items ih =>
    have positive := @eltSize_pos Data qs data
    rw [bytesOf_cons]
    omega

theorem bytesOf_eq_zero {items : List Data} (none : bytesOf qs items = 0) : items = [] := by
  cases items with
  | nil => rfl
  | cons data items =>
    have positive := @eltSize_pos Data qs data
    have rest := @bytesOf_nonneg Data qs items
    rw [bytesOf_cons] at none
    omega

theorem laid_extent (laid : mem.Laid first (items.map (frame qs)) last) :
    last = first + bytesOf qs items := by
  induction items generalizing first with
  | nil =>
    have same : first = last := laid
    simp [same]
  | cons data items ih =>
    rw [ih laid.2, length_frame, bytesOf_cons]
    omega

theorem laid_concat (laid : mem.Laid first (items.map (frame qs)) last)
    (holds : mem.Holds last (frame qs data)) : mem.Laid first ((items ++ [data]).map (frame qs))
      (last + eltSize qs data) := by
  rw [map_append]
  apply laid.append
  exact ⟨holds, by rw [length_frame]; rfl⟩

structure Contiguous (qs : QueueSerializer Data) (q : Queue)
    (items : List Data) : Prop where
  first : 0 ≤ q.head
  laid : q.mem.Laid q.head (items.map (frame qs)) q.tail
  last : q.tail ≤ q.bufEnd
  wall : q.wall = q.bufEnd

structure Wrapped (qs : QueueSerializer Data) (q : Queue)
    (front back : List Data) : Prop where
  laidFront : q.mem.Laid q.head (front.map (frame qs)) q.wall
  laidBack : q.mem.Laid 0 (back.map (frame qs)) q.tail
  apart : q.tail ≤ q.head
  wall : q.wall ≤ q.bufEnd

inductive Layout (qs : QueueSerializer Data) (q : Queue) : List Data → Prop
  | contiguous {items : List Data} (placed : Contiguous qs q items) : Layout qs q items
  | wrapped {front back : List Data} (placed : Wrapped qs q front back) :
      Layout qs q (front ++ back)

structure Stores (qs : QueueSerializer Data) (q : Queue)
    (items : List Data) : Prop where
  layout : Layout qs q items
  free : q.bytesfree = q.bufEnd - bytesOf qs items
  count : q.numelts = items.length
  bound : q.bufEnd ≤ maxAllocSize

/-! ## Enqueueing -/

def pushElt (qs : QueueSerializer Data) (data : Data) (q : Queue) : Queue :=
  { q with
    mem := storeElt qs data q.tail q.mem
    tail := q.tail + eltSize qs data
    numelts := q.numelts + 1
    bytesfree := q.bytesfree - eltSize qs data }

theorem placeElt_eq {spaceavail : Int} (free : spaceavail ≤ q.bytesfree) :
    placeElt qs data spaceavail q =
      if eltSize qs data ≤ spaceavail then .ok (true, pushElt qs data q) else .ok (false, q) := by
  unfold placeElt
  by_cases fits : eltSize qs data ≤ spaceavail
  · rw [if_neg (by omega), if_neg (by omega), if_pos fits]
    rfl
  · rw [if_pos (by omega), if_neg fits]

theorem pushElt_contiguous (placed : Contiguous qs q items)
    (fits : eltSize qs data ≤ q.bufEnd - q.tail) :
    Contiguous qs (pushElt qs data q) (items ++ [data]) where
  first := placed.first
  laid := laid_concat (laid_storeElt placed.laid (Or.inl (le_refl _)))
    (holds_storeElt data q.tail q.mem)
  last := by
    simp only [pushElt]
    omega
  wall := placed.wall

theorem pushElt_wrapped (placed : Wrapped qs q front back)
    (fits : eltSize qs data ≤ q.head - q.tail) :
    Wrapped qs (pushElt qs data q) front (back ++ [data]) where
  laidFront := laid_storeElt placed.laidFront (Or.inr (show _ ≤ q.head by omega))
  laidBack := laid_concat (laid_storeElt placed.laidBack (Or.inl (le_refl _)))
    (holds_storeElt data q.tail q.mem)
  apart := by
    simp only [pushElt]
    omega
  wall := placed.wall

theorem pushElt_stores (stores : Stores qs q items)
    (layout : Layout qs (pushElt qs data q) (items ++ [data])) :
    Stores qs (pushElt qs data q) (items ++ [data]) where
  layout := layout
  free := by
    have free := stores.free
    simp only [pushElt, bytesOf_append, bytesOf_cons, bytesOf_nil]
    omega
  count := by simp [pushElt, stores.count]
  bound := stores.bound

theorem wrapTail_wrapped (placed : Contiguous qs q items) : Wrapped qs (wrapTail q) items [] := by
  constructor
  · exact placed.laid.write_other (Or.inl (le_refl _))
  · exact rfl
  · exact placed.first
  · exact placed.last

theorem wrapTail_stores (placed : Contiguous qs q items) (stores : Stores qs q items) :
    Stores qs (wrapTail q) (items ++ []) := by
  constructor
  · exact Layout.wrapped (wrapTail_wrapped placed)
  · simp [wrapTail, stores.free]
  · simp [wrapTail, stores.count]
  · exact stores.bound

theorem enqueueElt_wrapped (data : Data) (placed : Wrapped qs q front back)
    (stores : Stores qs q (front ++ back)) : enqueueElt qs data q =
      if eltSize qs data ≤ q.head - q.tail then .ok (true, pushElt qs data q)
      else .ok (false, q) := by
  have frontExtent := laid_extent placed.laidFront
  have backExtent := laid_extent placed.laidBack
  have used := @bytesOf_nonneg Data qs front
  have positive := @eltSize_pos Data qs data
  have apart := placed.apart
  have wall := placed.wall
  have free := stores.free
  rw [bytesOf_append] at free
  unfold enqueueElt
  by_cases full : q.IsFull
  · rw [if_pos full, if_neg]
    simp only [Queue.IsFull] at full
    omega
  · have below : q.tail < q.head := by
      simp only [Queue.IsFull] at full
      omega
    simp only [if_neg full, if_neg (show ¬ q.wall ≤ q.tail by omega), if_pos below]
    exact placeElt_eq (by omega)

theorem enqueueElt_contiguous (data : Data) (placed : Contiguous qs q items)
    (stores : Stores qs q items) : enqueueElt qs data q =
      if eltSize qs data ≤ q.bufEnd - q.tail then .ok (true, pushElt qs data q)
      else if q.IsFull then .ok (false, q)
      else if eltSize qs data ≤ q.head then .ok (true, pushElt qs data (wrapTail q))
      else .ok (false, wrapTail q) := by
  have extent := laid_extent placed.laid
  have used := @bytesOf_nonneg Data qs items
  have positive := @eltSize_pos Data qs data
  have first := placed.first
  have last := placed.last
  have free := stores.free
  have wallReset : (if q.wall ≤ q.tail then { q with wall := q.bufEnd } else q) = q := by
    split
    · exact congrArg (fun wall => { q with wall := wall }) placed.wall.symm
    · rfl
  by_cases full : q.IsFull
  · have isFull := full
    simp only [Queue.IsFull, placed.wall] at isFull
    rw [enqueueElt, if_pos full, if_neg (by omega), if_pos full]
  · unfold enqueueElt
    simp only [if_neg full, wallReset]
    rw [if_neg (show ¬ q.tail < q.head by omega)]
    by_cases room : q.spaceToEnd q.tail < eltSize qs data
    · have noRoom := room
      simp only [Queue.spaceToEnd] at noRoom
      rw [if_pos room, if_neg (show ¬ eltSize qs data ≤ q.bufEnd - q.tail by omega)]
      by_cases nowFull : (wrapTail q).IsFull
      · -- the head is at the start
        have atStart : q.head = 0 := by
          simp only [Queue.IsFull, wrapTail] at nowFull
          omega
        rw [if_pos nowFull, if_neg (show ¬ eltSize qs data ≤ q.head by omega)]
      · rw [if_neg nowFull]
        have below : (wrapTail q).tail < (wrapTail q).head := by
          simp only [Queue.IsFull, wrapTail] at nowFull ⊢
          omega
        rw [if_pos below, placeElt_eq (by simp only [wrapTail]; omega)]
        simp [wrapTail]
    · have fits := room
      simp only [Queue.spaceToEnd] at fits
      rw [if_neg room, if_pos (show eltSize qs data ≤ q.bufEnd - q.tail by omega),
        Queue.spaceToEnd, placeElt_eq (by omega),
        if_pos (show eltSize qs data ≤ q.bufEnd - q.tail by omega)]

theorem enqueueElt_spec (data : Data) (stores : Stores qs q items) :
    ∃ accepted next, enqueueElt qs data q = .ok (accepted, next) ∧
      Stores qs next (if accepted then items ++ [data] else items) := by
  cases stores.layout with
  | contiguous placed =>
    rw [enqueueElt_contiguous data placed stores]
    split
    · next fits =>
        exact ⟨true, _, rfl, pushElt_stores stores (.contiguous (pushElt_contiguous placed fits))⟩
    · split
      · exact ⟨false, q, rfl, stores⟩
      · have wrapped := wrapTail_wrapped placed
        have wrappedStores := wrapTail_stores placed stores
        rw [append_nil] at wrappedStores
        split
        · next fits =>
            refine ⟨true, _, rfl, pushElt_stores wrappedStores (.wrapped (pushElt_wrapped wrapped ?_))⟩
            simp only [wrapTail, sub_zero]
            exact fits
        · exact ⟨false, _, rfl, wrappedStores⟩
  | wrapped placed =>
    rw [enqueueElt_wrapped data placed stores]
    split
    · next fits =>
        refine ⟨true, _, rfl, pushElt_stores stores ?_⟩
        rw [append_assoc]
        exact .wrapped (pushElt_wrapped placed fits)
    · exact ⟨false, q, rfl, stores⟩

/-! ## Dequeueing -/

theorem isEmpty_iff (stores : Stores qs q items) : q.IsEmpty ↔ items = [] := by
  have free := stores.free
  unfold Queue.IsEmpty Queue.spaceToEnd
  constructor
  · intro empty
    apply @bytesOf_eq_zero Data qs
    omega
  · intro none
    rw [none, bytesOf_nil] at free
    omega

theorem popElt_stores (stores : Stores qs q (data :: items))
    (layout : Layout qs (popElt qs data q) items) : Stores qs (popElt qs data q) items where
  layout := layout
  free := by
    have free := stores.free
    rw [bytesOf_cons] at free
    simp only [popElt]
    omega
  count := by simp [popElt, stores.count]
  bound := stores.bound

theorem popElt_contiguous (placed : Contiguous qs q (data :: items)) :
    Contiguous qs (popElt qs data q) items := by
  obtain ⟨holds, rest⟩ := placed.laid
  rw [length_frame] at rest
  have positive := @eltSize_pos Data qs data
  have first := placed.first
  constructor
  · simp only [popElt]
    omega
  · apply rest.write_other
    simp
    omega
  · exact placed.last
  · exact placed.wall

theorem takeElt_contiguous (placed : Contiguous qs q (data :: items))
    (stores : Stores qs q (data :: items)) : takeElt qs q = .ok (some data, popElt qs data q) := by
  obtain ⟨holds, rest⟩ := placed.laid
  rw [length_frame] at rest
  have extent := laid_extent rest
  have used := @bytesOf_nonneg Data qs items
  have first := placed.first
  have last := placed.last
  have bound := stores.bound
  exact takeElt_eq holds (by omega)

theorem popElt_wrapped (placed : Wrapped qs q (data :: front) back) :
    Wrapped qs (popElt qs data q) front back := by
  obtain ⟨holds, rest⟩ := placed.laidFront
  rw [length_frame] at rest
  have positive := @eltSize_pos Data qs data
  have apart := placed.apart
  constructor
  · apply rest.write_other
    simp
    omega
  · exact placed.laidBack.write_other (Or.inl apart)
  · simp only [popElt]
    omega
  · exact placed.wall

theorem takeElt_wrapped (placed : Wrapped qs q (data :: front) back)
    (stores : Stores qs q (data :: front ++ back)) :
    takeElt qs q = .ok (some data, popElt qs data q) := by
  obtain ⟨holds, rest⟩ := placed.laidFront
  rw [length_frame] at rest
  have frontExtent := laid_extent rest
  have backExtent := laid_extent placed.laidBack
  have usedFront := @bytesOf_nonneg Data qs front
  have usedBack := @bytesOf_nonneg Data qs back
  have apart := placed.apart
  have wall := placed.wall
  have bound := stores.bound
  exact takeElt_eq holds (by omega)

theorem contiguous_of_head_at_wall (placed : Wrapped qs q [] back)
    (stores : Stores qs q ([] ++ back)) :
    Contiguous qs { q with head := 0, wall := q.bufEnd } back ∧
      Stores qs { q with head := 0, wall := q.bufEnd } back := by
  have frontExtent := laid_extent placed.laidFront
  have apart := placed.apart
  have wall := placed.wall
  rw [bytesOf_nil] at frontExtent
  have moved : Contiguous qs { q with head := 0, wall := q.bufEnd } back := by
    constructor
    · exact le_refl _
    · exact placed.laidBack
    · simp only
      omega
    · rfl
  exact ⟨moved, Layout.contiguous moved, stores.free, stores.count, stores.bound⟩

theorem dequeueElt_contiguous (placed : Contiguous qs q (data :: items))
    (stores : Stores qs q (data :: items)) :
    dequeueElt qs q = .ok (some data, popElt qs data q) := by
  have extent := laid_extent placed.laid
  have used := @bytesOf_nonneg Data qs items
  have positive := @eltSize_pos Data qs data
  have last := placed.last
  have wall := placed.wall
  rw [bytesOf_cons] at extent
  unfold dequeueElt
  rw [if_neg ((isEmpty_iff stores).not.mpr (by simp)), if_neg (by omega), if_neg (by omega)]
  exact takeElt_contiguous placed stores

theorem dequeueElt_wrapped (placed : Wrapped qs q front back) (stores : Stores qs q (front ++ back))
    (some_stored : front ++ back ≠ []) : ∃ data rest next, front ++ back = data :: rest ∧
      dequeueElt qs q = .ok (some data, next) ∧ Stores qs next rest := by
  have frontExtent := laid_extent placed.laidFront
  have used := @bytesOf_nonneg Data qs front
  unfold dequeueElt
  rw [if_neg ((isEmpty_iff stores).not.mpr some_stored), if_neg (by omega)]
  cases front with
  | nil =>
    rw [bytesOf_nil] at frontExtent
    rw [if_pos (by omega)]
    obtain ⟨moved, movedStores⟩ := contiguous_of_head_at_wall placed stores
    cases back with
    | nil => exact absurd rfl some_stored
    | cons data rest =>
      exact ⟨data, rest, _, rfl, takeElt_contiguous moved movedStores,
        popElt_stores movedStores (.contiguous (popElt_contiguous moved))⟩
  | cons data front =>
    have positive := @eltSize_pos Data qs data
    have usedRest := @bytesOf_nonneg Data qs front
    rw [bytesOf_cons] at frontExtent
    rw [if_neg (by omega)]
    exact ⟨data, front ++ back, _, rfl, takeElt_wrapped placed stores,
      popElt_stores stores (.wrapped (popElt_wrapped placed))⟩

theorem dequeueElt_spec (stores : Stores qs q items) :
    ∃ found next rest, dequeueElt qs q = .ok (found, next) ∧ Stores qs next rest ∧
      FifoEvent.Step items (dequeueEvent found) rest := by
  by_cases none_stored : items = []
  · refine ⟨none, q, items, ?_, stores, ?_⟩
    · unfold dequeueElt
      rw [if_pos ((isEmpty_iff stores).mpr none_stored)]
    · rw [none_stored]
      exact FifoEvent.Step.nothing
  · cases stores.layout with
    | contiguous placed =>
      cases items with
      | nil => exact absurd rfl none_stored
      | cons data rest =>
        exact ⟨some data, _, rest, dequeueElt_contiguous placed stores,
          popElt_stores stores (.contiguous (popElt_contiguous placed)), .removed data rest⟩
    | wrapped placed =>
      obtain ⟨data, rest, next, split, taken, after⟩ := dequeueElt_wrapped placed stores none_stored
      rw [split]
      exact ⟨some data, next, rest, taken, after, .removed data rest⟩

/-! ## Regions -/

/-- The stored items, oldest first, occupy the given address ranges, which do not
overlap and lie between the start of the buffer and the wall. -/
structure Placed (qs : QueueSerializer Data) (q : Queue) (items : List Data)
    (regions : List (Int × Int)) : Prop where
  stored : List.Forall₂ (fun item region => region.2 = region.1 + eltSize qs item ∧
    q.mem.Holds region.1 (frame qs item)) items regions
  apart : regions.Pairwise fun left right => left.2 ≤ right.1 ∨ right.2 ≤ left.1
  inside : ∀ region ∈ regions, 0 ≤ region.1 ∧ region.2 ≤ q.wall
  wall : q.wall ≤ q.bufEnd

theorem laid_regions (laid : mem.Laid first (items.map (frame qs)) last) :
    ∃ regions : List (Int × Int),
      List.Forall₂ (fun item region => region.2 = region.1 + eltSize qs item ∧
        mem.Holds region.1 (frame qs item)) items regions ∧
      regions.Pairwise (fun left right => left.2 ≤ right.1 ∨ right.2 ≤ left.1) ∧
      ∀ region ∈ regions, first ≤ region.1 ∧ region.2 ≤ last := by
  induction items generalizing first with
  | nil => exact ⟨[], .nil, .nil, by simp⟩
  | cons data items ih =>
    have positive := @eltSize_pos Data qs data
    obtain ⟨holds, rest⟩ := laid
    rw [length_frame] at rest
    have extent := laid_extent rest
    have used := @bytesOf_nonneg Data qs items
    obtain ⟨regions, stored, apart, inside⟩ := ih rest
    refine ⟨(first, first + eltSize qs data) :: regions, ?_, ?_, ?_⟩
    · exact .cons ⟨rfl, holds⟩ stored
    · refine pairwise_cons.mpr ⟨?_, apart⟩
      intro region member
      exact Or.inl (inside region member).1
    · intro region member
      cases member with
      | head => exact ⟨le_refl _, by simp only; omega⟩
      | tail _ member =>
        have := inside region member
        omega

theorem Stores.placed (stores : Stores qs q items) : ∃ regions, Placed qs q items regions := by
  cases stores.layout with
  | contiguous placed =>
    have first := placed.first
    obtain ⟨regions, stored, apart, inside⟩ := laid_regions placed.laid
    refine ⟨regions, stored, apart, ?_, le_of_eq placed.wall⟩
    intro region member
    have within := inside region member
    have last := placed.last
    rw [placed.wall]
    omega
  | wrapped placed =>
    have frontExtent := laid_extent placed.laidFront
    have backExtent := laid_extent placed.laidBack
    have separated := placed.apart
    obtain ⟨frontRegions, frontStored, frontApart, frontInside⟩ := laid_regions placed.laidFront
    obtain ⟨backRegions, backStored, backApart, backInside⟩ := laid_regions placed.laidBack
    rename_i front back
    have usedFront := @bytesOf_nonneg Data qs front
    have usedBack := @bytesOf_nonneg Data qs back
    refine ⟨frontRegions ++ backRegions, ?_, ?_, ?_, placed.wall⟩
    · exact rel_append frontStored backStored
    · refine pairwise_append.mpr ⟨frontApart, backApart, ?_⟩
      intro left leftMember right rightMember
      have := frontInside left leftMember
      have := backInside right rightMember
      omega
    · intro region member
      cases mem_append.mp member with
      | inl member =>
        have := frontInside region member
        omega
      | inr member =>
        have := backInside region member
        omega

/-! ## Runs -/

def opOf : FifoEvent Data → QueueOp Data
  | .accepted data | .refused data => .enqueue data
  | .removed _ | .nothing => .dequeue

theorem queueStep_spec (op : QueueOp Data) (stores : Stores qs q items) :
    ∃ event next after, queueStep qs q op = ([event], .ok next) ∧
      opOf event = op ∧ FifoEvent.Step items event after ∧ Stores qs next after := by
  cases op with
  | enqueue data =>
    obtain ⟨accepted, next, enqueued, after⟩ := enqueueElt_spec data stores
    simp only [queueStep, enqueued]
    cases accepted with
    | false => exact ⟨_, next, items, rfl, rfl, .refused items data, after⟩
    | true =>
      exact ⟨_, next, items ++ [data], rfl, rfl, .accepted items data, after⟩
  | dequeue =>
    obtain ⟨found, next, rest, dequeued, after, step⟩ := dequeueElt_spec stores
    simp only [queueStep, dequeued]
    refine ⟨_, next, rest, rfl, ?_, step, after⟩
    cases found <;> rfl

theorem bufEnd_queueStep {q next : Queue} {op : QueueOp Data} {events : List (FifoEvent Data)}
    (stepped : queueStep qs q op = (events, .ok next)) : next.bufEnd = q.bufEnd := by
  cases op with
  | enqueue data =>
    simp only [queueStep, enqueueElt, placeElt, wrapTail] at stepped
    grind
  | dequeue =>
    simp only [queueStep, dequeueElt, takeElt] at stepped
    grind

theorem makeQueue_stores {sizeofQueue : Nat} {size : Int} {q : Queue}
    (made : makeQueue sizeofQueue size = .ok (some q)) :
    Stores qs q [] ∧ q.bufEnd = size - sizeofQueue := by
  unfold makeQueue at made
  by_cases small : 0 ≤ size ∧ size < sizeofQueue
  · simp [small] at made
  · rw [if_neg small] at made
    by_cases valid : 0 < size ∧ size ≤ maxAllocSize
    · rw [if_neg (not_not.mpr valid)] at made
      cases made
      refine ⟨⟨Layout.contiguous ⟨le_refl _, rfl, ?_, rfl⟩, ?_, rfl, ?_⟩, rfl⟩
      · simp only
        omega
      · simp
      · simp only
        omega
    · simp [valid] at made

def RunStores (qs : QueueSerializer Data) (bufEnd : Int) (ops : List (QueueOp Data))
    (events : List (FifoEvent Data)) (q : Queue) : Prop :=
  ∃ items, events.map opOf = ops ∧ FifoEvent.Trace [] events items ∧
    Stores qs q items ∧ q.bufEnd = bufEnd

theorem queueMachine_step_spec {bufEnd : Int} {ops : List (QueueOp Data)}
    {events : List (FifoEvent Data)} (op : QueueOp Data) (inv : RunStores qs bufEnd ops events q) :
    ∃ emitted next, (queueMachine qs).step q op = (emitted, .ok next) ∧
      RunStores qs bufEnd (ops ++ [op]) (events ++ emitted) next := by
  obtain ⟨items, answered, trace, stores, atEnd⟩ := inv
  obtain ⟨event, next, after, stepped, answers, step, storesNext⟩ := queueStep_spec op stores
  refine ⟨[event], next, stepped, after, ?_, trace.snoc step, storesNext, ?_⟩
  · simp [answered, answers]
  · rw [bufEnd_queueStep stepped, atEnd]

/-- Every run of enqueues and dequeues on a fresh queue completes and follows the
abstract first-in first-out queue.  What the abstract queue holds at the end lies in
the buffer byte for byte, in ranges that do not overlap and do not cross the wall,
and the counters agree with it. -/
theorem queue_refines_fifo (qs : QueueSerializer Data) (sizeofQueue : Nat)
    (size : Int) (q : Queue) (made : makeQueue sizeofQueue size = .ok (some q))
    (ops : List (QueueOp Data)) :
    ∃ events final items regions,
      (queueMachine qs).run q ops = (events, .ok final) ∧
      events.map opOf = ops ∧
      FifoEvent.Trace [] events items ∧
      events.filterMap FifoEvent.acceptedItem? =
        events.filterMap FifoEvent.removedItem? ++ items ∧
      Placed qs final items regions ∧
      final.bufEnd = size - sizeofQueue ∧
      final.bytesfree = final.bufEnd - bytesOf qs items ∧
      final.numelts = items.length := by
  obtain ⟨fresh, freshEnd⟩ := @makeQueue_stores Data qs sizeofQueue size q made
  have init : RunStores qs (size - sizeofQueue) [] [] q :=
    ⟨[], rfl, .nil [], fresh, freshEnd⟩
  obtain ⟨events, final, ran, items, answered, trace, stores, finalEnd⟩ :=
    (queueMachine qs).run_always
      (fun _ op _ _ inv => queueMachine_step_spec op inv) init ops
  obtain ⟨regions, placed⟩ := stores.placed
  exact ⟨events, final, items, regions, ran, answered, trace, trace.accepted_eq,
    placed, finalEnd, stores.free, stores.count⟩

/-- A queue of 100 buffer bytes. -/
theorem queue_of_hundred_bytes :
    ∃ q, makeQueue 52 152 = .ok (some q) ∧
      ∃ events final items regions,
        (queueMachine pointerSerializer).run q [.enqueue 7, .dequeue] =
          (events, .ok final) ∧
        events.map opOf = [.enqueue 7, .dequeue] ∧
        FifoEvent.Trace [] events items ∧
        events.filterMap FifoEvent.acceptedItem? =
          events.filterMap FifoEvent.removedItem? ++ items ∧
        Placed pointerSerializer final items regions ∧
        final.bufEnd = 152 - (52 : Nat) ∧
        final.bytesfree = final.bufEnd - bytesOf pointerSerializer items ∧
        final.numelts = items.length :=
  ⟨_, rfl, queue_refines_fifo pointerSerializer 52 152 _ rfl [.enqueue 7, .dequeue]⟩

end TelegraphCQ.ResultQueue
