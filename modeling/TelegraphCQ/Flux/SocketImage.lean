import TelegraphCQ.Flux.SocketTrans
import TelegraphCQ.ResultQueue.QueueCorrect

/-!
# A queue survives its transfer

The head of the sender's queue never leaves the start of the buffer.  Its elements end at the
tail or, after an insertion was refused, at the wall.  The queue that the receiver finds in the
bytes of either has the same elements.
-/

namespace TelegraphCQ.Flux

open Foundation ResultQueue List

variable {Data : Type} {qs : QueueSerializer Data} {memory : QueueMemory}

/-! ## Reading the memory of a queue -/

structure InBuffer (memory : QueueMemory) (q : Queue) : Prop where
  size : q.bufEnd = (memory.size : Int) - sizeofQueue
  head : 0 ≤ q.head ∧ q.head ≤ q.bufEnd
  tail : 0 ≤ q.tail ∧ q.tail ≤ q.bufEnd
  wall : 0 ≤ q.wall ∧ q.wall ≤ q.bufEnd
  free : 0 ≤ q.bytesfree ∧ q.bytesfree ≤ q.bufEnd
  count : 0 ≤ q.numelts ∧ q.numelts ≤ q.bufEnd

theorem length_queueWords (q : Queue) :
    ((queueWords memory q).flatMap (Memory.wordBytes 4)).length = 40 := by
  simp [queueWords]

variable {q : Queue} {other : Memory} {items : List Data}

theorem length_queueImage (size : q.bufEnd = (memory.size : Int) - sizeofQueue) :
    (queueImage memory q).length = memory.size := by
  have room := memory.room
  simp only [sizeofQueue] at size room
  simp only [queueImage, length_append, length_queueWords, length_ofFn, Memory.length_readBytes]
  omega

theorem imageWord_queueImage (q : Queue) {index value : Nat}
    (word_at : (queueWords memory q)[index]? = some value) :
    imageWord (queueImage memory q) index = value % 256 ^ 4 := by
  have holds := (Memory.holds_append.mp (Memory.holds_ofBytes (queueImage memory q))).1
  have word := Memory.holds_word holds word_at
  rw [Int.zero_add] at word
  exact Memory.readWord_of_holds word

theorem cInt_word {value : Int} (nonneg : 0 ≤ value) (small : value ≤ maxAllocSize) :
    cInt (value.toNat % 256 ^ 4 : Nat) = value := by
  simp only [maxAllocSize] at small
  have within : value.toNat % 256 ^ 4 = value.toNat := Nat.mod_eq_of_lt (by omega)
  rw [within, cInt, Int.bmod_eq_of_le (by omega) (by omega)]
  omega

theorem relocate_queueImage (inBuffer : InBuffer memory q) : relocate (queueImage memory q) =
      { q with mem := (Memory.ofBytes (queueImage memory q)).view sizeofQueue } := by
  obtain ⟨size, head, tail, wall, free, count⟩ := inBuffer
  have room := memory.room
  have allocated := memory.allocated
  have addressed := memory.addressed
  simp only [sizeofQueue] at size room
  -- a pointer is sent as an address, and all addresses of the queue fit a word
  have pointer : ∀ {index : Nat} {offset : Int}, 0 ≤ offset ∧ offset ≤ q.bufEnd →
      (queueWords memory q)[index]? = some (memory.address + sizeofQueue + offset.toNat) →
      (imageWord (queueImage memory q) index : Int) - imageWord (queueImage memory q) 2 =
        offset := by
    intro index offset range word_at
    rw [imageWord_queueImage q word_at, @imageWord_queueImage memory q 2 _ rfl]
    simp only [sizeofQueue]
    omega
  rw [relocate, pointer ⟨by omega, le_refl q.bufEnd⟩ rfl, pointer head rfl, pointer tail rfl,
    pointer wall rfl, @imageWord_queueImage memory q 8 _ rfl,
    @imageWord_queueImage memory q 9 _ rfl, cInt_word free.1 (by omega),
    cInt_word count.1 (by omega)]

theorem relocated_agrees {q : Queue} {addr : Int} (first : 0 ≤ addr) (last : addr < q.bufEnd) :
    (Memory.ofBytes (queueImage memory q)).view sizeofQueue addr = q.mem addr := by
  have holds := Memory.holds_ofBytes (queueImage memory q)
  rw [queueImage, Memory.holds_append, Memory.holds_append] at holds
  have buffer := holds.2.2 addr.toNat (by rw [Memory.length_readBytes]; omega)
  have place : 0 + ((List.flatMap (Memory.wordBytes 4) (queueWords memory q)).length : Int) +
      ((List.ofFn (memory.statistics q)).length : Int) + (addr.toNat : Int) =
        sizeofQueue + addr := by
    rw [length_queueWords, length_ofFn]
    simp only [sizeofQueue]
    omega
  rw [place] at buffer
  rw [Memory.view, queueImage, buffer]
  simp only [Memory.readBytes, getElem_map, getElem_range]
  congr 1
  omega

theorem wrapped_of_agree {front back : List Data} (placed : Wrapped qs q front back)
    (agree : ∀ addr, 0 ≤ addr → addr < q.bufEnd → other addr = q.mem addr) :
    Wrapped qs { q with mem := other } front back := by
  have extent := laid_extent placed.laidFront
  have backExtent := laid_extent placed.laidBack
  have used := @bytesOf_nonneg Data qs front
  have backUsed := @bytesOf_nonneg Data qs back
  have apart := placed.apart
  have wall := placed.wall
  refine ⟨placed.laidFront.of_agree fun addr after before => ?_,
    placed.laidBack.of_agree fun addr after before => ?_, apart, wall⟩
  · exact agree addr (by omega) (by omega)
  · exact agree addr (by omega) (by omega)

theorem stores_of_agree (stores : Stores qs q items)
    (agree : ∀ addr, 0 ≤ addr → addr < q.bufEnd → other addr = q.mem addr) :
    Stores qs { q with mem := other } items := by
  refine ⟨?_, stores.free, stores.count, stores.bound⟩
  cases stores.layout with
  | contiguous placed =>
    have first := placed.first
    have last := placed.last
    refine .contiguous ⟨first, placed.laid.of_agree fun addr after before => ?_, last, placed.wall⟩
    exact agree addr (by omega) (by omega)
  | wrapped placed => exact .wrapped (wrapped_of_agree placed agree)

theorem length_le_bytesOf (items : List Data) : (items.length : Int) ≤ bytesOf qs items := by
  induction items with
  | nil => simp
  | cons data items ih =>
    have positive := @eltSize_pos Data qs data
    rw [bytesOf_cons, length_cons]
    push_cast
    omega

theorem stores_inBuffer (stores : Stores qs q items)
    (size : q.bufEnd = (memory.size : Int) - sizeofQueue) : InBuffer memory q := by
  have free := stores.free
  have count := stores.count
  have few := @length_le_bytesOf Data qs items
  have used := @bytesOf_nonneg Data qs items
  cases stores.layout with
  | contiguous placed =>
    have extent := laid_extent placed.laid
    have first := placed.first
    have last := placed.last
    have wall := placed.wall
    exact ⟨size, by omega, by omega, by omega, by omega, by omega⟩
  | @wrapped front back placed =>
    have frontExtent := laid_extent placed.laidFront
    have backExtent := laid_extent placed.laidBack
    have frontUsed := @bytesOf_nonneg Data qs front
    have backUsed := @bytesOf_nonneg Data qs back
    have apart := placed.apart
    have wall := placed.wall
    rw [bytesOf_append] at free few
    exact ⟨size, by omega, by omega, by omega, by omega, by omega⟩

/-! ## The sender's queue -/

structure Filling (qs : QueueSerializer Data) (memory : QueueMemory) (q : Queue)
    (items : List Data) : Prop where
  placed : Contiguous qs q items
  stores : Stores qs q items
  head : q.head = 0
  size : q.bufEnd = (memory.size : Int) - sizeofQueue

/-- Also the queue that a refused insertion leaves behind. -/
structure Gathered (qs : QueueSerializer Data) (memory : QueueMemory) (q : Queue)
    (items : List Data) : Prop where
  stores : Stores qs q items
  head : q.head = 0
  size : q.bufEnd = (memory.size : Int) - sizeofQueue
  last : q.tail = bytesOf qs items ∧ q.wall = q.bufEnd ∨ q.tail = 0 ∧ q.wall = bytesOf qs items
  fits : bytesOf qs items ≤ q.bufEnd

theorem Filling.tail (filling : Filling qs memory q items) : q.tail = bytesOf qs items := by
  have extent := laid_extent filling.placed.laid
  have head := filling.head
  omega

theorem Filling.gathered (filling : Filling qs memory q items) : Gathered qs memory q items := by
  have last := filling.placed.last
  rw [filling.tail] at last
  exact ⟨filling.stores, filling.head, filling.size, .inl ⟨filling.tail, filling.placed.wall⟩, last⟩

theorem emptyQueue_filling : Filling qs memory (emptyQueue memory) [] := by
  have room := memory.room
  have allocated := memory.allocated
  simp only [sizeofQueue] at room
  have placed : Contiguous qs (emptyQueue memory) [] := by
    refine ⟨le_refl _, rfl, ?_, rfl⟩
    simp only [emptyQueue, sizeofQueue]
    omega
  refine ⟨placed, ⟨.contiguous placed, ?_, rfl, ?_⟩, rfl, rfl⟩
  · simp [emptyQueue]
  · simp only [emptyQueue, sizeofQueue]
    omega

theorem clearQueue_filling (gathered : Gathered qs memory q items) :
    Filling qs memory (clearQueue q) [] := by
  have nonneg := @bytesOf_nonneg Data qs items
  have fits := gathered.fits
  have placed : Contiguous qs (clearQueue q) [] :=
    ⟨le_refl _, rfl, by simp only [clearQueue]; omega, rfl⟩
  exact ⟨placed, ⟨.contiguous placed, by simp [clearQueue], rfl, gathered.stores.bound⟩, rfl,
    gathered.size⟩

theorem placeElt_filling {data : Data} (filling : Filling qs memory q items)
    (room : ¬ q.spaceToEnd q.tail < eltSize qs data) :
    ∃ next, placeElt qs data (q.spaceToEnd q.tail) q = .ok (true, next) ∧
      Filling qs memory next (items ++ [data]) := by
  have tail := filling.tail
  have free := filling.stores.free
  have fits := room
  simp only [Queue.spaceToEnd] at fits
  rw [placeElt, if_neg room, if_neg (by omega)]
  refine ⟨_, rfl, ?_⟩
  have placed : Contiguous qs
      { q with
        mem := storeElt qs data q.tail q.mem
        tail := q.tail + eltSize qs data
        numelts := q.numelts + 1
        bytesfree := q.bytesfree - eltSize qs data } (items ++ [data]) := by
    refine ⟨filling.placed.first, ?_, ?_, filling.placed.wall⟩
    · exact laid_concat (laid_storeElt filling.placed.laid (.inl (le_refl _)))
        (holds_storeElt data q.tail q.mem)
    · simp only
      omega
  refine ⟨placed, ⟨.contiguous placed, ?_, ?_, filling.stores.bound⟩, filling.head, filling.size⟩
  · simp only [bytesOf_append, bytesOf_cons, bytesOf_nil]
    omega
  · simp [filling.stores.count]

theorem wrapTail_gathered (filling : Filling qs memory q items) :
    (wrapTail q).IsFull ∧ Gathered qs memory (wrapTail q) items := by
  have tail := filling.tail
  have free := filling.stores.free
  have last := filling.placed.last
  constructor
  · simp only [Queue.IsFull, wrapTail]
    omega
  · refine ⟨?_, filling.head, filling.size, .inr ⟨rfl, tail⟩, ?_⟩
    · simpa using wrapTail_stores filling.placed filling.stores
    · simp only [wrapTail]
      omega

theorem enqueue_filling (data : Data) (filling : Filling qs memory q items) :
    ∃ accepted next, enqueue qs data q = .ok (accepted, next) ∧
      (accepted = true ∧ Filling qs memory next (items ++ [data]) ∨
        accepted = false ∧ Gathered qs memory next items) := by
  have room := memory.room
  have size := filling.size
  have head := filling.head
  have tail := filling.tail
  have used := @bytesOf_nonneg Data qs items
  have wallReset : (if q.wall ≤ q.tail then { q with wall := q.bufEnd } else q) = q := by
    split
    · exact congrArg (fun wall => { q with wall := wall }) filling.placed.wall.symm
    · rfl
  simp only [sizeofQueue] at room size
  rw [enqueue, if_neg (by simp only [qhdrsz]; omega), enqueueElt]
  by_cases full : q.IsFull
  · rw [if_pos full]
    exact ⟨false, q, rfl, .inr ⟨rfl, filling.gathered⟩⟩
  · simp only [if_neg full, wallReset]
    rw [if_neg (show ¬ q.tail < q.head by omega)]
    by_cases short : q.spaceToEnd q.tail < eltSize qs data
    · obtain ⟨nowFull, gathered⟩ := wrapTail_gathered filling
      rw [if_pos short, if_pos nowFull]
      exact ⟨false, wrapTail q, rfl, .inr ⟨rfl, gathered⟩⟩
    · obtain ⟨next, placed, after⟩ := placeElt_filling filling short
      rw [if_neg short, placed]
      exact ⟨true, next, rfl, .inl ⟨rfl, after⟩⟩

/-! ## What the receiver finds -/

theorem checkFree_gathered (gathered : Gathered qs memory q items) :
    checkFree { q with mem := other } = .ok { q with mem := other } := by
  obtain ⟨stores, head, size, last, fits⟩ := gathered
  have free := stores.free
  have used := @bytesOf_nonneg Data qs items
  rw [checkFree]
  rcases last with ⟨tail, wall⟩ | ⟨tail, wall⟩
  · by_cases atStart : q.tail = q.head
    · have empty : ({ q with mem := other } : Queue).IsEmpty := by
        simp only [Queue.IsEmpty, Queue.spaceToEnd]
        omega
      rw [if_pos atStart, if_pos (.inl empty)]
    · rw [if_neg atStart, if_neg (by simp only; omega), if_pos (by simp only; omega)]
  · have full : ({ q with mem := other } : Queue).IsFull := by
      simp only [Queue.IsFull]
      omega
    rw [if_pos (by simp only; omega), if_pos (.inr full)]

theorem swizzleQueuePtrs_queueImage (gathered : Gathered qs memory q items) :
    ∃ received, swizzleQueuePtrs (queueImage memory q) = .ok received ∧
      Stores qs received items := by
  refine ⟨_, ?_, stores_of_agree gathered.stores fun addr first last =>
    @relocated_agrees memory q addr first last⟩
  have sameHead : ∀ other : Memory,
      (if q.head = q.wall then { q with mem := other, head := 0 } else { q with mem := other }) =
        { q with mem := other } := by
    intro other
    split
    · exact congrArg (fun head => { q with mem := other, head := head }) gathered.head.symm
    · rfl
  rw [swizzleQueuePtrs, relocate_queueImage (stores_inBuffer gathered.stores gathered.size)]
  simp only
  rw [sameHead]
  exact checkFree_gathered gathered

end TelegraphCQ.Flux
