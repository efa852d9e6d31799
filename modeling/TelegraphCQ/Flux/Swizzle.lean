import TelegraphCQ.Flux.SocketImage
import TelegraphCQ.ResultQueue.Alike

/-!
# The pointers of a received queue

`swizzle_queue_ptrs` for every queue that may be sent.  It takes a head at the wall back to the
start but leaves the wall, and for a tail before the head it compares the free bytes with those in
use.
-/

namespace TelegraphCQ.Flux

open Foundation ResultQueue

variable {Data : Type} {qs : QueueSerializer Data} {memory : QueueMemory}

def Relocates (qs : QueueSerializer Data) (q : Queue) : Prop :=
  (q.head ≠ q.wall ∧ (q.tail < q.head → q.bufEnd = 2 * (q.wall - q.head + q.tail))) ∨
    (q.head = q.wall ∧ (q.tail = 0 ∨ q.wall = q.bufEnd ∧ q.numelts ≠ 0) ∧
      Undecided qs q.wall q.bufEnd q.tail)

variable {q : Queue} {items : List Data}

theorem checkFree_iff {received : Queue} (stores : Stores qs q items) : checkFree q = .ok received ↔
      q = received ∧ (q.tail < q.head → q.bufEnd = 2 * (q.wall - q.head + q.tail)) := by
  have free := stores.free
  unfold checkFree Queue.IsEmpty Queue.IsFull Queue.spaceToEnd
  cases stores.layout with
  | contiguous placed =>
    have extent := laid_extent placed.laid
    have used := @bytesOf_nonneg Data qs items
    have wall := placed.wall
    by_cases same : q.tail = q.head
    · rw [if_pos same, if_pos (by omega), Except.ok.injEq]
      exact ⟨fun received => ⟨received, fun wrapped => by omega⟩, fun passes => passes.1⟩
    · rw [if_neg same, if_neg (by omega), if_pos (by omega), Except.ok.injEq]
      exact ⟨fun received => ⟨received, fun wrapped => by omega⟩, fun passes => passes.1⟩
  | @wrapped front back placed =>
    have frontExtent := laid_extent placed.laidFront
    have backExtent := laid_extent placed.laidBack
    have apart := placed.apart
    rw [bytesOf_append] at free
    by_cases same : q.tail = q.head
    · rw [if_pos same, if_pos (by omega), Except.ok.injEq]
      exact ⟨fun received => ⟨received, fun wrapped => by omega⟩, fun passes => passes.1⟩
    · rw [if_neg same, if_pos (by omega)]
      by_cases half : q.bytesfree = (q.wall - q.head) + q.tail
      · rw [if_pos half, Except.ok.injEq]
        exact ⟨fun received => ⟨received, fun _ => by omega⟩, fun passes => passes.1⟩
      · rw [if_neg half]
        exact ⟨nofun, fun passes => absurd (passes.2 (by omega)) (by omega)⟩

theorem checkFree_atWall {received : Queue} (atWall : AtWall qs q items) :
    checkFree { q with head := 0 } = .ok received ↔
      { q with head := 0 } = received ∧ (q.tail = 0 ∨ q.wall = q.bufEnd ∧ q.numelts ≠ 0) := by
  obtain ⟨head, tail, inside, wall, free⟩ := atWall.extent
  have used := @bytesOf_nonneg Data qs items
  have count := atWall.stores.count
  have some_stored : q.tail ≠ 0 → q.numelts ≠ 0 := by
    intro filled none_stored
    obtain rfl : items = [] := List.length_eq_zero_iff.mp (by omega)
    rw [bytesOf_nil] at tail
    exact filled tail
  unfold checkFree Queue.IsEmpty Queue.IsFull Queue.spaceToEnd
  by_cases same : q.tail = 0
  · rw [if_pos same, if_pos (by simp only; omega), Except.ok.injEq]
    exact ⟨fun received => ⟨received, .inl same⟩, fun passes => passes.1⟩
  · rw [if_neg same, if_neg (by simp only; omega)]
    by_cases atEnd : q.wall = q.bufEnd
    · rw [if_pos (by simp only; omega), Except.ok.injEq]
      exact ⟨fun received => ⟨received, .inr ⟨atEnd, some_stored same⟩⟩, fun passes => passes.1⟩
    · rw [if_neg (by simp only; omega)]
      exact ⟨nofun, fun passes => by omega⟩

def received (memory : QueueMemory) (q : Queue) : Queue :=
  { q with mem := (Memory.ofBytes (queueImage memory q)).view sizeofQueue }

theorem swizzleQueuePtrs_eq (stores : Stores qs q items)
    (size : q.bufEnd = (memory.size : Int) - sizeofQueue) : swizzleQueuePtrs (queueImage memory q) =
      checkFree (if q.head = q.wall then { received memory q with head := 0 }
        else received memory q) := by
  rw [swizzleQueuePtrs, relocate_queueImage (stores_inBuffer stores size)]
  rfl

theorem received_stores {q : Queue} {items : List Data} (stores : Stores qs q items) :
    Stores qs (received memory q) items ∧ Alike qs (received memory q) q := by
  have storesToo : Stores qs (received memory q) items :=
    stores_of_agree stores fun addr first last => @relocated_agrees memory q addr first last
  exact ⟨storesToo, SamePlaces.alike ⟨⟨items, storesToo, stores⟩, rfl⟩⟩

theorem received_atWall {q : Queue} {items : List Data} (atWall : AtWall qs q items) :
    AtWall qs (received memory q) items :=
  ⟨wrapped_of_agree atWall.placed fun addr first last => @relocated_agrees memory q addr first last,
    (received_stores atWall.stores).1⟩

theorem relocates_atWall_iff (atWall : AtWall qs q items) :
    (∃ found, checkFree { received memory q with head := 0 } = .ok found ∧
      ∀ later, ((queueMachine qs).run found later).1 = ((queueMachine qs).run q later).1) ↔
        Relocates qs q := by
  have head := atWall.extent.1
  have alike := (@received_stores Data qs memory q items atWall.stores).2
  have atWallToo := @received_atWall Data qs memory q items atWall
  constructor
  · rintro ⟨found, passes, same⟩
    obtain ⟨rfl, place⟩ := (checkFree_atWall atWallToo).mp passes
    exact .inr ⟨head, place, atWallToo.alike_iff.mp fun later =>
      (alike.same later).trans (same later).symm⟩
  · rintro (⟨notAtWall, -⟩ | ⟨-, place, undecided⟩)
    · exact absurd head notAtWall
    · exact ⟨_, (checkFree_atWall atWallToo).mpr ⟨rfl, place⟩, fun later =>
        (atWallToo.alike_iff.mpr undecided later).symm.trans (alike.same later)⟩

theorem not_relocates_at_end {q : Queue} (filled : 0 < q.bufEnd) (head : q.head = q.bufEnd)
    (tail : q.tail = q.bufEnd) (wall : q.wall = q.bufEnd) (free : q.bytesfree = q.bufEnd)
    (empty : q.numelts = 0) :
    checkFree { received memory q with head := 0 } = .error .assertion ∧ ¬ Relocates qs q := by
  constructor
  · rw [checkFree, if_neg (by simp only [received]; omega), if_neg (by simp only [received]; omega),
      if_neg (by simp only [received]; omega)]
  · rintro (⟨notAtWall, -⟩ | ⟨-, (atStart | ⟨-, some_stored⟩), -⟩)
    · exact notAtWall (head.trans wall.symm)
    · omega
    · exact some_stored empty

theorem relocates_iff (stores : Stores qs q items)
    (size : q.bufEnd = (memory.size : Int) - sizeofQueue) :
    (∃ found, swizzleQueuePtrs (queueImage memory q) = .ok found ∧
      ∀ later, ((queueMachine qs).run found later).1 = ((queueMachine qs).run q later).1) ↔
        Relocates qs q := by
  obtain ⟨storesToo, alike⟩ := @received_stores Data qs memory q items stores
  have room := memory.room
  simp only [sizeofQueue] at room size
  rw [swizzleQueuePtrs_eq stores size]
  by_cases head : q.head = q.wall
  · rw [if_pos head]
    cases stores.layout with
    | contiguous placed =>
      have extent := laid_extent placed.laid
      have used := @bytesOf_nonneg Data qs items
      have last := placed.last
      have wall := placed.wall
      have free := stores.free
      obtain rfl : items = [] := @bytesOf_eq_zero Data qs items (by omega)
      obtain ⟨fails, not_relocates⟩ := @not_relocates_at_end Data qs memory q (by omega)
        (by omega) (by omega) wall (by omega) stores.count
      rw [fails]
      exact ⟨fun passes => by simp at passes, fun relocates => absurd relocates not_relocates⟩
    | @wrapped front back placed =>
      have extent := laid_extent placed.laidFront
      obtain rfl : front = [] := @bytesOf_eq_zero Data qs front (by omega)
      exact relocates_atWall_iff ⟨placed, stores⟩
  · rw [if_neg head]
    constructor
    · rintro ⟨found, passes, -⟩
      exact .inl ⟨head, ((checkFree_iff storesToo).mp passes).2⟩
    · rintro (⟨-, half⟩ | ⟨atWall, -⟩)
      · exact ⟨_, (checkFree_iff storesToo).mpr ⟨rfl, half⟩, alike.same⟩
      · exact absurd atWall head

/-- For every queue that was made and used, its memory passes the check of the receiver, and the
receiver's queue then answers every later sequence of operations as the sender's would, just when
the positions of head, tail and wall allow it. -/
theorem received_alike_iff (qs : QueueSerializer Data) (memory : QueueMemory)
    (ops : List (QueueOp Data)) :
    ∃ q events final, makeQueue sizeofQueue memory.size = .ok (some q) ∧
      (queueMachine qs).run q ops = (events, .ok final) ∧
      ((∃ found, swizzleQueuePtrs (queueImage memory final) = .ok found ∧
        ∀ later, ((queueMachine qs).run found later).1 = ((queueMachine qs).run final later).1) ↔
          Relocates qs final) := by
  have room := memory.room
  have allocated := memory.allocated
  obtain ⟨q, made⟩ : ∃ q, makeQueue sizeofQueue memory.size = .ok (some q) := by
    simp only [sizeofQueue] at room ⊢
    rw [makeQueue, if_neg (by omega), if_neg (by omega)]
    exact ⟨_, rfl⟩
  obtain ⟨fresh, size⟩ := @makeQueue_stores Data qs _ _ q made
  obtain ⟨events, final, items, ran, stores⟩ := run_stores fresh ops
  have sameEnd : final.bufEnd = q.bufEnd := by
    have step : ∀ (state : Queue) (op : QueueOp Data) (next : Queue), state.bufEnd = q.bufEnd →
        ((queueMachine qs).step state op).2 = .ok next → next.bufEnd = q.bufEnd :=
      fun state op next same stepped =>
        (@bufEnd_queueStep Data qs _ _ op _ (Prod.ext rfl stepped)).trans same
    exact @Machine.run_keeps _ _ _ _ (queueMachine qs) (fun next => next.bufEnd = q.bufEnd) step
      _ _ _ _ rfl ran
  exact ⟨q, events, final, made, ran, relocates_iff stores (sameEnd.trans size)⟩

def sixtyBytes : QueueMemory where
  size := 112
  address := 0
  lock := 0
  statistics _ _ := 0
  room := by decide
  allocated := by decide
  addressed := by decide

/-- Of three pointers two are taken and one more is added at the start of the buffer: 34 of 60 bytes
are in use, and the receiver compares them with the free ones. -/
theorem wrapped_queue_fails_check :
    ∃ q events final, makeQueue sizeofQueue sixtyBytes.size = .ok (some q) ∧
      (queueMachine pointerSerializer).run q
        [.enqueue 1, .enqueue 2, .enqueue 3, .dequeue, .dequeue, .enqueue 4] =
          (events, .ok final) ∧
      swizzleQueuePtrs (queueImage sixtyBytes final) = .error .assertion :=
  ⟨_, _, _, rfl, rfl, rfl⟩

end TelegraphCQ.Flux
