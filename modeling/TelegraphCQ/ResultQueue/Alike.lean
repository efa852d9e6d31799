import TelegraphCQ.ResultQueue.Room

/-!
# Queues that behave alike

Queues that differ only outside of what they store answer every sequence of operations alike.  A
queue whose head has reached the wall may have its head at the start instead, as long as this is
not noticed: with the head at the start and the old wall more bytes seem free, and a refusal moves
the tail.
-/

namespace TelegraphCQ.ResultQueue

open Foundation

variable {Data : Type} {qs : QueueSerializer Data}

structure Alike (qs : QueueSerializer Data) (q other : Queue) : Prop where
  stored : ∃ items, Stores qs q items
  storedToo : ∃ items, Stores qs other items
  same : ∀ ops, ((queueMachine qs).run q ops).1 = ((queueMachine qs).run other ops).1

variable {q other : Queue} {items : List Data} {data : Data} {wall bufEnd tail : Int}

theorem Alike.refl (stores : Stores qs q items) : Alike qs q q :=
  ⟨⟨items, stores⟩, ⟨items, stores⟩, fun _ => rfl⟩

theorem Alike.step (alike : Alike qs q other) (op : QueueOp Data) :
    (queueMachine qs).StepsAlike (Alike qs) q other op := by
  obtain ⟨⟨items, stores⟩, ⟨itemsToo, storesToo⟩, same⟩ := alike
  obtain ⟨event, next, after, stepped, -, -, storesNext⟩ := queueStep_spec op stores
  obtain ⟨eventToo, nextToo, afterToo, steppedToo, -, -, storesNextToo⟩ :=
    queueStep_spec op storesToo
  have emitted : ∀ ops, event :: ((queueMachine qs).run next ops).1 =
      eventToo :: ((queueMachine qs).run nextToo ops).1 := by
    intro ops
    have outputs := same (op :: ops)
    rw [Machine.run_cons_ok _ stepped, Machine.run_cons_ok _ steppedToo] at outputs
    exact outputs
  obtain ⟨rfl, -⟩ := List.cons_eq_cons.mp (emitted [])
  exact ⟨[event], next, nextToo, stepped, steppedToo, ⟨after, storesNext⟩,
    ⟨afterToo, storesNextToo⟩, fun ops => (List.cons_eq_cons.mp (emitted ops)).2⟩

/-! ## Memory outside of the elements -/

def places (q : Queue) : Queue := { q with mem := fun _ => 0 }

def rewound (q : Queue) : Queue :=
  if q.head = q.wall then { q with head := 0, wall := q.bufEnd } else q

theorem dequeueElt_stored (stores : Stores qs q (data :: items)) :
    dequeueElt qs q = .ok (some data, popElt qs data (rewound q)) ∧
      Stores qs (popElt qs data (rewound q)) items := by
  have positive := @eltSize_pos Data qs data
  generalize isItems : data :: items = stored at stores
  cases stores.layout with
  | contiguous placed =>
    subst isItems
    have extent := laid_extent placed.laid
    have used := @bytesOf_nonneg Data qs items
    have last := placed.last
    have wall := placed.wall
    rw [bytesOf_cons] at extent
    rw [rewound, if_neg (by omega)]
    exact ⟨dequeueElt_contiguous placed stores,
      popElt_stores stores (.contiguous (popElt_contiguous placed))⟩
  | @wrapped front back placed =>
    have frontExtent := laid_extent placed.laidFront
    have used := @bytesOf_nonneg Data qs front
    have notEmpty : ¬ q.IsEmpty := (isEmpty_iff stores).not.mpr (by simp [← isItems])
    unfold dequeueElt
    rw [if_neg notEmpty, if_neg (by omega), rewound]
    cases front with
    | nil =>
      obtain rfl : data :: items = back := isItems
      rw [bytesOf_nil] at frontExtent
      obtain ⟨moved, movedStores⟩ := contiguous_of_head_at_wall placed stores
      rw [if_pos (by omega), if_pos (by omega)]
      exact ⟨takeElt_contiguous moved movedStores,
        popElt_stores movedStores (.contiguous (popElt_contiguous moved))⟩
    | cons first front =>
      obtain ⟨rfl, rfl⟩ : data = first ∧ items = front ++ back := List.cons_eq_cons.mp isItems
      have usedRest := @bytesOf_nonneg Data qs front
      rw [bytesOf_cons] at frontExtent
      rw [if_neg (by omega), if_neg (by omega)]
      exact ⟨takeElt_wrapped placed stores, popElt_stores stores (.wrapped (popElt_wrapped placed))⟩

theorem enqueueElt_places (data : Data) (q : Queue) (mem : Memory) :
    (enqueueElt qs data { q with mem := mem }).map (Prod.map id places) =
      (enqueueElt qs data q).map (Prod.map id places) := by
  by_cases full : q.IsFull
  · have fullToo : ({ q with mem := mem } : Queue).IsFull := full
    rw [enqueueElt, enqueueElt, if_pos full, if_pos fullToo]
    rfl
  · have fullToo : ¬ ({ q with mem := mem } : Queue).IsFull := full
    rw [enqueueElt, enqueueElt, if_neg full, if_neg fullToo]
    by_cases reset : q.wall ≤ q.tail
    · simp only [if_pos reset, placeElt, wrapTail, Queue.IsFull, Queue.spaceToEnd]
      split_ifs <;> rfl
    · simp only [if_neg reset, placeElt, wrapTail, Queue.IsFull, Queue.spaceToEnd]
      split_ifs <;> rfl

structure SamePlaces (qs : QueueSerializer Data) (q other : Queue) : Prop where
  stored : ∃ items, Stores qs q items ∧ Stores qs other items
  same : places other = places q

theorem SamePlaces.step (related : SamePlaces qs q other) (op : QueueOp Data) :
    (queueMachine qs).StepsAlike (SamePlaces qs) q other op := by
  obtain ⟨⟨items, stores, storesToo⟩, same⟩ := related
  obtain ⟨mem, rfl⟩ : ∃ mem, other = { q with mem := mem } :=
    ⟨other.mem, congrArg (fun queue => { queue with mem := other.mem }) same⟩
  cases op with
  | enqueue data =>
    obtain ⟨accepted, next, enqueued, storesNext⟩ := enqueueElt_spec data stores
    obtain ⟨acceptedToo, nextToo, enqueuedToo, storesNextToo⟩ := enqueueElt_spec data storesToo
    have mapped := @enqueueElt_places Data qs data q mem
    rw [enqueued, enqueuedToo] at mapped
    obtain ⟨sameAnswer, samePlaces⟩ := Prod.mk.inj (Except.ok.inj mapped)
    obtain rfl : acceptedToo = accepted := sameAnswer
    exact ⟨_, next, nextToo, enqueue_step enqueued, enqueue_step enqueuedToo,
      ⟨_, storesNext, storesNextToo⟩, samePlaces⟩
  | dequeue =>
    cases items with
    | nil =>
      exact ⟨_, _, _, dequeue_nothing_step ((isEmpty_iff stores).mpr rfl),
        dequeue_nothing_step ((isEmpty_iff storesToo).mpr rfl), ⟨[], stores, storesToo⟩, same⟩
    | cons data rest =>
      obtain ⟨taken, storesNext⟩ := dequeueElt_stored stores
      obtain ⟨takenToo, storesNextToo⟩ := dequeueElt_stored storesToo
      refine ⟨_, _, _, dequeue_step taken, dequeue_step takenToo,
        ⟨rest, storesNext, storesNextToo⟩, ?_⟩
      unfold rewound
      split_ifs <;> rfl

theorem SamePlaces.alike (related : SamePlaces qs q other) : Alike qs q other := by
  obtain ⟨⟨items, stores, storesToo⟩, -⟩ := id related
  exact ⟨⟨items, stores⟩, ⟨items, storesToo⟩, fun ops => @Machine.run_same _ _ _ _
    (queueMachine qs) (SamePlaces qs) (fun _ _ op related => related.step op) _ _ related ops⟩

theorem WrappedToo.alike (placed : Contiguous qs q items) (stores : Stores qs q items)
    (tooLong : ∀ data, q.bufEnd - q.tail < eltSize qs data) : Alike qs q (wrapTail q) :=
  ⟨⟨items, stores⟩, ⟨_, wrapTail_stores placed stores⟩, fun ops => @Machine.run_same _ _ _ _
    (queueMachine qs) (WrappedToo qs) (fun _ _ op related => related.step op) _ _
    (.inr ⟨rfl, ⟨items, placed, stores⟩, tooLong⟩) ops⟩

/-! ## The head at the wall -/

/-- From the tail on, it is never noticed which one of wall and end limits the elements: as long as
the wall is not reached, all elements fit before the wall or none fits before the end. -/
def Undecided (qs : QueueSerializer Data) (wall bufEnd tail : Int) : Prop :=
  ∀ elts, tail + bytesOf qs elts < wall →
    (∀ data, tail + bytesOf qs elts + eltSize qs data ≤ wall) ∨
      ∀ data, bufEnd < tail + bytesOf qs elts + eltSize qs data

theorem Undecided.next (undecided : Undecided qs wall bufEnd tail) (data : Data) :
    Undecided qs wall bufEnd (tail + eltSize qs data) := by
  intro elts before
  have later := undecided (data :: elts)
  rw [bytesOf_cons, ← Int.add_assoc] at later
  exact later before

theorem Undecided.now (undecided : Undecided qs wall bufEnd tail) (before : tail < wall) :
    (∀ data, tail + eltSize qs data ≤ wall) ∨ ∀ data, bufEnd < tail + eltSize qs data := by
  have first := undecided []
  rw [bytesOf_nil, Int.add_zero] at first
  exact first before

structure AtWall (qs : QueueSerializer Data) (q : Queue) (items : List Data) : Prop where
  placed : Wrapped qs q [] items
  stores : Stores qs q items

section

variable (atWall : AtWall qs q items)
include atWall

theorem AtWall.extent :
    q.head = q.wall ∧ q.tail = bytesOf qs items ∧ q.tail ≤ q.wall ∧ q.wall ≤ q.bufEnd ∧
      q.bytesfree = q.bufEnd - q.tail := by
  have frontExtent := laid_extent atWall.placed.laidFront
  have backExtent := laid_extent atWall.placed.laidBack
  have apart := atWall.placed.apart
  have wall := atWall.placed.wall
  have free := atWall.stores.free
  rw [bytesOf_nil] at frontExtent
  omega

theorem AtWall.fresh : Contiguous qs { q with head := 0, wall := q.bufEnd } items ∧
      Stores qs { q with head := 0, wall := q.bufEnd } items :=
  contiguous_of_head_at_wall atWall.placed atWall.stores

theorem AtWall.enqueue (data : Data) : enqueueElt qs data q =
      if eltSize qs data ≤ q.wall - q.tail then .ok (true, pushElt qs data q) else .ok (false, q) := by
  have enqueued := enqueueElt_wrapped data atWall.placed atWall.stores
  rw [atWall.extent.1] at enqueued
  exact enqueued

theorem AtWall.push (fits : eltSize qs data ≤ q.wall - q.tail) :
    AtWall qs (pushElt qs data q) (items ++ [data]) := by
  have placed := pushElt_wrapped atWall.placed (by rw [atWall.extent.1]; exact fits)
  exact ⟨placed, pushElt_stores atWall.stores (@Layout.wrapped _ _ _ [] _ placed)⟩

end

theorem enqueueElt_before_wall {q : Queue} (data : Data) (notFull : ¬ q.IsFull)
    (ahead : q.head ≤ q.tail) (before : q.tail < q.wall) (free : q.bufEnd - q.tail ≤ q.bytesfree) :
    enqueueElt qs data q = if eltSize qs data ≤ q.bufEnd - q.tail then .ok (true, pushElt qs data q)
      else if (wrapTail q).IsFull then .ok (false, wrapTail q)
      else if (wrapTail q).tail < (wrapTail q).head then
        placeElt qs data ((wrapTail q).head - (wrapTail q).tail) (wrapTail q)
      else placeElt qs data ((wrapTail q).spaceToEnd (wrapTail q).tail) (wrapTail q) := by
  rw [enqueueElt, if_neg notFull]
  simp only [if_neg (show ¬ q.wall ≤ q.tail by omega)]
  rw [if_neg (show ¬ q.tail < q.head by omega)]
  by_cases fits : eltSize qs data ≤ q.bufEnd - q.tail
  · have room : ¬ q.spaceToEnd q.tail < eltSize qs data := not_lt.mpr fits
    rw [if_neg room, if_pos fits]
    exact (placeElt_eq free).trans (if_pos fits)
  · have noRoom : q.spaceToEnd q.tail < eltSize qs data := not_le.mp fits
    rw [if_pos noRoom, if_neg fits]

theorem AtWall.enqueue_start (atWall : AtWall qs q items) (data : Data) (before : q.tail < q.wall) :
    enqueueElt qs data { q with head := 0 } =
      if eltSize qs data ≤ q.bufEnd - q.tail then .ok (true, pushElt qs data { q with head := 0 })
      else .ok (false, wrapTail { q with head := 0 }) := by
  obtain ⟨-, tail, -, wall, free⟩ := atWall.extent
  have used := @bytesOf_nonneg Data qs items
  have notFull : ¬ ({ q with head := 0 } : Queue).IsFull := by
    simp only [Queue.IsFull]
    omega
  have nowFull : (wrapTail { q with head := 0 }).IsFull := by
    simp only [Queue.IsFull, wrapTail]
    omega
  rw [enqueueElt_before_wall data notFull (by simp only; omega) before (by simp only; omega),
    if_pos nowFull]

/-! ### Unnoticed -/

inductive Unnoticed (qs : QueueSerializer Data) : Queue → Queue → Prop
  | atWall {q : Queue} {items : List Data} (atWall : AtWall qs q items)
      (undecided : Undecided qs q.wall q.bufEnd q.tail) : Unnoticed qs q { q with head := 0 }
  | oldWall {q : Queue} {items : List Data} {wall : Int} (placed : Contiguous qs q items)
      (stores : Stores qs q items) (passed : 0 < q.head) (before : q.tail ≤ wall)
      (inside : wall ≤ q.bufEnd) (undecided : Undecided qs wall q.bufEnd q.tail) :
      Unnoticed qs q { q with wall := wall }
  | shut {q : Queue} {items : List Data} (atWall : AtWall qs q items)
      (tooLong : ∀ data, q.bufEnd < q.tail + eltSize qs data) :
      Unnoticed qs q (wrapTail { q with head := 0 })
  | alike {q other : Queue} (alike : Alike qs q other) : Unnoticed qs q other

theorem AtWall.enqueue_unnoticed (atWall : AtWall qs q items)
    (undecided : Undecided qs q.wall q.bufEnd q.tail) (data : Data) :
    (queueMachine qs).StepsAlike (Unnoticed qs) q { q with head := 0 } (.enqueue data) := by
  obtain ⟨head, tail, inside, wall, free⟩ := atWall.extent
  have positive := @eltSize_pos Data qs data
  have enqueued := atWall.enqueue data
  by_cases before : q.tail < q.wall
  · have enqueuedStart := atWall.enqueue_start data before
    rcases undecided.now before with allFit | noneFits
    · have fits := allFit data
      rw [if_pos (by omega)] at enqueued enqueuedStart
      exact ⟨_, _, _, enqueue_step enqueued, enqueue_step enqueuedStart,
        .atWall (atWall.push (by omega)) (undecided.next data)⟩
    · have tooLong := noneFits data
      rw [if_neg (by omega)] at enqueued enqueuedStart
      exact ⟨_, _, _, enqueue_step enqueued, enqueue_step enqueuedStart, .shut atWall noneFits⟩
  · have full : q.IsFull := by
      simp only [Queue.IsFull]
      omega
    have fullToo : ({ q with head := 0 } : Queue).IsFull := full
    exact ⟨_, _, _, enqueue_full_step data full, enqueue_full_step data fullToo,
      .atWall atWall undecided⟩

theorem AtWall.dequeue (atWall : AtWall qs q (data :: items)) :
    dequeueElt qs q = .ok (some data, popElt qs data { q with head := 0, wall := q.bufEnd }) := by
  have taken := (dequeueElt_stored atWall.stores).1
  rw [rewound, if_pos atWall.extent.1] at taken
  exact taken

theorem dequeueElt_oldWall (placed : Contiguous qs q (data :: items))
    (stores : Stores qs q (data :: items)) (before : q.tail ≤ wall) :
    dequeueElt qs { q with wall := wall } =
      .ok (some data, { popElt qs data q with wall := wall }) := by
  have extent := laid_extent placed.laid
  have used := @bytesOf_nonneg Data qs items
  have positive := @eltSize_pos Data qs data
  rw [bytesOf_cons] at extent
  have notEmpty : ¬ ({ q with wall := wall } : Queue).IsEmpty :=
    (isEmpty_iff stores).not.mpr (by simp)
  have taken : takeElt qs q = .ok (some data, popElt qs data q) := takeElt_contiguous placed stores
  unfold dequeueElt
  rw [if_neg notEmpty, if_neg (by simp only; omega), if_neg (by simp only; omega)]
  unfold takeElt at taken ⊢
  split at taken
  · simp at taken
  · next check =>
      rw [if_neg check]
      obtain ⟨found, after⟩ := Prod.mk.inj (Except.ok.inj taken)
      rw [found, ← after]

theorem AtWall.dequeue_unnoticed (atWall : AtWall qs q items)
    (undecided : Undecided qs q.wall q.bufEnd q.tail) :
    (queueMachine qs).StepsAlike (Unnoticed qs) q { q with head := 0 } .dequeue := by
  obtain ⟨head, tail, inside, wall, free⟩ := atWall.extent
  obtain ⟨placed, stores⟩ := atWall.fresh
  cases items with
  | nil =>
    have empty : q.IsEmpty := (isEmpty_iff atWall.stores).mpr rfl
    have emptyToo : ({ q with head := 0 } : Queue).IsEmpty := empty
    exact ⟨_, _, _, dequeue_nothing_step empty, dequeue_nothing_step emptyToo,
      .atWall atWall undecided⟩
  | cons data items =>
    have placedNext := popElt_contiguous placed
    have positive := @eltSize_pos Data qs data
    refine ⟨_, _, _, dequeue_step atWall.dequeue,
      dequeue_step (dequeueElt_oldWall placed stores inside),
      .oldWall placedNext (popElt_stores stores (.contiguous placedNext)) ?_ inside wall undecided⟩
    simp only [popElt]
    omega

section

variable (placed : Contiguous qs q items) (stores : Stores qs q items) (passed : 0 < q.head)
  (before : q.tail ≤ wall) (inside : wall ≤ q.bufEnd)
include placed stores passed before inside

/-- The old wall is forgotten when the tail has reached it, or when the tail goes back. -/
theorem enqueueElt_oldWall (tooLong : ¬ (q.tail < wall ∧ eltSize qs data ≤ q.bufEnd - q.tail)) :
    enqueueElt qs data { q with wall := wall } = enqueueElt qs data q := by
  have extent := laid_extent placed.laid
  have used := @bytesOf_nonneg Data qs items
  have free := stores.free
  have atEnd := placed.wall
  have notFull : ¬ q.IsFull := by
    unfold Queue.IsFull
    omega
  have notFullToo : ¬ ({ q with wall := wall } : Queue).IsFull := by
    simp only [Queue.IsFull]
    omega
  by_cases reached : wall ≤ q.tail
  · have sameQueue : ({ q with wall := q.bufEnd } : Queue) = q :=
      congrArg (fun wall => { q with wall := wall }) atEnd.symm
    rw [enqueueElt, enqueueElt, if_neg notFull, if_neg notFullToo]
    simp [if_pos reached, sameQueue]
  · have long : ¬ eltSize qs data ≤ q.bufEnd - q.tail := by omega
    rw [enqueueElt_before_wall data notFull (by omega) (by omega) (by omega),
      enqueueElt_before_wall data notFullToo (by simp only; omega) (by simp only; omega)
        (by simp only; omega), if_neg long, if_neg long]
    rfl

theorem oldWall_unnoticed (undecided : Undecided qs wall q.bufEnd q.tail) (op : QueueOp Data) :
    (queueMachine qs).StepsAlike (Unnoticed qs) q { q with wall := wall } op := by
  have extent := laid_extent placed.laid
  have used := @bytesOf_nonneg Data qs items
  have free := stores.free
  have atEnd := placed.wall
  cases op with
  | enqueue data =>
    have positive := @eltSize_pos Data qs data
    by_cases fits : q.tail < wall ∧ eltSize qs data ≤ q.bufEnd - q.tail
    · have enqueued := enqueueElt_contiguous data placed stores
      have notFull : ¬ ({ q with wall := wall } : Queue).IsFull := by
        simp only [Queue.IsFull]
        omega
      have enqueuedToo := @enqueueElt_before_wall Data qs { q with wall := wall } data notFull
        (by simp only; omega) fits.1 (by simp only; omega)
      rw [if_pos fits.2] at enqueued
      rw [if_pos (by exact fits.2)] at enqueuedToo
      have placedNext := pushElt_contiguous placed fits.2
      have within : q.tail + eltSize qs data ≤ wall := by
        rcases undecided.now fits.1 with allFit | noneFits
        · exact allFit data
        · have tooLong := noneFits data
          omega
      exact ⟨_, _, _, enqueue_step enqueued, enqueue_step enqueuedToo,
        .oldWall placedNext (pushElt_stores stores (.contiguous placedNext)) passed within inside
          (undecided.next data)⟩
    · have same := enqueueElt_oldWall placed stores passed before inside fits
      obtain ⟨accepted, next, enqueued, storesNext⟩ := enqueueElt_spec data stores
      exact ⟨_, next, next, enqueue_step enqueued, enqueue_step (same.trans enqueued),
        .alike (.refl storesNext)⟩
  | dequeue =>
    cases items with
    | nil =>
      have empty : q.IsEmpty := (isEmpty_iff stores).mpr rfl
      have emptyToo : ({ q with wall := wall } : Queue).IsEmpty := empty
      exact ⟨_, _, _, dequeue_nothing_step empty, dequeue_nothing_step emptyToo,
        .oldWall placed stores passed before inside undecided⟩
    | cons data items =>
      have placedNext := popElt_contiguous placed
      have positive := @eltSize_pos Data qs data
      refine ⟨_, _, _, dequeue_step (dequeueElt_contiguous placed stores),
        dequeue_step (dequeueElt_oldWall placed stores before),
        .oldWall placedNext (popElt_stores stores (.contiguous placedNext)) ?_ before inside
          undecided⟩
      simp only [popElt]
      omega

end

theorem shut_unnoticed (atWall : AtWall qs q items)
    (tooLong : ∀ data, q.bufEnd < q.tail + eltSize qs data) (op : QueueOp Data) :
    (queueMachine qs).StepsAlike (Unnoticed qs) q (wrapTail { q with head := 0 }) op := by
  obtain ⟨head, tail, inside, wall, free⟩ := atWall.extent
  obtain ⟨placed, stores⟩ := atWall.fresh
  cases op with
  | enqueue data =>
    have enqueued := atWall.enqueue data
    have longer := tooLong data
    rw [if_neg (by omega)] at enqueued
    have full : (wrapTail { q with head := 0 }).IsFull := by
      simp only [Queue.IsFull, wrapTail]
      omega
    exact ⟨_, _, _, enqueue_step enqueued, enqueue_full_step data full, .shut atWall tooLong⟩
  | dequeue =>
    cases items with
    | nil =>
      have empty : q.IsEmpty := (isEmpty_iff atWall.stores).mpr rfl
      have emptyToo : (wrapTail { q with head := 0 }).IsEmpty := empty
      exact ⟨_, _, _, dequeue_nothing_step empty, dequeue_nothing_step emptyToo,
        .shut atWall tooLong⟩
    | cons data items =>
      have placedNext := popElt_contiguous placed
      have storesNext := popElt_stores stores (.contiguous placedNext)
      have taken := dequeueElt_wrapTail placed stores
      refine ⟨_, _, _, dequeue_step atWall.dequeue, dequeue_step taken,
        .alike (WrappedToo.alike placedNext storesNext fun other => ?_)⟩
      have longer := tooLong other
      simp only [popElt]
      omega

theorem Unnoticed.step (related : Unnoticed qs q other) (op : QueueOp Data) :
    (queueMachine qs).StepsAlike (Unnoticed qs) q other op := by
  cases related with
  | atWall atWall undecided =>
    cases op with
    | enqueue data => exact atWall.enqueue_unnoticed undecided data
    | dequeue => exact atWall.dequeue_unnoticed undecided
  | oldWall placed stores passed before inside undecided =>
    exact oldWall_unnoticed placed stores passed before inside undecided op
  | shut atWall tooLong => exact shut_unnoticed atWall tooLong op
  | alike alike =>
    obtain ⟨emitted, next, nextOther, stepped, steppedToo, still⟩ := alike.step op
    exact ⟨emitted, next, nextOther, stepped, steppedToo, .alike still⟩

/-! ### Noticed -/

theorem AtWall.noticed_past_wall (atWall : AtWall qs q items) (before : q.tail < q.wall)
    (past : q.wall < q.tail + eltSize qs data) (fits : q.tail + eltSize qs data ≤ q.bufEnd) :
    ∃ later, ((queueMachine qs).run q later).1 ≠
      ((queueMachine qs).run { q with head := 0 } later).1 := by
  have enqueued := atWall.enqueue data
  have enqueuedStart := atWall.enqueue_start data before
  rw [if_neg (by omega)] at enqueued
  rw [if_pos (by omega)] at enqueuedStart
  refine ⟨[.enqueue data], ?_⟩
  rw [Machine.run_cons_ok _ (enqueue_step enqueued),
    Machine.run_cons_ok _ (enqueue_step enqueuedStart)]
  simp [Machine.run, enqueueEvent]

theorem AtWall.noticed {elts : List Data} {long short : Data} (atWall : AtWall qs q items)
    (before : q.tail + bytesOf qs elts < q.wall)
    (tooLong : q.wall < q.tail + bytesOf qs elts + eltSize qs long)
    (fits : q.tail + bytesOf qs elts + eltSize qs short ≤ q.bufEnd) :
    ∃ later, ((queueMachine qs).run q later).1 ≠
      ((queueMachine qs).run { q with head := 0 } later).1 := by
  induction elts generalizing q items with
  | nil =>
    rw [bytesOf_nil, Int.add_zero] at before tooLong fits
    obtain ⟨head, tail, inside, wall, free⟩ := atWall.extent
    by_cases past : q.wall < q.tail + eltSize qs short
    · exact atWall.noticed_past_wall before past fits
    · by_cases longFits : q.tail + eltSize qs long ≤ q.bufEnd
      · exact atWall.noticed_past_wall before tooLong longFits
      · -- both refuse the long one, but one of them has moved its tail then
        have refused := atWall.enqueue long
        have refusedStart := atWall.enqueue_start long before
        have enqueued := atWall.enqueue short
        have full : (wrapTail { q with head := 0 }).IsFull := by
          simp only [Queue.IsFull, wrapTail]
          omega
        rw [if_neg (by omega)] at refused refusedStart
        rw [if_pos (by omega)] at enqueued
        refine ⟨[.enqueue long, .enqueue short], ?_⟩
        rw [Machine.run_cons_ok _ (enqueue_step refused),
          Machine.run_cons_ok _ (enqueue_step refusedStart),
          Machine.run_cons_ok _ (enqueue_step enqueued),
          Machine.run_cons_ok _ (enqueue_full_step short full)]
        simp [Machine.run, enqueueEvent]
  | cons data elts ih =>
    have used := @bytesOf_nonneg Data qs elts
    have positive := @eltSize_pos Data qs data
    obtain ⟨head, tail, inside, wall, free⟩ := atWall.extent
    rw [bytesOf_cons, ← Int.add_assoc] at before tooLong fits
    have enqueued := atWall.enqueue data
    have enqueuedStart := atWall.enqueue_start data (by omega)
    rw [if_pos (by omega)] at enqueued enqueuedStart
    obtain ⟨later, differs⟩ := ih (atWall.push (by omega)) before tooLong fits
    refine ⟨.enqueue data :: later, fun same => differs ?_⟩
    rw [Machine.run_cons_ok _ (enqueue_step enqueued),
      Machine.run_cons_ok _ (enqueue_step enqueuedStart)] at same
    exact List.append_cancel_left same

theorem AtWall.alike_iff (atWall : AtWall qs q items) :
    (∀ later, ((queueMachine qs).run q later).1 =
        ((queueMachine qs).run { q with head := 0 } later).1) ↔
      Undecided qs q.wall q.bufEnd q.tail := by
  constructor
  · intro same elts before
    by_contra decided
    obtain ⟨someLong, someShort⟩ := not_or.mp decided
    obtain ⟨long, tooLong⟩ := not_forall.mp someLong
    obtain ⟨short, fits⟩ := not_forall.mp someShort
    obtain ⟨later, differs⟩ := atWall.noticed before (not_le.mp tooLong) (not_lt.mp fits)
    exact differs (same later)
  · intro undecided later
    exact @Machine.run_same _ _ _ _ (queueMachine qs) (Unnoticed qs)
      (fun _ _ op related => related.step op) _ _ (.atWall atWall undecided) later

end TelegraphCQ.ResultQueue
