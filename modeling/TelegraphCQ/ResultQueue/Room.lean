import TelegraphCQ.ResultQueue.QueueCorrect

/-!
# Room in the circular queue

Whether an element is accepted depends on where earlier elements have left head, tail and wall.  A
refusal may itself move the tail back to the start and the wall with it, and the bytes behind the
wall are then lost until the head gets there.
-/

namespace TelegraphCQ.ResultQueue

open Foundation List

variable {Data : Type} {qs : QueueSerializer Data}

variable {q next : Queue} {items : List Data} {data : Data}

theorem run_stores (stores : Stores qs q items) (ops : List (QueueOp Data)) :
    ∃ events final after, (queueMachine qs).run q ops = (events, .ok final) ∧
      Stores qs final after := by
  have step : ∀ (q : Queue) (op : QueueOp Data), (∃ items, Stores qs q items) →
      ∃ emitted next, (queueMachine qs).step q op = (emitted, .ok next) ∧
        ∃ items, Stores qs next items := by
    rintro q op ⟨items, stores⟩
    obtain ⟨event, next, after, stepped, -, -, storesNext⟩ := queueStep_spec op stores
    exact ⟨[event], next, stepped, after, storesNext⟩
  obtain ⟨events, final, ran, after, storesFinal⟩ := @Machine.run_always _ _ _ _ (queueMachine qs)
    (fun _ _ q => ∃ items, Stores qs q items) (fun _ op _ q stored => step q op stored) q
    ⟨items, stores⟩ ops
  exact ⟨events, final, after, ran, storesFinal⟩

theorem enqueue_step {accepted : Bool} (enqueued : enqueueElt qs data q = .ok (accepted, next)) :
    (queueMachine qs).step q (.enqueue data) = ([enqueueEvent data accepted], .ok next) := by
  simp [queueMachine, queueStep, enqueued]

theorem dequeue_step {found : Option Data} (taken : dequeueElt qs q = .ok (found, next)) :
    (queueMachine qs).step q .dequeue = ([dequeueEvent found], .ok next) := by
  simp [queueMachine, queueStep, taken]

theorem dequeue_nothing_step (empty : q.IsEmpty) :
    (queueMachine qs).step q .dequeue = ([.nothing], .ok q) := by
  have taken : dequeueElt qs q = .ok (none, q) := by rw [dequeueElt, if_pos empty]
  exact dequeue_step taken

theorem enqueue_full_step (data : Data) (full : q.IsFull) :
    (queueMachine qs).step q (.enqueue data) = ([.refused data], .ok q) := by
  have enqueued : enqueueElt qs data q = .ok (false, q) := by rw [enqueueElt, if_pos full]
  exact enqueue_step enqueued

/-! ## An empty queue -/

/-- An element of the size fits before the head, or between head and end where an empty queue may go
on; a wall at the start makes the queue look full. -/
def Queue.HasRoom (size : Int) (q : Queue) : Prop :=
  q.wall ≠ 0 ∧ (size ≤ q.head ∨ (q.tail = q.head ∧ size ≤ q.bufEnd - q.head))

instance (size : Int) (q : Queue) : Decidable (q.HasRoom size) :=
  inferInstanceAs (Decidable (_ ∧ _))

theorem enqueueElt_empty (stores : Stores qs q []) (data : Data) :
    (∃ next, enqueueElt qs data q = .ok (true, next)) ↔ q.HasRoom (eltSize qs data) := by
  have positive := @eltSize_pos Data qs data
  have free := stores.free
  rw [bytesOf_nil] at free
  unfold Queue.HasRoom
  generalize isItems : ([] : List Data) = items at stores
  cases stores.layout with
  | contiguous placed =>
    subst isItems
    have extent := laid_extent placed.laid
    have first := placed.first
    have last := placed.last
    have wall := placed.wall
    rw [bytesOf_nil] at extent
    rw [enqueueElt_contiguous data placed stores]
    by_cases fits : eltSize qs data ≤ q.bufEnd - q.tail
    · rw [if_pos fits]
      exact ⟨fun _ => ⟨by omega, .inr ⟨by omega, by omega⟩⟩, fun _ => ⟨_, rfl⟩⟩
    · rw [if_neg fits]
      by_cases full : q.IsFull
      · rw [if_pos full]
        simp only [Queue.IsFull] at full
        exact ⟨fun accepted => by simp at accepted, fun room => absurd (by omega) room.1⟩
      · rw [if_neg full]
        simp only [Queue.IsFull] at full
        by_cases before : eltSize qs data ≤ q.head
        · rw [if_pos before]
          exact ⟨fun _ => ⟨by omega, .inl before⟩, fun _ => ⟨_, rfl⟩⟩
        · rw [if_neg before]
          exact ⟨fun accepted => by simp at accepted, fun room => by omega⟩
  | @wrapped front back placed =>
    obtain ⟨rfl, rfl⟩ := append_eq_nil_iff.mp isItems.symm
    have frontExtent := laid_extent placed.laidFront
    have backExtent := laid_extent placed.laidBack
    rw [bytesOf_nil] at frontExtent backExtent
    rw [enqueueElt_wrapped data placed stores]
    by_cases fits : eltSize qs data ≤ q.head - q.tail
    · rw [if_pos fits]
      exact ⟨fun _ => ⟨by omega, .inl (by omega)⟩, fun _ => ⟨_, rfl⟩⟩
    · rw [if_neg fits]
      exact ⟨fun accepted => by simp at accepted, fun room => by omega⟩

/-- In every queue that has been emptied, an element is accepted just when there is room for it at
the place that earlier elements have left. -/
theorem empty_queue_accepts_iff (qs : QueueSerializer Data) (sizeofQueue : Nat) (size : Int)
    (q : Queue) (made : makeQueue sizeofQueue size = .ok (some q)) (ops : List (QueueOp Data)) :
    ∃ events final, (queueMachine qs).run q ops = (events, .ok final) ∧
      (final.numelts = 0 → ∀ data,
        (∃ next, enqueueElt qs data final = .ok (true, next)) ↔
          final.HasRoom (eltSize qs data)) := by
  obtain ⟨fresh, -⟩ := @makeQueue_stores Data qs sizeofQueue size q made
  obtain ⟨events, final, items, ran, stores⟩ := run_stores fresh ops
  refine ⟨events, final, ran, fun empty data => ?_⟩
  have count := stores.count
  obtain rfl : items = [] := length_eq_zero_iff.mp (by omega)
  exact enqueueElt_empty stores data

/-- A flag, with nine bytes more where it is set. -/
def flagSerializer : QueueSerializer Bool where
  determineSize data := if data then 10 else 1
  serialize data := if data then 1 :: List.replicate 9 0 else [0]
  deserialize src := decide (src 0 ≠ 0)
  length_serialize data := by cases data <;> rfl
  determineSize_le data := by cases data <;> decide
  deserialize_serialize data mem holds := by
    cases data with
    | false =>
      have first : mem (0 + (0 : Nat)) = 0 := holds 0 (by decide)
      simpa using first
    | true =>
      have first : mem (0 + (0 : Nat)) = 1 := holds 0 (by decide)
      simp only [Int.natCast_zero, add_zero] at first
      simp [first]

theorem emptied_queue_accepts :
    ∃ q events final next, makeQueue 52 90 = .ok (some q) ∧
      (queueMachine flagSerializer).run q [.enqueue true, .dequeue] = (events, .ok final) ∧
      final.numelts = 0 ∧ enqueueElt flagSerializer true final = .ok (true, next) := by
  obtain ⟨events, final, ran, accepts⟩ :=
    empty_queue_accepts_iff flagSerializer 52 90 _ rfl [.enqueue true, .dequeue]
  obtain rfl : _ = final := Except.ok.inj (congrArg Prod.snd ran)
  obtain ⟨next, enqueued⟩ := (accepts rfl true).mpr (by decide +kernel)
  exact ⟨_, events, _, next, rfl, ran, rfl, enqueued⟩

/-- After one short element has come and gone, a long one that the buffer could hold is refused. -/
theorem emptied_queue_refuses :
    ∃ q events final next, makeQueue 52 82 = .ok (some q) ∧
      (queueMachine flagSerializer).run q [.enqueue false, .dequeue] = (events, .ok final) ∧
      final.numelts = 0 ∧ eltSize flagSerializer true ≤ final.bufEnd ∧
      enqueueElt flagSerializer true final = .ok (false, next) :=
  ⟨_, _, _, _, rfl, rfl, rfl, by decide +kernel, rfl⟩

/-! ## A refusal -/

theorem refused_eq (stores : Stores qs q items)
    (refused : enqueueElt qs data q = .ok (false, next)) :
    (next = q ∧ (q.IsFull ∨ q.tail < q.head)) ∨
      (next = wrapTail q ∧ Contiguous qs q items ∧ ¬ q.IsFull ∧ q.head ≤ q.tail ∧
        q.bufEnd - q.tail < eltSize qs data) := by
  cases stores.layout with
  | contiguous placed =>
    have extent := laid_extent placed.laid
    have used := @bytesOf_nonneg Data qs items
    rw [enqueueElt_contiguous data placed stores] at refused
    split at refused
    · simp at refused
    · next tooLong =>
        split at refused
        · next full =>
            simp only [Except.ok.injEq, Prod.mk.injEq, true_and] at refused
            exact .inl ⟨refused.symm, .inl full⟩
        · next notFull =>
            split at refused
            · simp at refused
            · simp only [Except.ok.injEq, Prod.mk.injEq, true_and] at refused
              exact .inr ⟨refused.symm, placed, notFull, by omega, by omega⟩
  | @wrapped front back placed =>
    have frontExtent := laid_extent placed.laidFront
    have backExtent := laid_extent placed.laidBack
    have apart := placed.apart
    have free := stores.free
    rw [bytesOf_append] at free
    rw [enqueueElt_wrapped data placed stores] at refused
    split at refused
    · simp at refused
    · simp only [Except.ok.injEq, Prod.mk.injEq, true_and] at refused
      refine .inl ⟨refused.symm, ?_⟩
      unfold Queue.IsFull
      omega

/-- The queue and the one whose tail has gone back to the start, when no element fits before the
end of the buffer any more. -/
def WrappedToo (qs : QueueSerializer Data) (q other : Queue) : Prop :=
  (other = q ∧ ∃ items, Stores qs q items) ∨
    (other = wrapTail q ∧ (∃ items, Contiguous qs q items ∧ Stores qs q items) ∧
      ∀ data, q.bufEnd - q.tail < eltSize qs data)

theorem enqueueElt_wrapTail (placed : Contiguous qs q items) (stores : Stores qs q items)
    (tooLong : q.bufEnd - q.tail < eltSize qs data) (notFull : ¬ q.IsFull) :
    enqueueElt qs data (wrapTail q) = enqueueElt qs data q := by
  have storesToo := wrapTail_stores placed stores
  rw [enqueueElt_contiguous data placed stores, if_neg (by omega), if_neg notFull,
    enqueueElt_wrapped data (wrapTail_wrapped placed) storesToo]
  simp [wrapTail]

theorem dequeueElt_wrapTail (placed : Contiguous qs q (data :: items))
    (stores : Stores qs q (data :: items)) :
    dequeueElt qs (wrapTail q) = .ok (some data, wrapTail (popElt qs data q)) := by
  have extent := laid_extent placed.laid
  have used := @bytesOf_nonneg Data qs items
  have positive := @eltSize_pos Data qs data
  rw [bytesOf_cons] at extent
  have storesToo := wrapTail_stores placed stores
  have notEmpty : ¬ (wrapTail q).IsEmpty := (isEmpty_iff storesToo).not.mpr (by simp)
  have taken := takeElt_wrapped (wrapTail_wrapped placed) storesToo
  have moved : popElt qs data (wrapTail q) = wrapTail (popElt qs data q) := by
    simp only [popElt, wrapTail]
    congr 1
    refine (Memory.write_comm _ ?_).symm
    rw [length_replicate]
    omega
  unfold dequeueElt
  rw [if_neg notEmpty, if_neg, if_neg, taken, moved]
  · simp only [wrapTail]
    omega
  · simp only [wrapTail]
    omega

theorem WrappedToo.step {other : Queue} (related : WrappedToo qs q other) (op : QueueOp Data) :
    (queueMachine qs).StepsAlike (WrappedToo qs) q other op := by
  rcases related with ⟨rfl, items, stores⟩ | ⟨rfl, ⟨items, placed, stores⟩, tooLong⟩
  · obtain ⟨event, next, after, stepped, -, -, storesNext⟩ := queueStep_spec op stores
    exact ⟨[event], next, next, stepped, stepped, .inl ⟨rfl, after, storesNext⟩⟩
  · cases op with
    | enqueue data =>
      by_cases full : q.IsFull
      · -- then all of the buffer is in use, and the other one is full as well
        have fullToo : (wrapTail q).IsFull := by
          have extent := laid_extent placed.laid
          have first := placed.first
          have last := placed.last
          have wall := placed.wall
          have free := stores.free
          simp only [Queue.IsFull, wrapTail] at full ⊢
          omega
        exact ⟨_, q, wrapTail q, enqueue_full_step data full, enqueue_full_step data fullToo,
          .inr ⟨rfl, ⟨items, placed, stores⟩, tooLong⟩⟩
      · have same := enqueueElt_wrapTail placed stores (tooLong data) full
        obtain ⟨accepted, next, enqueued, storesNext⟩ := enqueueElt_spec data stores
        exact ⟨_, next, next, enqueue_step enqueued, enqueue_step (same.trans enqueued),
          .inl ⟨rfl, _, storesNext⟩⟩
    | dequeue =>
      cases items with
      | nil =>
        have empty : q.IsEmpty := (isEmpty_iff stores).mpr rfl
        have emptyToo : (wrapTail q).IsEmpty := empty
        exact ⟨_, q, wrapTail q, dequeue_nothing_step empty, dequeue_nothing_step emptyToo,
          .inr ⟨rfl, ⟨[], placed, stores⟩, tooLong⟩⟩
      | cons data rest =>
        exact ⟨_, popElt qs data q, wrapTail (popElt qs data q),
          dequeue_step (dequeueElt_contiguous placed stores),
          dequeue_step (dequeueElt_wrapTail placed stores),
          .inr ⟨rfl, ⟨rest, popElt_contiguous placed,
            popElt_stores stores (.contiguous (popElt_contiguous placed))⟩, tooLong⟩⟩

/-! ## Elements of one size

How many elements of one size are accepted in a row is decided by the bytes before the head and, as
long as the tail has not gone back, by those before the end.
-/

theorem succ_mul_eltSize (n : Nat) (data : Data) :
    ((n + 1 : Nat) : Int) * eltSize qs data = n * eltSize qs data + eltSize qs data ∧
      0 ≤ (n : Int) * eltSize qs data :=
  ⟨by rw [Int.natCast_succ, Int.add_mul, Int.one_mul],
    Int.mul_nonneg (Int.natCast_nonneg n) (eltSize_pos data).le⟩

theorem enqueues_wrapped {front back : List Data} (data : Data) (n : Nat)
    (placed : Wrapped qs q front back) (stores : Stores qs q (front ++ back)) :
    ((queueMachine qs).run q (List.replicate n (.enqueue data))).1 =
        List.replicate n (.accepted data) ↔ n * eltSize qs data ≤ q.head - q.tail := by
  have positive := @eltSize_pos Data qs data
  have apart := placed.apart
  induction n generalizing q back with
  | zero => simpa [Machine.run] using apart
  | succ n ih =>
    have enqueued := enqueueElt_wrapped data placed stores
    obtain ⟨product, rest⟩ := @succ_mul_eltSize _ qs n data
    rw [replicate_succ, replicate_succ, product]
    by_cases fits : eltSize qs data ≤ q.head - q.tail
    · rw [if_pos fits] at enqueued
      rw [Machine.run_cons_ok _ (enqueue_step enqueued)]
      have placedNext := pushElt_wrapped placed fits
      have storesNext := pushElt_stores stores
        (by rw [append_assoc]; exact Layout.wrapped placedNext)
      rw [append_assoc] at storesNext
      have later := ih placedNext storesNext placedNext.apart
      simp only [enqueueEvent, if_true, cons_append, nil_append, List.cons.injEq, true_and]
      refine Iff.trans later ?_
      simp only [pushElt]
      omega
    · rw [if_neg fits] at enqueued
      rw [Machine.run_cons_ok _ (enqueue_step enqueued)]
      refine ⟨fun same => ?_, fun room => absurd room (by omega)⟩
      simp [enqueueEvent] at same

theorem enqueues_contiguous (data : Data) (n : Nat) (placed : Contiguous qs q items)
    (stores : Stores qs q items) (room : n * eltSize qs data ≤ q.head) :
    ((queueMachine qs).run q (List.replicate n (.enqueue data))).1 =
      List.replicate n (.accepted data) := by
  have positive := @eltSize_pos Data qs data
  induction n generalizing q items with
  | zero => rfl
  | succ n ih =>
    have enqueued := enqueueElt_contiguous data placed stores
    obtain ⟨product, rest⟩ := @succ_mul_eltSize _ qs n data
    rw [product] at room
    rw [replicate_succ, replicate_succ]
    by_cases fits : eltSize qs data ≤ q.bufEnd - q.tail
    · rw [if_pos fits] at enqueued
      have placedNext := pushElt_contiguous placed fits
      have storesNext := pushElt_stores stores (.contiguous placedNext)
      rw [Machine.run_cons_ok _ (enqueue_step enqueued),
        ih placedNext storesNext (by simp only [pushElt]; omega)]
      simp [enqueueEvent]
    · -- the tail goes back, and the bytes before the head are enough for all of them
      have notFull : ¬ q.IsFull := by
        have extent := laid_extent placed.laid
        have last := placed.last
        have wall := placed.wall
        have free := stores.free
        unfold Queue.IsFull
        omega
      have before : eltSize qs data ≤ (wrapTail q).head - (wrapTail q).tail := by
        simp only [wrapTail]
        omega
      rw [if_neg fits, if_neg notFull, if_pos (by omega)] at enqueued
      have placedNext := pushElt_wrapped (wrapTail_wrapped placed) before
      have storesNext := pushElt_stores (wrapTail_stores placed stores)
        (by rw [append_assoc]; exact Layout.wrapped placedNext)
      rw [append_assoc] at storesNext
      rw [Machine.run_cons_ok _ (enqueue_step enqueued),
        (enqueues_wrapped data n placedNext storesNext).mpr
          (by simp only [pushElt, wrapTail]; omega)]
      simp [enqueueEvent]

theorem wrapTail_differs (placed : Contiguous qs q items) (stores : Stores qs q items)
    (fits : eltSize qs data ≤ q.bufEnd - q.tail) :
    ∃ later, ((queueMachine qs).run (wrapTail q) later).1 ≠ ((queueMachine qs).run q later).1 := by
  have positive := @eltSize_pos Data qs data
  have first := placed.first
  obtain ⟨n, isCount⟩ := Int.eq_ofNat_of_zero_le (Int.ediv_nonneg first positive.le)
  have below : n * eltSize qs data ≤ q.head := by
    rw [← isCount]
    exact Int.ediv_mul_le _ positive.ne'
  have above : q.head < (n + 1 : Nat) * eltSize qs data := by
    push_cast
    rw [← isCount]
    exact Int.lt_ediv_add_one_mul_self _ positive
  refine ⟨List.replicate (n + 1) (.enqueue data), fun same => ?_⟩
  have enqueued := enqueueElt_contiguous data placed stores
  rw [if_pos fits] at enqueued
  have placedNext := pushElt_contiguous placed fits
  have rest := enqueues_contiguous data n placedNext
    (pushElt_stores stores (.contiguous placedNext)) below
  have all : ((queueMachine qs).run q (List.replicate (n + 1) (.enqueue data))).1 =
      List.replicate (n + 1) (.accepted data) := by
    rw [replicate_succ, Machine.run_cons_ok _ (enqueue_step enqueued), rest, replicate_succ]
    simp [enqueueEvent]
  rw [all] at same
  have room := (enqueues_wrapped data (n + 1) (wrapTail_wrapped placed)
    (wrapTail_stores placed stores)).mp same
  simp only [wrapTail] at room
  omega

/-- In every queue that was made and used, a refused element changes nothing for what comes later
just when the queue was full or wrapped already, or no element at all fits before the end. -/
theorem refusal_without_effect_iff (qs : QueueSerializer Data) (sizeofQueue : Nat) (size : Int)
    (q : Queue) (made : makeQueue sizeofQueue size = .ok (some q)) (ops : List (QueueOp Data))
    (data : Data) :
    ∃ events final accepted next, (queueMachine qs).run q ops = (events, .ok final) ∧
      enqueueElt qs data final = .ok (accepted, next) ∧
      (accepted = false →
        ((∀ later, ((queueMachine qs).run next later).1 = ((queueMachine qs).run final later).1) ↔
          (final.IsFull ∨ final.tail < final.head ∨
            ∀ other, final.bufEnd - final.tail < eltSize qs other))) := by
  obtain ⟨fresh, -⟩ := @makeQueue_stores Data qs sizeofQueue size q made
  obtain ⟨events, final, items, ran, stores⟩ := run_stores fresh ops
  obtain ⟨accepted, next, enqueued, -⟩ := enqueueElt_spec data stores
  refine ⟨events, final, accepted, next, ran, enqueued, ?_⟩
  rintro rfl
  rcases refused_eq stores enqueued with ⟨rfl, unchanged⟩ | ⟨rfl, placed, notFull, ahead, -⟩
  · refine ⟨fun _ => ?_, fun _ _ => rfl⟩
    rcases unchanged with full | wrapped
    · exact .inl full
    · exact .inr (.inl wrapped)
  · constructor
    · intro same
      refine .inr (.inr fun other => ?_)
      by_contra fits
      obtain ⟨later, differs⟩ := wrapTail_differs placed stores (not_lt.mp fits)
      exact differs (same later)
    · intro condition later
      have tooLong : ∀ other, final.bufEnd - final.tail < eltSize qs other := by
        rcases condition with full | wrapped | tooLong
        · exact absurd full notFull
        · omega
        · exact tooLong
      have related : WrappedToo qs final (wrapTail final) :=
        .inr ⟨rfl, ⟨items, placed, stores⟩, tooLong⟩
      exact (@Machine.run_same _ _ _ _ (queueMachine qs) (WrappedToo qs)
        (fun _ _ op related => related.step op) _ _ related later).symm

theorem refusal_without_effect_at_end :
    ∃ q events final next, makeQueue 52 88 = .ok (some q) ∧
      (queueMachine flagSerializer).run q [.enqueue true] = (events, .ok final) ∧
      enqueueElt flagSerializer true final = .ok (false, next) ∧
      ∀ later, ((queueMachine flagSerializer).run next later).1 =
        ((queueMachine flagSerializer).run final later).1 := by
  obtain ⟨events, final, accepted, next, ran, enqueued, same⟩ :=
    refusal_without_effect_iff flagSerializer 52 88 _ rfl [.enqueue true] true
  obtain rfl : _ = final := Except.ok.inj (congrArg Prod.snd ran)
  obtain rfl : false = accepted := congrArg Prod.fst (Except.ok.inj enqueued)
  exact ⟨_, events, _, next, rfl, ran, enqueued,
    (same rfl).mpr (.inr (.inr (by decide +kernel)))⟩

/-- The refused long element moves the wall to the tail, and a short element that would have fitted
behind it is refused as well. -/
theorem refusal_loses_room :
    ∃ q events final next, makeQueue 52 92 = .ok (some q) ∧
      (queueMachine flagSerializer).run q [.enqueue true] = (events, .ok final) ∧
      enqueueElt flagSerializer true final = .ok (false, next) ∧
      ((queueMachine flagSerializer).run final [.enqueue false]).1 = [.accepted false] ∧
      ((queueMachine flagSerializer).run next [.enqueue false]).1 = [.refused false] :=
  ⟨_, _, _, _, rfl, rfl, rfl, rfl, rfl⟩

end TelegraphCQ.ResultQueue
