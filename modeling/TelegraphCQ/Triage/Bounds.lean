import TelegraphCQ.Triage.Conservation

/-!
# The bounds of the triage buffer

The indices at which a step reads or writes the buffer, in the order of the source.  All
of them are between zero and the length of the queue but one: the remainder that
`prev_index` takes in slot 0 is -1, and the punctuation tuple that stands for a dropped
epoch is written there.
-/

namespace TelegraphCQ.Triage

open Foundation List

section Indices

variable {Tuple : Type} (config : TriageConfig Tuple)

def peekIndices (q : TriageQueue Tuple) : List Int :=
  if q.nelem = 0 then [] else [q.nextDequeueIx]

/-- Each round peeks once by itself and once in `drop_oldest`. -/
def dropExpiredIndices : Nat → TriageQueue Tuple → List Int
  | 0, _ => []
  | count + 1, q => peekIndices q ++
      match triagePeek q with
      | none => []
      | some oldest =>
        if heapTupleIsPunct config oldest then []
        else peekIndices q ++
          match dropOldest config q with
          | .error _ => []
          | .ok q => dropExpiredIndices count q

def cleansUp (q : TriageQueue Tuple) (now : Int) : Bool :=
  !(q.haveTs = false ∨ triagePeek q = none) && 0 < overflow config q now

def leftByExpiry (q : TriageQueue Tuple) (now : Int) : Option (TriageQueue Tuple) :=
  if cleansUp config q now then (dropExpired config (overflow config q now).toNat q).toOption
  else none

def emptiedEpoch (q : TriageQueue Tuple) : Bool := numTupsFromCurEpoch config q = 0 ∧ 0 < q.nelem

def punctuateIndices (q : TriageQueue Tuple) : List Int :=
  if emptiedEpoch config q then [prevIndex config q.nextDequeueIx] else []

def cleanupIndices (q : TriageQueue Tuple) (now : Int) : List Int :=
  peekIndices q ++
    (if cleansUp config q now then
      dropExpiredIndices config (overflow config q now).toNat q
    else []) ++ (leftByExpiry config q now).toList.flatMap (punctuateIndices config)

def madeRoom (tup : Tuple) (q : TriageQueue Tuple) : Except TriageFault (TriageQueue Tuple) :=
  if (startEpoch config tup q).nelem = config.qlen then dropOldest config (startEpoch config tup q)
  else .ok (startEpoch config tup q)

def enqueued (tup : Tuple) (q : TriageQueue Tuple) : Except TriageFault (TriageQueue Tuple) := do
  let q ← madeRoom config tup q
  let q ← checkEpoch config (config.timestamp tup) q
  .ok { q with
    buf := Function.update q.buf q.nextEnqueueIx (some (.tuple tup))
    nextEnqueueIx := nextIndex config q.nextEnqueueIx
    nelem := q.nelem + 1 }

def enqueueIndices (tup : Tuple) (q : TriageQueue Tuple) : List Int :=
  (if (startEpoch config tup q).nelem = config.qlen then peekIndices (startEpoch config tup q)
    else []) ++
    match enqueued config tup q with
    | .error _ => []
    | .ok appended =>
      q.nextEnqueueIx :: cleanupIndices config appended (config.timestamp tup)

def advanceIndices (q : TriageQueue Tuple) : Nat → Int → List Int
  | 0, _ => []
  | rounds + 1, index =>
    if index = q.nextEnqueueIx then []
    else index ::
      match q.buf index with
      | none => []
      | some tup =>
        if simpleTsPastWindow config (getTimestampVal config tup) q.epochnum then []
        else advanceIndices q rounds (nextIndex config index)

def summariesIndices (q : TriageQueue Tuple) : List Int :=
  if q.nelem ≠ 0 ∧ q.nextEpochIx = q.nextDequeueIx then
    advanceIndices config { q with keepSum := [], dropSum := [], epochnum := q.epochnum + 1 }
      (config.qlen.toNat + 1) q.nextEpochIx
  else []

def stepIndices (q : TriageQueue Tuple) : TriageOp Tuple → List Int
  | .enqueue tup => enqueueIndices config tup q
  | .dequeue => peekIndices q
  | .cleanup now => cleanupIndices config q now
  | .getSummaries => summariesIndices config q

def InBuffer (index : Int) : Prop := 0 ≤ index ∧ index < config.qlen

/-- The queue before a punctuation tuple is put at its front, if the step gets there. -/
def leftByStep (q : TriageQueue Tuple) : TriageOp Tuple → Option (TriageQueue Tuple)
  | .enqueue tup =>
    (enqueued config tup q).toOption.bind (leftByExpiry config · (config.timestamp tup))
  | .cleanup now => leftByExpiry config q now
  | .dequeue | .getSummaries => none

def StaysInside (q : TriageQueue Tuple) (op : TriageOp Tuple) : Prop :=
  ∀ left ∈ leftByStep config q op, emptiedEpoch config left = true → left.nextDequeueIx ≠ 0

instance (q : TriageQueue Tuple) (op : TriageOp Tuple) : Decidable (StaysInside config q op) :=
  inferInstanceAs (Decidable (∀ left ∈ leftByStep config q op, _ → _))

def CountExact (q : TriageQueue Tuple) : Prop :=
  0 ≤ q.nelem ∧ q.nelem ≤ config.qlen ∧
    q.nelem = if q.nelem = config.qlen then config.qlen
      else (q.nextEnqueueIx - q.nextDequeueIx) % config.qlen

end Indices

section Bounds

variable {Tuple : Type} {config : TriageConfig Tuple} {q left : TriageQueue Tuple}
  {items : List (Queued Tuple)} {index now : Int}

theorem inBuffer_nextIndex (long : 0 < config.qlen) (inside : 0 ≤ index) :
    InBuffer config (nextIndex config index) := by
  rw [nextIndex_eq (by omega)]
  exact place_nonneg long one_pos

theorem inBuffer_peek (inside : InBuffer config q.nextDequeueIx) :
    ∀ index ∈ peekIndices q, InBuffer config index := by
  intro index isIndex
  unfold peekIndices at isIndex
  split_ifs at isIndex with empty
  · cases isIndex
  · rwa [mem_singleton.mp isIndex]

theorem dropOldest_front (ran : dropOldest config q = .ok left) :
    left.nextDequeueIx = nextIndex config q.nextDequeueIx := by
  unfold dropOldest at ran
  split at ran
  · cases ran
  · split_ifs at ran
    cases ran
    rfl

theorem inBuffer_dropExpired (long : 0 < config.qlen) (count : Nat)
    (inside : InBuffer config q.nextDequeueIx) :
    ∀ index ∈ dropExpiredIndices config count q, InBuffer config index := by
  induction count generalizing q with
  | zero => simp [dropExpiredIndices]
  | succ count ih =>
    have peeked := inBuffer_peek inside
    intro index isIndex
    rw [dropExpiredIndices, mem_append] at isIndex
    rcases isIndex with first | rest
    · exact peeked index first
    split at rest
    · cases rest
    split_ifs at rest with punct
    · cases rest
    rcases mem_append.mp rest with again | later
    · exact peeked index again
    split at later
    · cases later
    next dropped ran =>
      refine ih ?_ index later
      rw [dropOldest_front ran]
      exact inBuffer_nextIndex long inside.1

theorem leftByExpiry_spec (holds : QueueHolds config q items)
    (inside : 0 ≤ q.nextDequeueIx) (isLeft : left ∈ leftByExpiry config q now) :
    triageCleanupExpiredTuples config q now = .ok (punctuateEpoch config left) ∧
      InBuffer config left.nextDequeueIx ∧ (emptiedEpoch config left = true → 1 < config.qlen) := by
  unfold leftByExpiry at isLeft
  split_ifs at isLeft with cleans
  · rw [cleansUp, Bool.and_eq_true, Bool.not_eq_true', decide_eq_false_iff_not,
      decide_eq_true_iff] at cleans
    have enough : 0 < config.epochLen → (overflow config q now).toNat ≤ items.length := by
      intro lengths
      have bound := holds.numTups_le lengths
      unfold overflow
      omega
    have dropped := dropExpired_spec holds enough
    cases ran : dropExpired config (overflow config q now).toNat q with
    | error fault => simp [ran, Except.toOption] at isLeft
    | ok value =>
      obtain rfl : value = left := by simpa [ran, Except.toOption] using isLeft
      rw [ran] at dropped
      obtain ⟨-, rest, -, holdsLeft, -, same⟩ := dropped
      refine ⟨?_, ?_, ?_⟩
      · rw [triageCleanupExpiredTuples, if_neg cleans.1, if_pos cleans.2, ran]
        rfl
      · refine ⟨?_, holdsLeft.below⟩
        rcases same with rfl | moved
        · exact inside
        · exact moved.1
      · intro emptied
        obtain ⟨noTups, more⟩ := of_decide_eq_true emptied
        rcases same with rfl | moved
        · -- the epoch still has the tuples that were to be dropped
          have late := cleans.2
          unfold overflow at late
          omega
        · omega
  · cases isLeft

theorem inBuffer_punctuate_iff (inside : InBuffer config left.nextDequeueIx)
    (room : emptiedEpoch config left = true → 1 < config.qlen) :
    (∀ index ∈ punctuateIndices config left, InBuffer config index) ↔
      (emptiedEpoch config left = true → left.nextDequeueIx ≠ 0) := by
  obtain ⟨nonneg, below⟩ := inside
  unfold punctuateIndices
  split_ifs with emptied
  · rw [forall_mem_singleton, prevIndex_eq nonneg below (room emptied), InBuffer]
    simp only [emptied, forall_const]
    omega
  · simp [emptied]

theorem inBuffer_cleanup_iff (positive : 0 < config.qlen) (holds : QueueHolds config q items)
    (inside : 0 ≤ q.nextDequeueIx) (now : Int) :
    (∀ index ∈ cleanupIndices config q now, InBuffer config index) ↔
      ∀ left ∈ leftByExpiry config q now,
        emptiedEpoch config left = true → left.nextDequeueIx ≠ 0 := by
  have front : InBuffer config q.nextDequeueIx := ⟨inside, holds.below⟩
  have dropping : ∀ index ∈ (if cleansUp config q now then
      dropExpiredIndices config (overflow config q now).toNat q else []),
      InBuffer config index := by
    split_ifs
    · exact inBuffer_dropExpired positive _ front
    · simp
  rw [cleanupIndices, forall_mem_append, forall_mem_append]
  refine (and_iff_right ⟨inBuffer_peek front, dropping⟩).trans ⟨?_, ?_⟩
  · intro all left isLeft
    obtain ⟨-, frontLeft, room⟩ := leftByExpiry_spec holds inside isLeft
    apply (inBuffer_punctuate_iff frontLeft room).mp
    intro index isIndex
    exact all index (mem_flatMap.mpr ⟨left, Option.mem_toList.mpr isLeft, isIndex⟩)
  · intro all index isIndex
    obtain ⟨left, isLeft, punctuates⟩ := mem_flatMap.mp isIndex
    have isLeft := Option.mem_toList.mp isLeft
    obtain ⟨-, frontLeft, room⟩ := leftByExpiry_spec holds inside isLeft
    exact (inBuffer_punctuate_iff frontLeft room).mpr (all left isLeft) index punctuates

def HoldsInside (config : TriageConfig Tuple) (q : TriageQueue Tuple) : Prop :=
  (∃ items, QueueHolds config q items) ∧ 0 ≤ q.nextDequeueIx

theorem cleanup_inside (inside : HoldsInside config q) (stays : ∀ left ∈ leftByExpiry config q now,
      emptiedEpoch config left = true → left.nextDequeueIx ≠ 0) {next : TriageQueue Tuple}
    (ran : triageCleanupExpiredTuples config q now = .ok next) : HoldsInside config next := by
  obtain ⟨⟨items, holds⟩, nonneg⟩ := inside
  have cleaned := cleanup_spec holds now
  rw [ran] at cleaned
  obtain ⟨-, -, items', -, -, holdsNext, -⟩ := cleaned
  refine ⟨⟨items', holdsNext⟩, ?_⟩
  cases expiry : leftByExpiry config q now with
  | some left =>
    have isLeft : left ∈ leftByExpiry config q now := expiry
    obtain ⟨cleans, ⟨frontLeft, below⟩, room⟩ := leftByExpiry_spec holds nonneg isLeft
    cases ran.symm.trans cleans
    unfold punctuateEpoch
    split_ifs with emptied
    · have emptied : emptiedEpoch config left = true := decide_eq_true emptied
      have behind := stays left isLeft emptied
      simp only [prevIndex_eq frontLeft below (room emptied)]
      omega
    · exact frontLeft
  | none =>
    rw [leftByExpiry] at expiry
    unfold triageCleanupExpiredTuples at ran
    split_ifs at ran with idle late
    · cases ran
      exact nonneg
    · obtain ⟨dropped, dropping, -⟩ := exists_of_bind_ok ran
      rw [if_pos (by simp [cleansUp, idle, late]), dropping] at expiry
      cases expiry
    · cases ran
      exact nonneg

theorem triageEnqueue_eq (tup : Tuple) (q : TriageQueue Tuple) :
    triageEnqueue config tup q = enqueued config tup q >>= fun appended =>
      triageCleanupExpiredTuples config appended (config.timestamp tup) := by
  simp only [triageEnqueue, enqueued, madeRoom, appendTuple, bind_assoc]
  split_ifs
  · rfl
  · rfl

section

variable (positive : 0 < config.qlen)
include positive

theorem enqueued_inside (tup : Tuple) (inside : HoldsInside config q) {appended : TriageQueue Tuple}
    (ran : enqueued config tup q = .ok appended) : HoldsInside config appended := by
  obtain ⟨⟨items, holds⟩, nonneg⟩ := inside
  obtain ⟨holdsStarted, started⟩ := startEpoch_spec holds tup
  have frontStarted : 0 ≤ (startEpoch config tup q).nextDequeueIx := by
    unfold startEpoch
    split_ifs <;> exact nonneg
  obtain ⟨dropped, dropping, ran⟩ := exists_of_bind_ok ran
  obtain ⟨checked, checking, ran⟩ := exists_of_bind_ok ran
  cases ran
  have room : (∃ items, QueueHolds config dropped items) ∧ dropped.haveTs = true ∧
      0 ≤ dropped.nextDequeueIx ∧ dropped.nelem < config.qlen := by
    unfold madeRoom at dropping
    split_ifs at dropping with full
    · cases items with
      | nil =>
        have count := holdsStarted.count
        simp only [length_nil] at count
        omega
      | cons oldest items =>
        have drops := dropOldest_spec holdsStarted
        rw [dropping] at drops
        obtain ⟨holdsDropped, sheds, front, room⟩ := drops
        exact ⟨⟨_, holdsDropped⟩, sheds.haveTs.trans started, front, room⟩
    · cases dropping
      have room := holdsStarted.room
      exact ⟨⟨_, holdsStarted⟩, started, frontStarted, by omega⟩
  obtain ⟨⟨_, holdsDropped⟩, startedDropped, front, room⟩ := room
  have checks := checkEpoch_spec holdsDropped startedDropped room tup
  rw [checking] at checks
  refine ⟨⟨_, checks.1⟩, ?_⟩
  unfold checkEpoch at checking
  split_ifs at checking <;> cases checking <;> exact front

theorem inBuffer_advance (q : TriageQueue Tuple) (rounds : Nat) (inside : InBuffer config index) :
    ∀ read ∈ advanceIndices config q rounds index, InBuffer config read := by
  induction rounds generalizing index with
  | zero => simp [advanceIndices]
  | succ rounds ih =>
    unfold advanceIndices
    split_ifs with atEnd
    · simp
    · rw [forall_mem_cons]
      refine ⟨inside, ?_⟩
      split
      · simp
      · split_ifs
        · simp
        · exact ih (inBuffer_nextIndex positive inside.1)

theorem inBuffer_step_iff (op : TriageOp Tuple) (inside : HoldsInside config q) :
    (∀ index ∈ stepIndices config q op, InBuffer config index) ↔ StaysInside config q op := by
  obtain ⟨⟨items, holds⟩, nonneg⟩ := inside
  have front : InBuffer config q.nextDequeueIx := ⟨nonneg, holds.below⟩
  cases op with
  | cleanup now => exact inBuffer_cleanup_iff positive holds nonneg now
  | dequeue => simpa [stepIndices, StaysInside, leftByStep] using inBuffer_peek front
  | getSummaries =>
    have inside : ∀ index ∈ summariesIndices config q, InBuffer config index := by
      unfold summariesIndices
      split_ifs with ready
      · rw [ready.2]
        exact inBuffer_advance positive _ _ front
      · simp
    simpa [stepIndices, StaysInside, leftByStep] using inside
  | enqueue tup =>
    have frontStarted : InBuffer config (startEpoch config tup q).nextDequeueIx := by
      unfold startEpoch
      split_ifs <;> exact front
    have dropping : ∀ index ∈ (if (startEpoch config tup q).nelem = config.qlen then
        peekIndices (startEpoch config tup q) else []), InBuffer config index := by
      split_ifs
      · exact inBuffer_peek frontStarted
      · simp
    rw [stepIndices, enqueueIndices, forall_mem_append]
    refine (and_iff_right dropping).trans ?_
    cases ran : enqueued config tup q with
    | error fault => simp [StaysInside, leftByStep, ran, Except.toOption]
    | ok appended =>
      obtain ⟨⟨_, holdsAppended⟩, nonnegAppended⟩ :=
        enqueued_inside positive tup ⟨⟨items, holds⟩, nonneg⟩ ran
      have back : InBuffer config q.nextEnqueueIx := by
        rw [holds.back]
        exact ⟨Int.emod_nonneg _ positive.ne', Int.emod_lt_of_pos _ positive⟩
      rw [forall_mem_cons]
      simp only [back, true_and, StaysInside, leftByStep, ran]
      exact inBuffer_cleanup_iff positive holdsAppended nonnegAppended _

theorem step_inside (op : TriageOp Tuple) {next : TriageQueue Tuple} (inside : HoldsInside config q)
    (stays : StaysInside config q op) (stepped : ((triageMachine config).step q op).2 = .ok next) :
    HoldsInside config next := by
  cases op with
  | cleanup now => exact cleanup_inside inside stays stepped
  | enqueue tup =>
    have stepped : triageEnqueue config tup q = .ok next := stepped
    rw [triageEnqueue_eq] at stepped
    obtain ⟨appended, ran, cleaned⟩ := exists_of_bind_ok stepped
    refine cleanup_inside (enqueued_inside positive tup inside ran) ?_ cleaned
    intro left isLeft
    exact stays left (by simpa [leftByStep, ran, Except.toOption] using isLeft)
  | dequeue =>
    obtain ⟨⟨items, holds⟩, nonneg⟩ := inside
    have dequeued := dequeue_spec holds
    simp only [triageMachine, triageStep] at stepped
    cases ran : triageDequeue config q with
    | error fault =>
      rw [ran] at stepped
      cases stepped
    | ok result =>
      rw [ran] at stepped dequeued
      cases stepped
      rcases dequeued with ⟨-, same⟩ | ⟨item, rest, next, -, same, dequeued⟩
      · rw [same]
        exact ⟨⟨items, holds⟩, nonneg⟩
      · rw [same]
        exact ⟨⟨rest, dequeued.1⟩, dequeued.2.2.2.2.2.2⟩
  | getSummaries =>
    obtain ⟨⟨items, holds⟩, nonneg⟩ := inside
    have extracted := getSummaries_spec holds
    simp only [triageMachine, triageStep] at stepped
    cases ran : triageGetSummaries config q with
    | error fault =>
      rw [ran] at stepped
      cases stepped
    | ok result =>
      rw [ran] at stepped extracted
      cases stepped
      exact ⟨⟨items, extracted.2.1⟩, by rwa [extracted.2.2.2.2.2]⟩

end

theorem QueueHolds.countExact (holds : QueueHolds config q items) : CountExact config q := by
  have count := holds.count
  have room := holds.room
  refine ⟨by omega, room, ?_⟩
  split_ifs with full
  · exact full
  · rw [holds.back, Int.emod_sub_emod, Int.emod_eq_of_lt]
    all_goals omega

end Bounds

/-- The indices of a run stay in the buffer, and the count is that of the positions,
exactly if no epoch is dropped as a whole while the next one begins in slot 0. -/
theorem buffer_bounds_iff {Tuple : Type} (config : TriageConfig Tuple)
    (positive : 1 ≤ config.qlen) (ops : List (TriageOp Tuple)) :
    ((triageMachine config).Guarded (fun q op =>
        ∀ index ∈ stepIndices config q op, InBuffer config index) triageCreate ops ∧
      (triageMachine config).Throughout (CountExact config) triageCreate ops) ↔
      (triageMachine config).Guarded (StaysInside config) triageCreate ops := by
  have start : HoldsInside config triageCreate := ⟨⟨[], created_holds positive⟩, le_rfl⟩
  have kept : ∀ q op next, HoldsInside config q → StaysInside config q op →
      ((triageMachine config).step q op).2 = .ok next → HoldsInside config next :=
    fun q op next => step_inside positive op
  have same := (triageMachine config).guarded_congr
    (fun q op => inBuffer_step_iff positive op) kept start ops
  refine (and_congr_left fun _ => same).trans (and_iff_left_of_imp fun guarded => ?_)
  apply ((triageMachine config).throughout_of_along kept start guarded.along).mono
  rintro q ⟨⟨items, holds⟩, -⟩
  exact holds.countExact

/-- The epoch's tuple is dropped from slot 0, and its punctuation is put there. -/
theorem punctuation_in_slot_zero :
    1 ≤ tensOfTime.qlen ∧
      (triageMachine tensOfTime).Guarded (fun q op =>
        ∀ index ∈ stepIndices tensOfTime q op, InBuffer tensOfTime index) triageCreate
        [.enqueue 5, .enqueue 15, .cleanup 2000000] ∧
      (triageMachine tensOfTime).Throughout (CountExact tensOfTime) triageCreate
        [.enqueue 5, .enqueue 15, .cleanup 2000000] :=
  ⟨by decide, (buffer_bounds_iff tensOfTime (by decide) _).mpr (by decide)⟩

/-- The epoch's last tuple is dropped from slot 1, the next epoch begins in slot 0, and the
punctuation tuple is written in front of the buffer. -/
theorem punctuation_before_buffer :
    ∃ outs q, (triageMachine tensOfTime).run triageCreate
        [.enqueue 1, .dequeue, .enqueue 2, .enqueue 15] = (outs, .ok q) ∧
      -1 ∈ stepIndices tensOfTime q (.cleanup 2000000) :=
  ⟨_, _, rfl, by decide⟩

end TelegraphCQ.Triage
