import Mathlib.Data.List.TakeWhile
import TelegraphCQ.Triage.Clearinghouse

/-!
# The queue in phase with its epoch

What is queued is in phase with the current epoch if the tuples before the index of the
next epoch are of the current one, and those from there on are of later ones.  A
punctuation tuple that stands for an emptied epoch counts for the current one.
-/

namespace TelegraphCQ.Triage

open Foundation Window List

section InPhase

variable {Tuple : Type} {config : TriageConfig Tuple} {q next : TriageQueue Tuple}
  {item : Queued Tuple} {current later : List (Queued Tuple)} {tup : Tuple}

theorem past_iff {ts : Int} (regular : Regular config ts) (epochnum : Int) :
    simpleTsPastWindow config ts epochnum = true ↔ epochnum < windowNo config ts := by
  obtain ⟨begun, unfinished⟩ := (inWindow_windowNo_iff ts).mpr regular
  have positive : 0 < config.epochs.slideBy := regular.1
  have ends : ∀ n, windowEnd config.epochs n = windowBegin config.epochs (n + 1) := by
    intro n
    rw [windowBegin_succ]
    rfl
  rw [ends] at unfinished
  simp only [simpleTsPastWindow, timestampPastWindow, Bool.not_eq_true', decide_eq_false_iff_not,
    not_lt, ends]
  constructor
  · intro passed
    have := (not_le.mp fun least => absurd unfinished
      (not_lt.mpr (((windowBegin_le_iff positive).mpr least).trans passed)))
    omega
  · intro before
    exact ((windowBegin_le_iff positive).mpr (by omega)).trans begun

theorem windowNo_mono {first second : Int} (regularFirst : Regular config first)
    (regularSecond : Regular config second) (before : first ≤ second) :
    windowNo config first ≤ windowNo config second := by
  by_contra less
  have passed := (past_iff regularFirst (windowNo config second)).mpr (not_le.mp less)
  have overSecond : simpleTsPastWindow config second (windowNo config second) = true := by
    simp only [simpleTsPastWindow, timestampPastWindow, Bool.not_eq_true',
      decide_eq_false_iff_not, not_lt] at passed ⊢
    exact passed.trans before
  exact absurd ((past_iff regularSecond _).mp overSecond) (lt_irrefl _)

structure InPhase (config : TriageConfig Tuple) (q : TriageQueue Tuple)
    (current later : List (Queued Tuple)) : Prop where
  holds : QueueHolds config q (current ++ later)
  index : q.nextEpochIx =
    if later.isEmpty then notAnIndex else place config.qlen q.nextDequeueIx current.length
  inEpoch : ∀ item ∈ current, windowNo config (getTimestampVal config item) = q.epochnum ∨
    ∃ ts, item = .punctuation ts
  ahead : ∀ item ∈ later, Regular config (getTimestampVal config item) ∧
    q.epochnum < windowNo config (getTimestampVal config item)
  tuples : ∀ item ∈ later, ∃ tup, item = .tuple tup

variable (positive : 0 < config.epochLen) (phase : InPhase config q current later)

include positive phase in
theorem InPhase.index_ne (more : later ≠ []) : q.nextEpochIx ≠ notAnIndex := by
  have index := phase.index
  rw [if_neg (by simpa using more)] at index
  intro isNone
  rcases phase.holds.boundary positive with ⟨-, inside⟩ | ⟨_, _, -, nonneg, -⟩
  · rw [isNone, notAnIndex] at index
    by_cases first : current.length = 0
    · rw [place, if_pos first] at index
      omega
    · have := (@place_nonneg config.qlen q.nextDequeueIx
        (by have := phase.holds.below; omega) _ (Nat.pos_of_ne_zero first)).1
      omega
  · rw [isNone, notAnIndex] at nonneg
    omega

include positive phase in
theorem InPhase.numTups : numTupsFromCurEpoch config q = current.length := by
  by_cases more : later = []
  · have index := phase.index
    have count := phase.holds.count
    rw [more] at index count
    rw [numTupsFromCurEpoch, if_pos (by simpa using index), count]
    simp
  · have index := phase.index
    rw [if_neg (by simpa using more)] at index
    have room := phase.holds.room
    rw [phase.holds.count, length_append] at room
    have := length_pos_iff.mpr more
    rw [numTupsFromCurEpoch, if_neg (phase.index_ne positive more), index,
      indexDiff_place phase.holds.above phase.holds.below (by omega)]

theorem InPhase.remove (phase : InPhase config q (item :: current) later)
    (holdsNext : QueueHolds config next (current ++ later))
    (epochnum : next.epochnum = q.epochnum) (nextEpochIx : next.nextEpochIx = q.nextEpochIx)
    (nextDequeueIx : next.nextDequeueIx = nextIndex config q.nextDequeueIx) :
    InPhase config next current later where
  holds := holdsNext
  index := by
    rw [nextEpochIx, phase.index, nextDequeueIx, nextIndex_eq phase.holds.above, place_next]
    rfl
  inEpoch := by
    rw [epochnum]
    exact fun other isOther => phase.inEpoch other (mem_cons_of_mem _ isOther)
  ahead := by
    rw [epochnum]
    exact phase.ahead
  tuples := phase.tuples

theorem InPhase.dropOldest (phase : InPhase config q (item :: current) later)
    (inEpoch : windowNo config (getTimestampVal config item) = q.epochnum) :
    ∃ next, Triage.dropOldest config q = .ok next ∧ InPhase config next current later ∧
      next.epochnum = q.epochnum ∧ next.haveTs = q.haveTs ∧
      0 ≤ next.nextDequeueIx ∧ next.nelem < config.qlen := by
  have ends := @dropOldest_spec _ config q item (current ++ later) phase.holds
  have peek : triagePeek q = some item := phase.holds.peek_eq
  have ran : Triage.dropOldest config q = .ok
      { q with
        dropSum := q.dropSum ++ [item]
        nextDequeueIx := nextIndex config q.nextDequeueIx
        nelem := q.nelem - 1 } := by
    simp [Triage.dropOldest, peek, inEpoch]
  rw [ran] at ends
  obtain ⟨holdsNext, -, inside, room⟩ := ends
  exact ⟨_, ran, phase.remove holdsNext rfl rfl rfl, rfl, rfl, inside, room⟩

include phase in
theorem InPhase.dropExpired {count : Nat} (enough : count ≤ current.length) :
    ∃ next rest, Triage.dropExpired config count q = .ok next ∧
      InPhase config next rest later ∧ next.epochnum = q.epochnum ∧ next.haveTs = q.haveTs ∧
      (next = q ∨ 0 ≤ next.nextDequeueIx ∧ next.nelem < config.qlen) := by
  induction count generalizing q current with
  | zero => exact ⟨q, current, rfl, phase, rfl, rfl, .inl rfl⟩
  | succ count ih =>
    cases current with
    | nil => simp at enough
    | cons item current =>
      have peek : triagePeek q = some item := phase.holds.peek_eq
      by_cases punct : heapTupleIsPunct config item = true
      · refine ⟨q, item :: current, ?_, phase, rfl, rfl, .inl rfl⟩
        simp [Triage.dropExpired, peek, punct]
      · have inEpoch : windowNo config (getTimestampVal config item) = q.epochnum := by
          rcases phase.inEpoch item mem_cons_self with inEpoch | ⟨ts, rfl⟩
          · exact inEpoch
          · exact absurd rfl punct
        obtain ⟨dropped, ranDrop, phaseDropped, sameEpoch, sameStart, moved⟩ :=
          phase.dropOldest inEpoch
        obtain ⟨next, rest, ran, phaseNext, epochNext, startNext, movedNext⟩ :=
          ih phaseDropped (by simpa using enough)
        refine ⟨next, rest, ?_, phaseNext, epochNext.trans sameEpoch,
          startNext.trans sameStart, .inr ?_⟩
        · simp [Triage.dropExpired, peek, punct, ranDrop, ran, bind, Except.bind]
        · rcases movedNext with rfl | movedNext
          · exact moved
          · exact movedNext

include positive phase in
theorem InPhase.punctuateEpoch (inside : 0 ≤ q.nextDequeueIx) (room : q.nelem < config.qlen) :
    ∃ now, InPhase config (Triage.punctuateEpoch config q) now later ∧
      (Triage.punctuateEpoch config q).epochnum = q.epochnum ∧
      (Triage.punctuateEpoch config q).haveTs = q.haveTs := by
  by_cases emptied : numTupsFromCurEpoch config q = 0 ∧ 0 < q.nelem
  · obtain ⟨items, punctuated, holdsNext, -⟩ := punctuateEpoch_spec phase.holds inside room
    have noTups := emptied.1
    rw [phase.numTups positive] at noTups
    obtain rfl : current = [] := by simpa using noTups
    have more : later ≠ [] := by
      rintro rfl
      have := phase.holds.count
      simp at this
      omega
    have below := phase.holds.below
    have previous := @prevIndex_eq _ config _ inside below (by omega)
    have unfolded : Triage.punctuateEpoch config q =
        { q with
          nextDequeueIx := prevIndex config q.nextDequeueIx
          buf := Function.update q.buf (prevIndex config q.nextDequeueIx)
            (some (.punctuation (simpleWindowEnd config q.epochnum - 1)))
          nelem := q.nelem + 1 } := by
      rw [Triage.punctuateEpoch, if_pos emptied]
    have isMore : items ≠ later := by
      rintro rfl
      have count := holdsNext.count
      rw [unfolded] at count
      have := phase.holds.count
      simp only [nil_append] at this count
      omega
    obtain ⟨ts, rfl⟩ : ∃ ts, items = .punctuation ts :: later :=
      punctuated.resolve_left isMore
    refine ⟨[.punctuation ts], ⟨holdsNext, ?_, ?_, ?_, phase.tuples⟩, by rw [unfolded],
      by rw [unfolded]⟩
    · have index := phase.index
      rw [unfolded]
      simp only [index, previous, more, List.isEmpty_iff, if_false, List.length_nil,
        List.length_singleton, place, if_true, one_ne_zero]
      simpa using (Int.emod_eq_of_lt inside below).symm
    · exact fun other isOther => .inr ⟨ts, List.mem_singleton.mp isOther⟩
    · rw [unfolded]
      exact phase.ahead
  · have unchanged : Triage.punctuateEpoch config q = q := if_neg emptied
    rw [unchanged]
    exact ⟨current, phase, rfl, rfl⟩

include positive phase in
theorem InPhase.cleanup (now : Int) :
    ∃ next rest, triageCleanupExpiredTuples config q now = .ok next ∧
      InPhase config next rest later ∧ next.epochnum = q.epochnum ∧ next.haveTs = q.haveTs := by
  by_cases idle : q.haveTs = false ∨ triagePeek q = none
  · exact ⟨q, current, by simp [triageCleanupExpiredTuples, idle], phase, rfl, rfl⟩
  by_cases late : 0 < overflow config q now
  · have numTups := phase.numTups positive
    have enough : (overflow config q now).toNat ≤ current.length := by
      unfold overflow
      omega
    obtain ⟨dropped, rest, ranDrop, phaseDropped, sameEpoch, sameStart, moved⟩ :=
      phase.dropExpired enough
    have ran : triageCleanupExpiredTuples config q now =
        .ok (Triage.punctuateEpoch config dropped) := by
      simp [triageCleanupExpiredTuples, idle, late, ranDrop, bind, Except.bind]
    rcases moved with rfl | ⟨inside, room⟩
    · -- the epoch still has the tuples that were to be dropped
      have unpunctuated : Triage.punctuateEpoch config dropped = dropped := by
        rw [Triage.punctuateEpoch, if_neg]
        unfold overflow at late
        omega
      exact ⟨dropped, rest, by rw [ran, unpunctuated], phaseDropped, rfl, rfl⟩
    · obtain ⟨standing, phaseNext, epochNext, startNext⟩ :=
        phaseDropped.punctuateEpoch positive inside room
      exact ⟨_, standing, ran, phaseNext, epochNext.trans sameEpoch, startNext.trans sameStart⟩
  · exact ⟨q, current, by simp [triageCleanupExpiredTuples, idle, late], phase, rfl, rfl⟩

include positive phase in
theorem InPhase.append (started : q.haveTs = true) (room : q.nelem < config.qlen)
    (regular : Regular config (config.timestamp tup))
    (notBefore : q.epochnum ≤ windowNo config (config.timestamp tup))
    (inOrder : ∀ item ∈ later, getTimestampVal config item ≤ config.timestamp tup) :
    ∃ next current' later', appendTuple config tup q = .ok next ∧
      InPhase config next current' later' ∧ next.haveTs = true := by
  have ends := @checkEpoch_spec _ config q _ phase.holds started room tup
  have checked : ∃ mid current' later', checkEpoch config (config.timestamp tup) q = .ok mid ∧
      InPhase config
        { mid with
          buf := Function.update mid.buf mid.nextEnqueueIx (some (.tuple tup))
          nextEnqueueIx := nextIndex config mid.nextEnqueueIx
          nelem := mid.nelem + 1 } current' later' ∧ mid.haveTs = true := by
    by_cases more : later = []
    · have noIndex : q.nextEpochIx = notAnIndex := by simpa [more] using phase.index
      rcases notBefore.lt_or_eq with after | same
      · -- the first tuple of a later epoch
        have past := (past_iff regular q.epochnum).mpr after
        have ran : checkEpoch config (config.timestamp tup) q =
            .ok { q with nextEpochIx := q.nextEnqueueIx } := by
          simp [checkEpoch, noIndex, past]
        rw [ran] at ends
        refine ⟨_, current, [.tuple tup], ran, ⟨?_, ?_, phase.inEpoch, ?_, ?_⟩, started⟩
        · simpa [more] using ends.1
        · have back := phase.holds.back_place.1
          rw [more, append_nil] at back
          simpa using back
        · exact forall_mem_singleton.mpr ⟨regular, after⟩
        · exact forall_mem_singleton.mpr ⟨tup, rfl⟩
      · have notPast : simpleTsPastWindow config (config.timestamp tup) q.epochnum = false := by
          rw [same]
          exact (windowNo_eq positive _).2
        have ran : checkEpoch config (config.timestamp tup) q = .ok q := by
          simp [checkEpoch, noIndex, notPast, ← same]
        rw [ran] at ends
        refine ⟨q, current ++ [.tuple tup], [], ran, ⟨?_, noIndex, ?_, ?_, ?_⟩, started⟩
        · simpa [more] using ends.1
        · exact forall_mem_append.mpr
            ⟨phase.inEpoch, forall_mem_singleton.mpr (.inl same.symm)⟩
        · exact forall_mem_nil _
        · exact forall_mem_nil _
    · have ran : checkEpoch config (config.timestamp tup) q = .ok q := by
        simp [checkEpoch, phase.index_ne positive more]
      rw [ran] at ends
      refine ⟨q, current, later ++ [.tuple tup], ran, ⟨?_, ?_, phase.inEpoch, ?_, ?_⟩, started⟩
      · simpa using ends.1
      · simpa [more] using phase.index
      · refine forall_mem_append.mpr ⟨phase.ahead, forall_mem_singleton.mpr ⟨regular, ?_⟩⟩
        obtain ⟨head, rest, rfl⟩ := exists_cons_of_ne_nil more
        obtain ⟨regularHead, after⟩ := phase.ahead head mem_cons_self
        exact after.trans_le (windowNo_mono regularHead regular (inOrder head mem_cons_self))
      · exact forall_mem_append.mpr ⟨phase.tuples, forall_mem_singleton.mpr ⟨tup, rfl⟩⟩
  obtain ⟨mid, current', later', ranCheck, phaseMid, startedMid⟩ := checked
  obtain ⟨next, rest, ranCleanup, phaseNext, -, sameStart⟩ :=
    phaseMid.cleanup positive (config.timestamp tup)
  refine ⟨next, rest, later', ?_, phaseNext, sameStart.trans startedMid⟩
  simp [appendTuple, ranCheck, ranCleanup, bind, Except.bind]

include positive phase in
theorem InPhase.enqueue (regular : Regular config (config.timestamp tup))
    (notBefore : q.haveTs = true → q.epochnum ≤ windowNo config (config.timestamp tup))
    (inOrder : ∀ item ∈ later, getTimestampVal config item ≤ config.timestamp tup)
    (long : 0 < config.qlen)
    (atFront : q.nelem = config.qlen → ∃ item rest, current = item :: rest ∧
      windowNo config (getTimestampVal config item) = q.epochnum) :
    ∃ next current' later', triageEnqueue config tup q = .ok next ∧
      InPhase config next current' later' := by
  by_cases started : q.haveTs = true
  · have same : startEpoch config tup q = q := if_pos started
    by_cases full : q.nelem = config.qlen
    · obtain ⟨item, rest, rfl, inEpoch⟩ := atFront full
      obtain ⟨dropped, ranDrop, phaseDropped, sameEpoch, sameStart, -, room⟩ :=
        phase.dropOldest inEpoch
      obtain ⟨next, current', later', ran, phaseNext, -⟩ := phaseDropped.append positive
        (sameStart.trans started) room regular (by rw [sameEpoch]; exact notBefore started)
        inOrder
      refine ⟨next, current', later', ?_, phaseNext⟩
      simp [triageEnqueue, same, full, ranDrop, ran, bind, Except.bind]
    · obtain ⟨next, current', later', ran, phaseNext, -⟩ := phase.append positive started
        (phase.holds.room.lt_of_ne full) regular (notBefore started) inOrder
      refine ⟨next, current', later', ?_, phaseNext⟩
      simp [triageEnqueue, same, full, ran]
  · -- the first tuple sets the epoch of a queue that is still empty
    have isEmpty := (phase.holds.unstarted (by simpa using started)).1
    obtain ⟨rfl, rfl⟩ := append_eq_nil_iff.mp isEmpty
    obtain ⟨holdsStarted, nowStarted⟩ := startEpoch_spec phase.holds tup
    have fields : startEpoch config tup q =
        { q with epochnum := windowNo config (config.timestamp tup), haveTs := true } :=
      if_neg started
    have phaseStarted : InPhase config (startEpoch config tup q) [] [] := by
      refine ⟨holdsStarted, ?_, forall_mem_nil _, forall_mem_nil _, phase.tuples⟩
      rw [fields]
      exact phase.index
    have count : (startEpoch config tup q).nelem = 0 := holdsStarted.count
    obtain ⟨next, current', later', ran, phaseNext, -⟩ := phaseStarted.append positive
      nowStarted (by omega) regular (by rw [fields]) inOrder
    refine ⟨next, current', later', ?_, phaseNext⟩
    rw [triageEnqueue, if_neg (by omega), ran]

theorem InPhase.dequeue (phase : InPhase config q (item :: current) later)
    (inEpoch : windowNo config (getTimestampVal config item) = q.epochnum) :
    ∃ next, triageDequeue config q = .ok (some item, next) ∧
      InPhase config next current later := by
  have ends := @dequeue_spec _ config q (item :: current ++ later) phase.holds
  have count := phase.holds.count
  have notEmpty : ¬ q.nelem = 0 := by
    rw [count]
    simp
    omega
  have front : q.buf q.nextDequeueIx = some item := phase.holds.occupies.head
  have ran : triageDequeue config q = .ok (some item,
      { q with
        nextDequeueIx := nextIndex config q.nextDequeueIx
        nelem := q.nelem - 1
        keepSum := if config.disableKeptSummaries then q.keepSum else q.keepSum ++ [item]
        nsentThisEpoch := q.nsentThisEpoch + 1 }) := by
    simp [triageDequeue, notEmpty, front, inEpoch]
  rw [ran] at ends
  rcases ends with ⟨isEmpty, -⟩ | ⟨other, rest, next, split, result, holdsNext, -⟩
  · cases isEmpty
  · obtain ⟨rfl, rfl⟩ := List.cons.inj split
    obtain ⟨-, rfl⟩ := Prod.mk.inj result
    exact ⟨_, ran, phase.remove holdsNext rfl rfl rfl⟩

/-! ## Summaries -/

theorem advanceNextEpoch_eq {items front rest : List (Queued Tuple)}
    (holds : QueueHolds config q items) (inside : 0 ≤ q.nextDequeueIx)
    (notFull : (items.length : Int) < config.qlen) (epochnum : Int) {rounds : Nat}
    (split : items = front ++ rest) (enough : rest.length < rounds) :
    advanceNextEpoch config { q with keepSum := [], dropSum := [], epochnum := epochnum } rounds
        (place config.qlen q.nextDequeueIx front.length) =
      .ok (place config.qlen q.nextDequeueIx (front.length + (rest.takeWhile fun item =>
        !simpleTsPastWindow config (getTimestampVal config item) epochnum).length)) := by
  have above := holds.above
  have below := holds.below
  have back := holds.back_place.1
  induction rest generalizing front rounds with
  | nil =>
    obtain ⟨less, rfl⟩ : ∃ less, rounds = less + 1 := ⟨rounds - 1, by simp at enough; omega⟩
    rw [append_nil] at split
    rw [advanceNextEpoch, if_pos (by rw [back, split])]
    simp
  | cons item rest ih =>
    obtain ⟨less, rfl⟩ : ∃ less, rounds = less + 1 := ⟨rounds - 1, by simp at enough; omega⟩
    have shorter : front.length < items.length := by
      rw [split]
      simp
    have notEnd : place config.qlen q.nextDequeueIx front.length ≠ q.nextEnqueueIx := by
      rw [back]
      exact place_ne above below shorter notFull
    have isItem : items[front.length]? = some item := by
      rw [split]
      simp
    have nonneg : 0 ≤ place config.qlen q.nextDequeueIx front.length := by
      by_cases first : front.length = 0
      · rw [place, if_pos first]
        exact inside
      · exact (place_nonneg (by omega) (by omega)).1
    rw [advanceNextEpoch, if_neg notEnd]
    simp only [holds.occupies _ _ isItem]
    cases past : simpleTsPastWindow config (getTimestampVal config item) epochnum with
    | true => simp [past]
    | false =>
      rw [nextIndex_eq (by omega), place_place]
      have rest := @ih (front ++ [item]) less (by simpa using split) (by simpa using enough)
      simp only [length_append, length_singleton] at rest
      simp only [Bool.false_eq_true, if_false, rest, takeWhile_cons, past, Bool.not_false,
        if_true, length_cons]
      congr 2
      omega

theorem past_of_dropWhile {items : List (Queued Tuple)} (sorted : items.Pairwise fun first second =>
      getTimestampVal config first ≤ getTimestampVal config second) (epochnum : Int) :
    ∀ item ∈ items.dropWhile (fun item =>
        !simpleTsPastWindow config (getTimestampVal config item) epochnum),
      simpleTsPastWindow config (getTimestampVal config item) epochnum = true := by
  induction items with
  | nil => exact forall_mem_nil _
  | cons head rest ih =>
    obtain ⟨before, sortedRest⟩ := pairwise_cons.mp sorted
    intro item isItem
    cases past : simpleTsPastWindow config (getTimestampVal config head) epochnum with
    | false =>
      rw [dropWhile_cons, if_pos (by simp [past])] at isItem
      exact ih sortedRest item isItem
    | true =>
      rw [dropWhile_cons, if_neg (by simp [past])] at isItem
      rcases mem_cons.mp isItem with rfl | later
      · exact past
      · simp only [simpleTsPastWindow, timestampPastWindow, Bool.not_eq_true',
          decide_eq_false_iff_not, not_lt] at past ⊢
        exact past.trans (before item later)

include positive phase in
theorem InPhase.ready_front (ready : q.nextDequeueIx = q.nextEpochIx)
    : current = [] ∧ later ≠ [] := by
  have more : later ≠ [] := by
    rintro rfl
    have index : q.nextEpochIx = -1 := phase.index
    rcases phase.holds.boundary positive with ⟨-, inside⟩ | ⟨_, _, -, nonneg, -⟩
    · omega
    · omega
  have index := phase.index
  rw [if_neg (by simpa using more), ← ready] at index
  have room := phase.holds.room
  rw [phase.holds.count, length_append] at room
  have := length_pos_iff.mpr more
  refine ⟨?_, more⟩
  by_contra notEmpty
  exact @place_ne config.qlen q.nextDequeueIx 0 current.length phase.holds.above
    phase.holds.below (length_pos_iff.mpr notEmpty) (by omega) index

theorem InPhase.handOver {front rest : List (Queued Tuple)} (phase : InPhase config q [] later)
    (ready : q.nextDequeueIx = q.nextEpochIx ∨ q.nelem = 0) (split : front ++ rest = later)
    (found : findNextEpoch config
        { q with keepSum := [], dropSum := [], epochnum := q.epochnum + 1 } =
      .ok { q with
        keepSum := [], dropSum := [], epochnum := q.epochnum + 1,
        nextEpochIx := if rest.isEmpty then notAnIndex
          else place config.qlen q.nextDequeueIx front.length })
    (inNext : ∀ item ∈ front, windowNo config (getTimestampVal config item) = q.epochnum + 1)
    (afterNext : ∀ item ∈ rest,
      q.epochnum + 1 < windowNo config (getTimestampVal config item)) :
    ∃ handed next current' later', triageGetSummaries config q = .ok (handed, next) ∧
      InPhase config next current' later' := by
  subst split
  have ends := getSummaries_spec phase.holds
  simp only [triageGetSummaries, if_neg (not_not.mpr ready), found, bind, Except.bind] at ends ⊢
  exact ⟨_, _, front, rest, rfl, ends.2.1, rfl, fun item isItem => .inl (inNext item isItem),
    fun item isItem => ⟨(phase.ahead item (mem_append_right _ isItem)).1, afterNext item isItem⟩,
    fun item isItem => phase.tuples item (mem_append_right _ isItem)⟩

include positive phase in
theorem InPhase.summaries (ready : q.nextDequeueIx = q.nextEpochIx ∨ q.nelem = 0)
    (switch : q.nelem = config.qlen → ∀ item ∈ later,
      windowNo config (getTimestampVal config item) = q.epochnum + 1) (long : 0 < config.qlen)
    (sorted : later.Pairwise fun first second =>
      getTimestampVal config first ≤ getTimestampVal config second) :
    ∃ handed next current' later', triageGetSummaries config q = .ok (handed, next) ∧
      InPhase config next current' later' := by
  have count := phase.holds.count
  by_cases empty : q.nelem = 0
  · obtain ⟨rfl, rfl⟩ : current = [] ∧ later = [] :=
      append_eq_nil_iff.mp (length_eq_zero_iff.mp (by omega))
    refine @InPhase.handOver _ config q [] [] [] phase ready rfl ?_ (forall_mem_nil _)
      (forall_mem_nil _)
    simp [findNextEpoch, empty]
  · have atFront : q.nextDequeueIx = q.nextEpochIx := ready.resolve_right empty
    obtain ⟨rfl, more⟩ := phase.ready_front positive atFront
    have inside : 0 ≤ q.nextDequeueIx := by
      rcases phase.holds.boundary positive with ⟨-, inside⟩ | ⟨_, _, -, nonneg, -⟩
      · exact inside
      · omega
    have back := phase.holds.back_place.1
    rw [nil_append] at back count
    have room := phase.holds.room
    by_cases full : q.nelem = config.qlen
    · -- the loop does not even start
      have wrapped : q.nextEpochIx = q.nextEnqueueIx := by
        rw [back, place, if_neg (by omega), ← count, full, Int.add_emod_right,
          Int.emod_eq_of_lt inside phase.holds.below, atFront]
      refine @InPhase.handOver _ config q later later [] phase ready (append_nil later) ?_
        (switch full) (forall_mem_nil _)
      simp [findNextEpoch, empty, atFront, advanceNextEpoch, wrapped, bind, Except.bind]
    · have advanced := @advanceNextEpoch_eq _ config q later [] later phase.holds inside
        (by omega) (q.epochnum + 1) (config.qlen.toNat + 1) rfl (by omega)
      rw [length_nil, place, if_pos rfl, Nat.zero_add, atFront] at advanced
      have whole := @List.takeWhile_append_dropWhile _ (fun item =>
        !simpleTsPastWindow config (getTimestampVal config item) (q.epochnum + 1)) later
      have inNext : ∀ item ∈ later.takeWhile (fun item =>
          !simpleTsPastWindow config (getTimestampVal config item) (q.epochnum + 1)),
          windowNo config (getTimestampVal config item) = q.epochnum + 1 := by
        intro item isItem
        obtain ⟨regular, after⟩ := phase.ahead item
          ((takeWhile_sublist _).subset isItem)
        have notPast := mem_takeWhile_imp isItem
        rw [Bool.not_eq_true', ← Bool.not_eq_true, past_iff regular] at notPast
        omega
      have afterNext : ∀ item ∈ later.dropWhile (fun item =>
          !simpleTsPastWindow config (getTimestampVal config item) (q.epochnum + 1)),
          q.epochnum + 1 < windowNo config (getTimestampVal config item) := by
        intro item isItem
        have regular := (phase.ahead item ((dropWhile_sublist _).subset isItem)).1
        exact (past_iff regular _).mp (past_of_dropWhile sorted _ item isItem)
      generalize later.takeWhile _ = front at *
      generalize later.dropWhile _ = rest at *
      subst whole
      refine phase.handOver ready rfl ?_ inNext afterNext
      have atEnd : place config.qlen q.nextEpochIx front.length = q.nextEnqueueIx ↔
          rest.isEmpty = true := by
        rw [back, atFront, List.isEmpty_iff]
        constructor
        · intro same
          by_contra notEmpty
          have := length_pos_iff.mpr notEmpty
          exact place_ne (by rw [← atFront]; exact phase.holds.above)
            (by rw [← atFront]; exact phase.holds.below) (by simpa using this)
            (by omega) same
        · rintro rfl
          simp
      simp [findNextEpoch, empty, atFront, advanced, atEnd, bind, Except.bind]

end InPhase

end TelegraphCQ.Triage
