import Mathlib.Data.Int.ModEq
import TelegraphCQ.Foundation.Outcome
import TelegraphCQ.Triage.TriageQueue

/-!
# Conservation in the triage queue

The buffer holds a list of items from the front index on.  Every operation takes items
off the front of the list, each into a summary of the epoch it is numbered with, or puts
one at its end; the only item that appears elsewhere is a punctuation tuple.
-/

namespace TelegraphCQ.Triage

open Foundation Window List Function

variable {Tuple : Type}

/-! ## The circular buffer -/

def place (qlen front : Int) (j : Nat) : Int := if j = 0 then front else (front + j) % qlen

theorem place_nonneg {qlen front : Int} (positive : 0 < qlen) {j : Nat} (behind : 0 < j) :
    0 ≤ place qlen front j ∧ place qlen front j < qlen := by
  rw [place, if_neg (by omega)]
  exact ⟨Int.emod_nonneg _ positive.ne', Int.emod_lt_of_pos _ positive⟩

theorem nextIndex_eq {config : TriageConfig Tuple} {front : Int} (above : -1 ≤ front) :
    nextIndex config front = place config.qlen front 1 := by
  rw [nextIndex, place, if_neg (by omega), Int.tmod_eq_emod_of_nonneg (by omega)]
  rfl

theorem prevIndex_eq {config : TriageConfig Tuple} {front : Int} (inside : 0 ≤ front)
    (below : front < config.qlen) (long : 1 < config.qlen) :
    prevIndex config front = front - 1 := by
  unfold prevIndex
  by_cases atStart : front = 0
  · -- the remainder of a negative number is negative: the index leaves the buffer
    rw [atStart, Int.zero_sub, Int.neg_tmod, Int.tmod_eq_of_lt (by omega) (by omega)]
  · exact Int.tmod_eq_of_lt (by omega) (by omega)

theorem place_place (qlen front : Int) (i j : Nat) :
    place qlen (place qlen front i) j = place qlen front (i + j) := by
  by_cases none : j = 0
  · simp [place, none]
  by_cases first : i = 0
  · simp [place, first]
  simp only [place, none, first, if_false, Nat.add_eq_zero_iff, and_self, Int.emod_add_emod]
  push_cast
  rw [add_assoc]

theorem place_next (qlen front : Int) (j : Nat) :
    place qlen (place qlen front 1) j = place qlen front (j + 1) := by
  rw [place_place, Nat.add_comm]

theorem place_pred {qlen front : Int} (above : 0 ≤ front) (below : front < qlen) (j : Nat) :
    place qlen (front - 1) (j + 1) = place qlen front j := by
  rw [← place_next]
  congr 1
  rw [place, if_neg one_ne_zero]
  simpa using Int.emod_eq_of_lt above below

theorem emod_ne {qlen a b : Int} (before : a < b) (short : b - a < qlen) : a % qlen ≠ b % qlen := by
  intro same
  have divides : qlen ∣ b - a := Int.ModEq.dvd same
  have := Int.le_of_dvd (by omega) divides
  omega

theorem place_ne {qlen front : Int} {i j : Nat} (above : -1 ≤ front) (below : front < qlen)
    (before : i < j) (short : (j : Int) < qlen) : place qlen front i ≠ place qlen front j := by
  have positive : 0 < qlen := by omega
  by_cases first : i = 0
  · have bounds := @place_nonneg qlen front positive j (by omega)
    by_cases outside : front = -1
    · rw [place, if_pos first, outside]
      rw [outside] at bounds
      omega
    · have inside : front % qlen = front := Int.emod_eq_of_lt (by omega) below
      rw [place, if_pos first, place, if_neg (by omega), ← inside]
      simp only [Int.emod_add_emod]
      exact emod_ne (by omega) (by omega)
  · rw [place, place, if_neg first, if_neg (by omega)]
    exact emod_ne (by omega) (by omega)

def Occupies (qlen : Int) (buf : Int → Option (Queued Tuple)) (front : Int)
    (items : List (Queued Tuple)) : Prop :=
  ∀ (j : Nat) (item : Queued Tuple), items[j]? = some item →
    buf (place qlen front j) = some item

namespace Occupies

variable {qlen front : Int} {buf : Int → Option (Queued Tuple)} {item : Queued Tuple}
  {items : List (Queued Tuple)}

theorem head (occupies : Occupies qlen buf front (item :: items)) : buf front = some item :=
  occupies 0 item rfl

theorem tail (occupies : Occupies qlen buf front (item :: items)) :
    Occupies qlen buf (place qlen front 1) items := by
  intro j other isOther
  rw [place_next]
  exact occupies (j + 1) other (by simpa using isOther)

theorem concat (occupies : Occupies qlen buf front items) (above : -1 ≤ front)
    (below : front < qlen) (room : (items.length : Int) < qlen) (item : Queued Tuple) :
    Occupies qlen (update buf (place qlen front items.length) (some item)) front
      (items ++ [item]) := by
  intro j other isOther
  by_cases old : j < items.length
  · rw [getElem?_append_left old] at isOther
    rw [update_of_ne (place_ne above below old room)]
    exact occupies j other isOther
  · rw [getElem?_append_right (by omega)] at isOther
    have last : j = items.length := by
      have inside := (List.getElem?_eq_some_iff.mp isOther).1
      simp only [List.length_singleton] at inside
      omega
    subst last
    have isItem : item = other := by simpa using isOther
    rw [update_self, isItem]

theorem cons (occupies : Occupies qlen buf front items) (above : 0 ≤ front)
    (below : front < qlen) (room : (items.length : Int) < qlen) (item : Queued Tuple) :
    Occupies qlen (update buf (front - 1) (some item)) (front - 1)
      (item :: items) := by
  have behind := place_pred above below
  intro j other isOther
  cases j with
  | zero =>
    have isItem : item = other := by simpa using isOther
    rw [place, if_pos rfl, update_self, isItem]
  | succ j =>
    have isOld : items[j]? = some other := by simpa using isOther
    have inside := (List.getElem?_eq_some_iff.mp isOld).1
    have elsewhere : place qlen front j ≠ front - 1 := by
      rw [← behind]
      exact (@place_ne qlen (front - 1) 0 (j + 1) (by omega) (by omega) (by omega)
        (by push_cast; omega)).symm
    rw [behind, update_of_ne elsewhere]
    exact occupies j other isOld

end Occupies

/-! ## Epochs -/

section Epochs

variable {config : TriageConfig Tuple}

theorem tdiv_bounds (dividend : Int) {divisor : Int} (positive : 0 < divisor) :
    dividend = divisor * dividend.tdiv divisor + dividend.tmod divisor ∧
      dividend.tmod divisor < divisor ∧ -divisor < dividend.tmod divisor := by
  exact ⟨(Int.mul_tdiv_add_tmod dividend divisor).symm, Int.tmod_lt_of_pos dividend positive,
    Int.lt_tmod_of_pos dividend positive⟩

theorem windowNo_eq (positive : 0 < config.epochLen) (ts : Int) : windowNo config ts =
        (ts - config.epochStart + config.epochLen).tdiv config.epochLen ∧
      simpleTsPastWindow config ts (windowNo config ts) = false := by
  obtain ⟨exact, upper, -⟩ := tdiv_bounds (ts - config.epochStart + config.epochLen) positive
  have within : timestampPastWindow config.epochs ts
      ((ts - config.epochStart + config.epochLen).tdiv config.epochLen) = false := by
    simp only [timestampPastWindow, windowEnd, windowBegin, TriageConfig.epochs, Bool.not_eq_false']
    apply decide_eq_true
    linarith
  have number : windowNo config ts =
      (ts - config.epochStart + config.epochLen).tdiv config.epochLen := by
    simp only [windowNo, lastWindowNo, intQuotient, TriageConfig.epochs, positive.ne', if_false]
    simp only [TriageConfig.epochs] at within
    rw [within]
    rfl
  refine ⟨number, ?_⟩
  rw [number]
  exact within

theorem windowNo_ne_of_past (positive : 0 < config.epochLen) {ts epochnum : Int}
    (past : simpleTsPastWindow config ts epochnum = true) : windowNo config ts ≠ epochnum := by
  intro same
  have within := (windowNo_eq positive ts).2
  rw [same, past] at within
  simp at within

/-- The timestamp is in the epoch that the source numbers it with. -/
def Regular (config : TriageConfig Tuple) (ts : Int) : Prop :=
  0 < config.epochLen ∧
    (config.epochStart - config.epochLen ≤ ts ∨ config.epochLen ∣ ts - config.epochStart)

theorem inWindow_windowNo_iff (ts : Int) :
    InWindow config.epochs (windowNo config ts) ts ↔ Regular config ts := by
  by_cases positive : 0 < config.epochLen
  · obtain ⟨exact, upper, lower⟩ := tdiv_bounds (ts - config.epochStart + config.epochLen) positive
    set quotient := (ts - config.epochStart + config.epochLen).tdiv config.epochLen
    set remainder := (ts - config.epochStart + config.epochLen).tmod config.epochLen
      with isRemainder
    have begun : InWindow config.epochs (windowNo config ts) ts ↔ 0 ≤ remainder := by
      rw [(windowNo_eq positive ts).1]
      simp only [InWindow, windowEnd, windowBegin, TriageConfig.epochs]
      constructor
      · rintro ⟨below, -⟩
        linarith
      · intro nonneg
        exact ⟨by linarith, by linarith⟩
    have shifted : config.epochLen ∣ ts - config.epochStart + config.epochLen ↔
        config.epochLen ∣ ts - config.epochStart := Int.dvd_add_left (Int.dvd_refl _)
    rw [begun]
    constructor
    · intro nonneg
      refine ⟨positive, ?_⟩
      by_cases early : ts < config.epochStart - config.epochLen
      · have opposite := Int.tmod_nonneg config.epochLen
          (show 0 ≤ -(ts - config.epochStart + config.epochLen) by omega)
        rw [Int.neg_tmod, ← isRemainder] at opposite
        exact .inr (shifted.mp (Int.dvd_of_tmod_eq_zero (by omega)))
      · exact .inl (by omega)
    · rintro ⟨-, late | multiple⟩
      · exact Int.tmod_nonneg _ (by omega)
      · rw [isRemainder, Int.tmod_eq_zero_of_dvd (shifted.mpr multiple)]
  · have empty : ¬ InWindow config.epochs (windowNo config ts) ts := by
      rintro ⟨begun, unfinished⟩
      simp only [windowEnd, TriageConfig.epochs] at begun unfinished
      omega
    exact iff_of_false empty fun regular => positive regular.1

end Epochs

/-! ## The state of the queue -/

/-- The faults that the queue may stop with: for epochs of positive length, only those
that it reports itself. -/
def Harmless (config : TriageConfig Tuple) (fault : TriageFault) : Prop :=
  0 < config.epochLen → fault ≠ .nullTuple ∧ fault ≠ .endlessLoop

def PastAt (config : TriageConfig Tuple) (q : TriageQueue Tuple)
    (items : List (Queued Tuple)) (epochnum index : Int) : Prop :=
  ∃ j item, items[j]? = some item ∧ 0 ≤ index ∧ index = place config.qlen q.nextDequeueIx j ∧
    simpleTsPastWindow config (getTimestampVal config item) epochnum = true

def Boundary (config : TriageConfig Tuple) (q : TriageQueue Tuple)
    (items : List (Queued Tuple)) : Prop :=
  (q.nextEpochIx = notAnIndex ∧ 0 ≤ q.nextDequeueIx) ∨
    PastAt config q items q.epochnum q.nextEpochIx

structure QueueHolds (config : TriageConfig Tuple) (q : TriageQueue Tuple)
    (items : List (Queued Tuple)) : Prop where
  occupies : Occupies config.qlen q.buf q.nextDequeueIx items
  count : q.nelem = items.length
  room : q.nelem ≤ config.qlen
  above : -1 ≤ q.nextDequeueIx
  below : q.nextDequeueIx < config.qlen
  occupied : q.nextDequeueIx = -1 → items ≠ []
  back : q.nextEnqueueIx = (q.nextDequeueIx + items.length) % config.qlen
  boundary : 0 < config.epochLen → Boundary config q items
  unstarted : q.haveTs = false → items = [] ∧ q.keepSum = [] ∧ q.dropSum = []

structure Sheds (config : TriageConfig Tuple) (q : TriageQueue Tuple)
    (gone : List (Queued Tuple)) (next : TriageQueue Tuple) : Prop where
  dropSum : next.dropSum = q.dropSum ++ gone
  keepSum : next.keepSum = q.keepSum
  epochnum : next.epochnum = q.epochnum
  haveTs : next.haveTs = q.haveTs
  inEpoch : ∀ item ∈ gone, windowNo config (getTimestampVal config item) = q.epochnum

section Operations

variable {config : TriageConfig Tuple} {q next : TriageQueue Tuple} {item : Queued Tuple}
  {items : List (Queued Tuple)}

theorem Sheds.refl (config : TriageConfig Tuple) (q : TriageQueue Tuple) :
    Sheds config q [] q := ⟨by simp, rfl, rfl, rfl, by simp⟩

theorem Sheds.trans {final : TriageQueue Tuple} {gone more : List (Queued Tuple)}
    (first : Sheds config q gone next) (second : Sheds config next more final) :
    Sheds config q (gone ++ more) final where
  dropSum := by rw [second.dropSum, first.dropSum, append_assoc]
  keepSum := second.keepSum.trans first.keepSum
  epochnum := second.epochnum.trans first.epochnum
  haveTs := second.haveTs.trans first.haveTs
  inEpoch := forall_mem_append.mpr ⟨first.inEpoch, fun item late =>
    (second.inEpoch item late).trans first.epochnum⟩

theorem indexDiff_place {front : Int} {j : Nat} (above : -1 ≤ front)
    (below : front < config.qlen) (short : (j : Int) < config.qlen) :
    indexDiff config front (place config.qlen front j) = j := by
  unfold indexDiff place
  by_cases first : j = 0
  · simp [first]
  · simp only [first, if_false]
    by_cases wraps : front + j < config.qlen
    · rw [Int.emod_eq_of_lt (by omega) wraps, if_pos (by omega)]
      omega
    · have wrapped : (front + j) % config.qlen = front + j - config.qlen := by
        rw [← Int.sub_emod_right, Int.emod_eq_of_lt (by omega) (by omega)]
      rw [wrapped, if_neg (by omega)]
      omega

variable (holds : QueueHolds config q items)

section

include holds

theorem QueueHolds.back_place : q.nextEnqueueIx = place config.qlen q.nextDequeueIx items.length ∧
      0 ≤ q.nextEnqueueIx := by
  have above := holds.above
  have below := holds.below
  have positive : 0 < config.qlen := by
    by_contra notPositive
    have filled := length_pos_iff.mpr (holds.occupied (by omega))
    have room := holds.room
    rw [holds.count] at room
    omega
  rw [holds.back]
  refine ⟨?_, Int.emod_nonneg _ positive.ne'⟩
  by_cases empty : items.length = 0
  · have inside : q.nextDequeueIx ≠ -1 := fun outside =>
      holds.occupied outside (length_eq_zero_iff.mp empty)
    rw [place, if_pos empty, empty]
    simpa using Int.emod_eq_of_lt (show 0 ≤ q.nextDequeueIx by omega) below
  · rw [place, if_neg empty]

theorem QueueHolds.numTups_le (positive : 0 < config.epochLen) :
    numTupsFromCurEpoch config q ≤ items.length := by
  unfold numTupsFromCurEpoch
  split_ifs with noIndex
  · exact holds.count.le
  · cases holds.boundary positive with
    | inl none => exact absurd none.1 noIndex
    | inr boundary =>
      obtain ⟨j, item, isItem, -, isPlace, -⟩ := boundary
      have inside := (List.getElem?_eq_some_iff.mp isItem).1
      have short := holds.room
      rw [holds.count] at short
      rw [isPlace, indexDiff_place holds.above holds.below (by omega)]
      omega

theorem QueueHolds.peek_eq : triagePeek q = items.head? := by
  unfold triagePeek
  cases items with
  | nil => simp [holds.count]
  | cons item items =>
    rw [if_neg (by rw [holds.count]; simp; omega), holds.occupies.head]
    rfl

end

theorem QueueHolds.remove (holds : QueueHolds config q (item :: items))
    (inEpoch : windowNo config (getTimestampVal config item) = q.epochnum)
    (dropSum keepSum : List (Queued Tuple)) (nsent : Int) : QueueHolds config
      { q with
        dropSum := dropSum
        keepSum := keepSum
        nsentThisEpoch := nsent
        nextDequeueIx := nextIndex config q.nextDequeueIx
        nelem := q.nelem - 1 } items ∧
      0 ≤ nextIndex config q.nextDequeueIx ∧ q.nelem - 1 < config.qlen := by
  have above := holds.above
  have below := holds.below
  have room := holds.room
  have count := holds.count
  rw [length_cons] at count
  push_cast at count
  have positive : 0 < config.qlen := by omega
  have next := @nextIndex_eq _ config _ above
  have bounds := @place_nonneg config.qlen q.nextDequeueIx positive 1 (by omega)
  refine ⟨⟨?_, ?_, ?_, ?_, ?_, ?_, ?_, ?_, ?_⟩, by rw [next]; exact bounds.1, by omega⟩
  · simp only [next]
    exact holds.occupies.tail
  · simp only [count]
    omega
  · simp only
    omega
  · simp only [next]
    omega
  · simp only [next]
    exact bounds.2
  · simp only [next]
    omega
  · simp only [next, holds.back, place]
    rw [if_neg (by omega), Int.emod_add_emod, length_cons]
    congr 1
    push_cast
    ring
  · intro lengths
    cases holds.boundary lengths with
    | inl none => exact .inl ⟨none.1, by simp only [next]; exact bounds.1⟩
    | inr boundary =>
      obtain ⟨j, other, isOther, nonneg, isPlace, past⟩ := boundary
      cases j with
      | zero =>
        have same : item = other := by simpa using isOther
        rw [← same] at past
        exact absurd inEpoch (windowNo_ne_of_past lengths past)
      | succ j =>
        refine .inr ⟨j, other, by simpa using isOther, nonneg, ?_, past⟩
        simp [next, isPlace, place_next]
  · intro notStarted
    exact absurd (holds.unstarted notStarted).1 (by simp)

theorem dropOldest_spec (holds : QueueHolds config q (item :: items)) :
    Ends (Harmless config) (fun next => QueueHolds config next items ∧
      Sheds config q [item] next ∧ 0 ≤ next.nextDequeueIx ∧ next.nelem < config.qlen)
      (dropOldest config q) := by
  unfold dropOldest
  rw [holds.peek_eq]
  simp only [head?_cons]
  split_ifs with otherEpoch
  · intro _
    simp
  · have inEpoch := not_not.mp otherEpoch
    obtain ⟨holdsNext, inside, room⟩ :=
      holds.remove inEpoch (q.dropSum ++ [item]) q.keepSum q.nsentThisEpoch
    exact ⟨holdsNext, ⟨rfl, rfl, rfl, rfl, by simpa using inEpoch⟩, inside, room⟩

include holds in
theorem dropExpired_spec {count : Nat} (enough : 0 < config.epochLen → count ≤ items.length) :
    Ends (Harmless config) (fun next => ∃ gone rest, items = gone ++ rest ∧
      QueueHolds config next rest ∧ Sheds config q gone next ∧
      (next = q ∨ 0 ≤ next.nextDequeueIx ∧ next.nelem < config.qlen))
      (dropExpired config count q) := by
  induction count generalizing q items with
  | zero => exact ⟨[], items, rfl, holds, .refl config q, .inl rfl⟩
  | succ count ih =>
    unfold dropExpired
    rw [holds.peek_eq]
    cases items with
    | nil =>
      intro positive
      have := enough positive
      simp at this
    | cons item items =>
      simp only [head?_cons]
      split_ifs with isPunct
      · exact ⟨[], item :: items, rfl, holds, .refl config q, .inl rfl⟩
      · apply (dropOldest_spec holds).bind
        rintro dropped ⟨holdsDropped, sheds, inside, room⟩
        have remaining := ih holdsDropped fun positive => by simpa using enough positive
        apply remaining.imp
        rintro next ⟨gone, rest, split, holdsNext, shedsMore, same⟩
        refine ⟨item :: gone, rest, by simp [split], holdsNext, sheds.trans shedsMore, ?_⟩
        cases same with
        | inl unchanged => exact .inr ⟨by rw [unchanged]; exact inside, by
            rw [unchanged]; exact room⟩
        | inr moved => exact .inr moved

/-- The items after an expiry: what is left, perhaps behind a punctuation tuple. -/
def Punctuated (rest items : List (Queued Tuple)) : Prop :=
  items = rest ∨ ∃ ts, items = .punctuation ts :: rest

abbrev Cleaned (config : TriageConfig Tuple) (q : TriageQueue Tuple)
    (items : List (Queued Tuple)) (next : TriageQueue Tuple) : Prop :=
  ∃ gone rest items', items = gone ++ rest ∧ Punctuated rest items' ∧
    QueueHolds config next items' ∧ Sheds config q gone next

section

include holds

theorem punctuateEpoch_spec (inside : 0 ≤ q.nextDequeueIx) (room : q.nelem < config.qlen) :
    ∃ items', Punctuated items items' ∧ QueueHolds config (punctuateEpoch config q) items' ∧
      Sheds config q [] (punctuateEpoch config q) := by
  unfold punctuateEpoch
  split_ifs with emptied
  · obtain ⟨noTups, more⟩ := emptied
    have below := holds.below
    have count := holds.count
    have previous := @prevIndex_eq _ config _ inside below (by omega)
    refine ⟨.punctuation (simpleWindowEnd config q.epochnum - 1) :: items, .inr ⟨_, rfl⟩,
      ⟨?_, ?_, ?_, ?_, ?_, ?_, ?_, ?_, ?_⟩, ⟨by simp, rfl, rfl, rfl, by simp⟩⟩
    · simp only [previous]
      exact holds.occupies.cons inside below (by omega) _
    · simp only [length_cons]
      push_cast
      omega
    · simp only
      omega
    · simp only [previous]
      omega
    · simp only [previous]
      omega
    · simp
    · simp only [previous, holds.back, length_cons]
      congr 1
      push_cast
      ring
    · intro positive
      cases holds.boundary positive with
      | inl none =>
        rw [numTupsFromCurEpoch, if_pos none.1] at noTups
        omega
      | inr boundary =>
        obtain ⟨j, other, isOther, nonneg, isPlace, past⟩ := boundary
        refine .inr ⟨j + 1, other, by simpa using isOther, nonneg, ?_, past⟩
        simp [previous, isPlace, place_pred inside below]
    · intro notStarted
      have none := (holds.unstarted notStarted).1
      rw [none] at count
      simp only [length_nil] at count
      omega
  · exact ⟨items, .inl rfl, holds, .refl config q⟩

theorem cleanup_spec (now : Int) :
    Ends (Harmless config) (Cleaned config q items) (triageCleanupExpiredTuples config q now) := by
  unfold triageCleanupExpiredTuples
  split_ifs with idle late
  · exact ⟨[], items, items, rfl, .inl rfl, holds, .refl config q⟩
  · have enough : 0 < config.epochLen → (overflow config q now).toNat ≤ items.length := by
      intro positive
      have bound := holds.numTups_le positive
      unfold overflow
      omega
    apply (dropExpired_spec holds enough).bind
    rintro dropped ⟨gone, rest, split, holdsDropped, sheds, same⟩
    cases same with
    | inl unchanged =>
      -- the epoch still has the tuples that were to be dropped
      have unpunctuated : punctuateEpoch config dropped = dropped := by
        rw [unchanged, punctuateEpoch, if_neg]
        unfold overflow at late
        omega
      rw [unpunctuated]
      exact ⟨gone, rest, rest, split, .inl rfl, holdsDropped, sheds⟩
    | inr moved =>
      obtain ⟨items', punctuated, holdsNext, shedsNone⟩ :=
        punctuateEpoch_spec holdsDropped moved.1 moved.2
      refine ⟨gone, rest, items', split, punctuated, holdsNext, ?_⟩
      simpa using sheds.trans shedsNone
  · exact ⟨[], items, items, rfl, .inl rfl, holds, .refl config q⟩

theorem checkEpoch_spec (started : q.haveTs = true) (room : q.nelem < config.qlen) (tup : Tuple) :
    Ends (Harmless config) (fun next =>
      QueueHolds config
        { next with
          buf := update next.buf next.nextEnqueueIx (some (.tuple tup))
          nextEnqueueIx := nextIndex config next.nextEnqueueIx
          nelem := next.nelem + 1 } (items ++ [.tuple tup]) ∧ Sheds config q [] next)
      (checkEpoch config (config.timestamp tup) q) := by
  have above := holds.above
  have below := holds.below
  have count := holds.count
  obtain ⟨isPlace, nonneg⟩ := holds.back_place
  have written := holds.occupies.concat above below (by omega) (.tuple tup)
  rw [← isPlace] at written
  -- the index of the next epoch is all that the check may change
  have append : ∀ nextEpochIx, (0 < config.epochLen →
      Boundary config { q with nextEpochIx := nextEpochIx } (items ++ [.tuple tup])) →
      QueueHolds config
        { q with
          nextEpochIx := nextEpochIx
          buf := update q.buf q.nextEnqueueIx (some (.tuple tup))
          nextEnqueueIx := nextIndex config q.nextEnqueueIx
          nelem := q.nelem + 1 } (items ++ [.tuple tup]) := by
    intro nextEpochIx boundary
    refine ⟨written, by simp [count], by simp only; omega, above, below, by simp, ?_,
      boundary, by simp [started]⟩
    simp only
    rw [nextIndex, Int.tmod_eq_emod_of_nonneg (by omega), holds.back, Int.emod_add_emod]
    congr 1
    simp only [length_append, length_singleton]
    push_cast
    ring
  have kept : (0 < config.epochLen → Boundary config q (items ++ [.tuple tup])) := by
    intro lengths
    cases holds.boundary lengths with
    | inl none => exact .inl none
    | inr boundary =>
      obtain ⟨j, other, isOther, nonneg, isPlace, past⟩ := boundary
      have inside := (List.getElem?_eq_some_iff.mp isOther).1
      refine .inr ⟨j, other, ?_, nonneg, isPlace, past⟩
      rw [List.getElem?_append_left inside, isOther]
  unfold checkEpoch
  split_ifs with noIndex past otherEpoch
  · refine ⟨append q.nextEnqueueIx fun _ => .inr ?_, ⟨by simp, rfl, rfl, rfl, by simp⟩⟩
    exact ⟨items.length, .tuple tup, by simp, nonneg, isPlace, past⟩
  · intro _
    simp
  · exact ⟨append q.nextEpochIx kept, .refl config q⟩
  · exact ⟨append q.nextEpochIx kept, .refl config q⟩

theorem appendTuple_spec (started : q.haveTs = true) (room : q.nelem < config.qlen) (tup : Tuple) :
    Ends (Harmless config) (Cleaned config q (items ++ [.tuple tup])) (appendTuple config tup q) := by
  unfold appendTuple
  apply (checkEpoch_spec holds started room tup).bind
  rintro checked ⟨holdsChecked, shedsNone⟩
  apply (cleanup_spec holdsChecked (config.timestamp tup)).imp
  rintro next ⟨gone, rest, items', split, punctuated, holdsNext, sheds⟩
  refine ⟨gone, rest, items', split, punctuated, holdsNext, ?_⟩
  have written : Sheds config checked gone next :=
    ⟨sheds.dropSum, sheds.keepSum, sheds.epochnum, sheds.haveTs, sheds.inEpoch⟩
  simpa using shedsNone.trans written

theorem startEpoch_spec (tup : Tuple) : QueueHolds config (startEpoch config tup q) items ∧
      (startEpoch config tup q).haveTs = true := by
  unfold startEpoch
  split_ifs with started
  · exact ⟨holds, started⟩
  · have empty := (holds.unstarted (by simpa using started)).1
    refine ⟨⟨holds.occupies, holds.count, holds.room, holds.above, holds.below,
      holds.occupied, holds.back, ?_, by simp⟩, rfl⟩
    intro positive
    cases holds.boundary positive with
    | inl none => exact .inl none
    | inr boundary =>
      obtain ⟨j, other, isOther, -⟩ := boundary
      simp [empty] at isOther

end

theorem enqueue_spec (positive : 0 < config.qlen) (holds : QueueHolds config q items)
    (tup : Tuple) :
    Ends (Harmless config) (Cleaned config (startEpoch config tup q) (items ++ [.tuple tup]))
      (triageEnqueue config tup q) := by
  obtain ⟨holdsStarted, started⟩ := startEpoch_spec holds tup
  unfold triageEnqueue
  split_ifs with full
  · cases items with
    | nil =>
      have count := holdsStarted.count
      simp only [length_nil] at count
      omega
    | cons oldest items =>
      apply (dropOldest_spec holdsStarted).bind
      rintro dropped ⟨holdsDropped, sheds, -, room⟩
      have startedDropped := sheds.haveTs.trans started
      apply (appendTuple_spec holdsDropped startedDropped room tup).imp
      rintro next ⟨gone, rest, items', split, punctuated, holdsNext, shedsMore⟩
      refine ⟨oldest :: gone, rest, items', by simp [← split], punctuated, holdsNext, ?_⟩
      exact sheds.trans shedsMore
  · have room := holdsStarted.room
    exact appendTuple_spec holdsStarted started (by omega) tup

section

include holds

theorem dequeue_spec : Ends (Harmless config) (fun result =>
      (items = [] ∧ result = (none, q)) ∨
      ∃ item rest next, items = item :: rest ∧ result = (some item, next) ∧
        QueueHolds config next rest ∧ next.dropSum = q.dropSum ∧
        next.keepSum = (q.keepSum ++ if config.disableKeptSummaries then [] else [item]) ∧
        next.epochnum = q.epochnum ∧ next.haveTs = q.haveTs ∧
        windowNo config (getTimestampVal config item) = q.epochnum ∧ 0 ≤ next.nextDequeueIx)
      (triageDequeue config q) := by
  have count := holds.count
  unfold triageDequeue
  cases items with
  | nil =>
    rw [if_pos (by simpa using count)]
    exact .inl ⟨rfl, rfl⟩
  | cons item items =>
    rw [if_neg (by rw [count]; simp; omega), holds.occupies.head]
    by_cases inEpoch : windowNo config (getTimestampVal config item) = q.epochnum
    · simp only [inEpoch, ne_eq, not_true_eq_false, if_false]
      obtain ⟨holdsNext, inside, -⟩ := holds.remove inEpoch q.dropSum _ _
      refine .inr ⟨item, items, _, rfl, rfl, holdsNext, rfl, ?_, rfl, rfl, inEpoch, inside⟩
      cases config.disableKeptSummaries with
      | true => simp
      | false => simp
    · simp only [ne_eq, inEpoch, not_false_eq_true, if_true]
      intro _
      simp

theorem advanceNextEpoch_spec (inside : 0 ≤ q.nextDequeueIx) (epochnum : Int) {rounds j : Nat}
    (queued : j ≤ items.length) (enough : items.length < j + rounds) :
    Ends (Harmless config) (fun index => index = q.nextEnqueueIx ∨
        PastAt config q items epochnum index)
      (advanceNextEpoch config
        { q with keepSum := [], dropSum := [], epochnum := epochnum } rounds
        (place config.qlen q.nextDequeueIx j)) := by
  induction rounds generalizing j with
  | zero => omega
  | succ rounds ih =>
    have below := holds.below
    have nonneg : 0 ≤ place config.qlen q.nextDequeueIx j := by
      by_cases first : j = 0
      · rw [place, if_pos first]
        exact inside
      · exact (place_nonneg (by omega) (by omega)).1
    unfold advanceNextEpoch
    split_ifs with atEnd
    · exact .inl atEnd
    · have more : j < items.length := by
        by_contra last
        have isLast : j = items.length := by omega
        rw [isLast] at atEnd
        exact atEnd holds.back_place.1.symm
      have isItem : items[j]? = some items[j] := getElem?_eq_getElem more
      simp only [holds.occupies j _ isItem]
      split_ifs with past
      · exact .inr ⟨j, _, isItem, nonneg, rfl, past⟩
      · rw [nextIndex_eq (by omega), place_place]
        exact ih (by omega) (by omega)

theorem findNextEpoch_spec (epochnum : Int) : Ends (Harmless config) (fun next => ∃ index,
      next = { q with
        keepSum := [], dropSum := [], epochnum := epochnum, nextEpochIx := index } ∧
      (0 < config.epochLen → Boundary config next items))
      (findNextEpoch config
        { q with keepSum := [], dropSum := [], epochnum := epochnum }) := by
  have above := holds.above
  have count := holds.count
  have room := holds.room
  unfold findNextEpoch
  by_cases empty : q.nelem = 0
  · simp only [empty, if_true]
    refine ⟨notAnIndex, by simp, fun _ => .inl ⟨rfl, ?_⟩⟩
    have inside : q.nextDequeueIx ≠ -1 := fun outside =>
      holds.occupied outside (length_eq_zero_iff.mp (by omega))
    simp only
    omega
  · simp only [empty, if_false]
    split_ifs with notReady
    · intro _
      simp
    · have ready := not_not.mp notReady
      by_cases positive : 0 < config.epochLen
      · have inside : 0 ≤ q.nextDequeueIx := by
          cases holds.boundary positive with
          | inl none => exact none.2
          | inr boundary =>
            obtain ⟨j, item, -, nonneg, -⟩ := boundary
            omega
        have atFront : q.nextEpochIx = place config.qlen q.nextDequeueIx 0 := ready
        have advanced := @advanceNextEpoch_spec _ config q items holds inside epochnum
          (config.qlen.toNat + 1) 0 (Nat.zero_le _) (by omega)
        rw [← atFront] at advanced
        apply advanced.bind
        intro index found
        refine ⟨_, rfl, fun _ => ?_⟩
        by_cases atEnd : index = q.nextEnqueueIx
        · simp only [atEnd, if_true]
          exact .inl ⟨rfl, inside⟩
        · simp only [atEnd, if_false]
          exact .inr (found.resolve_left atEnd)
      · cases advanceNextEpoch config
          { q with keepSum := [], dropSum := [], epochnum := epochnum }
          (config.qlen.toNat + 1) q.nextEpochIx with
        | error fault => exact fun positive' => absurd positive' positive
        | ok index => exact ⟨_, rfl, fun positive' => absurd positive' positive⟩

theorem getSummaries_spec : Ends (Harmless config) (fun result =>
      result.1 = (getSynopsis config q q.keepSum, getSynopsis config q q.dropSum) ∧
      QueueHolds config result.2 items ∧ result.2.keepSum = [] ∧ result.2.dropSum = [] ∧
      result.2.haveTs = q.haveTs ∧ result.2.nextDequeueIx = q.nextDequeueIx)
      (triageGetSummaries config q) := by
  unfold triageGetSummaries
  split_ifs with ready
  · apply (findNextEpoch_spec holds (q.epochnum + 1)).bind
    rintro next ⟨index, isNext, boundary⟩
    subst isNext
    refine ⟨rfl, ⟨holds.occupies, holds.count, holds.room, holds.above, holds.below,
      holds.occupied, holds.back, boundary, ?_⟩, rfl, rfl, rfl, rfl⟩
    intro notStarted
    exact ⟨(holds.unstarted notStarted).1, rfl, rfl⟩
  · intro _
    simp

end

end Operations

end TelegraphCQ.Triage
