import Mathlib.Tactic.Linarith
import TelegraphCQ.Shedding.MhistPartition

/-!
# Every tuple is counted

With two buckets or more every tuple that is loaded is counted in the one bucket that it fits.
There are two buckets or more unless the histogram has no room for them, the first dimension
does not vary in the sample, or a difference overflows.
-/

namespace TelegraphCQ.Shedding

open Foundation List

variable {numDims : Nat}

/-! ## Loading -/

variable {tuple : Tuple numDims} {buckets : List (Bucket numDims)} {numBuckets : Nat}
  {sample : List (Tuple numDims)}

theorem findBucket_passed (others : buckets.countP (fun bucket => bucket.Fits tuple) = 0)
    (bucketid proper : Nat) :
    findBucket tuple bucketid buckets (some proper) = .ok (some proper) := by
  induction buckets generalizing bucketid with
  | nil => rfl
  | cons bucket buckets ih =>
    have misfits := countP_eq_zero.mp others
    have misfit : ¬bucket.Fits tuple := by simpa using misfits bucket mem_cons_self
    rw [findBucket, if_neg misfit]
    exact ih (countP_eq_zero.mpr fun other mem =>
      misfits other (mem_cons_of_mem _ mem)) _

theorem findBucket_ok (one : buckets.countP (fun bucket => bucket.Fits tuple) = 1)
    (change : Bucket numDims → Bucket numDims) (bucketid : Nat) :
    ∃ offset, findBucket tuple bucketid buckets none = .ok (some (bucketid + offset)) ∧
      buckets.modify offset change =
        buckets.map fun bucket => if bucket.Fits tuple then change bucket else bucket := by
  induction buckets generalizing bucketid with
  | nil => cases one
  | cons bucket buckets ih =>
    by_cases fits : bucket.Fits tuple
    · have others : buckets.countP (fun bucket => bucket.Fits tuple) = 0 := by
        simpa [countP_cons, fits] using one
      refine ⟨0, ?_, ?_⟩
      · rw [findBucket, if_pos fits, if_pos rfl, findBucket_passed others]
        rfl
      · have misfits := countP_eq_zero.mp others
        have unchanged : ∀ other ∈ buckets,
            (if other.Fits tuple then change other else other) = other :=
          fun other mem => if_neg (by simpa using misfits other mem)
        rw [modify_zero_cons, map_cons, if_pos fits, map_congr_left unchanged, map_id']
    · have one' : buckets.countP (fun bucket => bucket.Fits tuple) = 1 := by
        simpa [countP_cons, fits] using one
      obtain ⟨offset, found, changed⟩ := ih one' (bucketid + 1)
      refine ⟨offset + 1, ?_, ?_⟩
      · rw [findBucket, if_neg fits, found]
        congr 2
        omega
      · rw [modify_succ_cons, map_cons, if_neg fits, changed]

def Bucket.countTuples (tuples : List (Tuple numDims)) (bucket : Bucket numDims) :
    Bucket numDims :=
  { bucket with count := bucket.count + (tuples.countP fun tuple => bucket.Fits tuple : Nat) }

theorem Bucket.countTuples_cons (bucket : Bucket numDims) (tuple : Tuple numDims)
    (tuples : List (Tuple numDims)) :
    (bucket.countTuples [tuple]).countTuples tuples = bucket.countTuples (tuple :: tuples) := by
  have count_eq : bucket.count + ([tuple].countP fun tuple => bucket.Fits tuple : Nat) +
        (tuples.countP fun tuple => bucket.Fits tuple : Nat) =
      bucket.count + ((tuple :: tuples).countP fun tuple => bucket.Fits tuple : Nat) := by
    have split : (tuple :: tuples).countP (fun tuple => bucket.Fits tuple) =
        [tuple].countP (fun tuple => bucket.Fits tuple) +
          tuples.countP (fun tuple => bucket.Fits tuple) := by
      rw [← countP_append, singleton_append]
    rw [split, Nat.cast_add, add_assoc]
  exact congrArg (fun count => { bucket with count := count }) count_eq

theorem Partitions.countTuples (partitions : Partitions buckets) (tuples : List (Tuple numDims)) :
    Partitions (buckets.map (Bucket.countTuples tuples)) := by
  intro point
  rw [countP_map]
  exact partitions point

theorem mhistLoadBuckets_ok {tuples : List (Tuple numDims)}
    (room : tuples = [] ∨ numDims ≤ mhistMaxDims) {hist : Mhist numDims}
    (partitions : Partitions hist.buckets) : mhistLoadBuckets tuples hist =
      .ok { hist with buckets := hist.buckets.map (Bucket.countTuples tuples) } := by
  induction tuples generalizing hist with
  | nil =>
    have same : hist.buckets.map (Bucket.countTuples []) = hist.buckets := by
      have unchanged : (Bucket.countTuples [] : Bucket numDims → Bucket numDims) = id := by
        funext bucket
        simp [Bucket.countTuples]
      rw [unchanged, map_id]
    rw [mhistLoadBuckets, same]
  | cons tuple tuples ih =>
    have dims : numDims ≤ mhistMaxDims := room.resolve_left (by simp)
    obtain ⟨offset, found, changed⟩ :=
      findBucket_ok (partitions tuple) (fun bucket => { bucket with count := bucket.count + 1 }) 0
    have one : mhistLoadTuple tuple hist =
        .ok { hist with buckets := hist.buckets.map (Bucket.countTuples [tuple]) } := by
      rw [mhistLoadTuple, if_neg (by omega), getMhistBucketForTuple, found]
      simp only [bind, Except.bind, Nat.zero_add, changed]
      congr 2
      refine map_congr_left fun bucket _ => ?_
      by_cases fits : bucket.Fits tuple <;> simp [Bucket.countTuples, fits]
    rw [mhistLoadBuckets, one]
    refine (ih (.inr dims) (partitions.countTuples [tuple])).trans ?_
    simp only [map_map]
    congr 2
    exact map_congr_left fun bucket _ => bucket.countTuples_cons tuple tuples

theorem sum_fits (tuple : Tuple numDims) (buckets : List (Bucket numDims)) :
    (buckets.map fun bucket => if bucket.Fits tuple then (1 : ℚ) else 0).sum =
      (buckets.countP fun bucket => bucket.Fits tuple : Nat) := by
  induction buckets with
  | nil => rfl
  | cons bucket buckets ih =>
    rw [map_cons, sum_cons, ih, countP_cons, Nat.cast_add, add_comm]
    by_cases fits : bucket.Fits tuple <;> simp [fits]

theorem Partitions.sum_countTuples (partitions : Partitions buckets)
    (zero : ∀ bucket ∈ buckets, bucket.count = 0) (tuples : List (Tuple numDims)) :
    ((buckets.map (Bucket.countTuples tuples)).map (·.count)).sum = tuples.length := by
  have counts : ((buckets.map (Bucket.countTuples tuples)).map (·.count)) =
      buckets.map fun bucket => ((tuples.countP fun tuple => bucket.Fits tuple : Nat) : ℚ) := by
    rw [map_map]
    refine map_congr_left fun bucket mem => ?_
    simp [Bucket.countTuples, zero bucket mem]
  rw [counts]
  clear counts zero
  induction tuples with
  | nil => simp
  | cons tuple tuples ih =>
    have each : ∀ bucket : Bucket numDims,
        (((tuple :: tuples).countP fun tuple => bucket.Fits tuple : Nat) : ℚ) =
          (tuples.countP fun tuple => bucket.Fits tuple : Nat) +
            if bucket.Fits tuple then 1 else 0 := by
      intro bucket
      rw [countP_cons]
      push_cast
      simp
    have once : (buckets.map fun bucket => if bucket.Fits tuple then (1 : ℚ) else 0).sum = 1 := by
      rw [sum_fits, partitions tuple, Nat.cast_one]
    simp only [each]
    rw [sum_map_add, ih, once, length_cons]
    push_cast
    rfl

/-! ## Where no bucket is made -/

section Failing

variable {sample : List (Tuple numDims)}

theorem first_tight (sample : List (Tuple numDims)) (dimid : Fin numDims) :
    let part := wholePart sample
    (part.values dimid).head?.any ((part.bucket.diminfo dimid).minVal < ·) = false ∧
      (part.values dimid).getLast?.any (· < (part.bucket.diminfo dimid).maxVal) = false := by
  intro part
  have attained : ∀ val ∈ part.values dimid,
      (part.bucket.diminfo dimid).minVal ∈ part.values dimid ∧
        (part.bucket.diminfo dimid).maxVal ∈ part.values dimid := by
    intro val mem
    obtain ⟨tuple, tuple_mem, -⟩ := Part.mem_values.mp mem
    have some_value : column dimid sample ≠ [] :=
      ne_nil_of_mem (mem_map_of_mem (f := (· dimid)) tuple_mem)
    obtain ⟨low_mem, high_mem⟩ := getRange_attained some_value
    exact ⟨Part.mem_values.mpr (mem_map.mp low_mem), Part.mem_values.mpr (mem_map.mp high_mem)⟩
  constructor
  · refine (Option.any_eq_false _ _).mpr fun first first_at => ?_
    have first_at' : (part.values dimid)[0]? = some first := head?_eq_getElem? ▸ first_at
    obtain ⟨low_mem, -⟩ := attained first (mem_of_getElem? first_at')
    obtain ⟨place, low_at⟩ := mem_iff_getElem?.mp low_mem
    have le := le_of_getElem? (part.values_ordered dimid) first_at' low_at (Nat.zero_le _)
    exact decide_eq_false (not_lt.mpr le)
  · refine (Option.any_eq_false _ _).mpr fun last last_at => ?_
    have last_at' : (part.values dimid)[(part.values dimid).length - 1]? = some last :=
      getLast?_eq_getElem? ▸ last_at
    obtain ⟨-, high_mem⟩ := attained last (mem_of_getElem? last_at')
    obtain ⟨place, high_at⟩ := List.mem_iff_getElem?.mp high_mem
    obtain ⟨place_lt, -⟩ := List.getElem?_eq_some_iff.mp high_at
    have le := le_of_getElem? (part.values_ordered dimid) high_at last_at' (by omega)
    exact decide_eq_false (not_lt.mpr le)

variable {dimid : Fin numDims} {range : DimInfo} {diffs : List Int}
  {info result : MaxdiffInfo numDims} {dims : List (Fin numDims)}

theorem compareDiffs_unflagged (unflagged : info.Unflagged)
    (ran : compareDiffs dimid range diffs info = .ok result) : result.Unflagged := by
  induction diffs generalizing info with
  | nil =>
    rw [compareDiffs] at ran
    cases ran
    exact unflagged
  | cons diff diffs ih =>
    rw [compareDiffs] at ran
    obtain ⟨value, -, ran⟩ := exists_of_bind_ok ran
    obtain ⟨width, -, ran⟩ := exists_of_bind_ok ran
    refine ih ?_ ran
    unfold offerDiff
    split_ifs <;> exact unflagged

theorem compareDiffs_width (ran : compareDiffs dimid range diffs info = .ok result)
    (nonempty : diffs ≠ []) : range.maxVal - range.minVal ≤ 2147483647 := by
  cases diffs with
  | nil => exact (nonempty rfl).elim
  | cons diff diffs =>
    rw [compareDiffs] at ran
    obtain ⟨value, -, ran⟩ := exists_of_bind_ok ran
    obtain ⟨width, width_eq, -⟩ := exists_of_bind_ok ran
    exact (checkInt_eq_ok width_eq).2

structure Stuck (info : MaxdiffInfo numDims) : Prop where
  norm : info.norm = none
  started : info.abs ≠ -1

theorem Stuck.compareDiffs_eq (stuck : Stuck info)
    (ran : compareDiffs dimid range diffs info = .ok result) : result = info := by
  induction diffs with
  | nil =>
    rw [compareDiffs] at ran
    exact (Except.ok.inj ran).symm
  | cons diff diffs ih =>
    rw [compareDiffs] at ran
    obtain ⟨value, -, ran⟩ := exists_of_bind_ok ran
    obtain ⟨width, -, ran⟩ := exists_of_bind_ok ran
    have kept : offerDiff dimid value (normDiff value width) info = info := by
      refine if_neg ?_
      rintro (wider | start)
      · rw [stuck.norm] at wider
        cases h : normDiff value width <;> simp [greater, h] at wider
      · exact stuck.started start
    rw [kept] at ran
    exact ih ran

theorem compareDiffs_stuck (start : info.abs = -1) (nonempty : diffs ≠ [])
    (nonneg : ∀ diff ∈ diffs, 0 ≤ diff) (flat : range.maxVal - range.minVal = 0)
    (ran : compareDiffs dimid range diffs info = .ok result) : Stuck result := by
  cases diffs with
  | nil => exact (nonempty rfl).elim
  | cons diff diffs =>
    rw [compareDiffs] at ran
    obtain ⟨value, value_eq, ran⟩ := exists_of_bind_ok ran
    obtain ⟨width, width_eq, ran⟩ := exists_of_bind_ok ran
    obtain ⟨rfl, -⟩ := checkInt_eq_ok value_eq
    obtain ⟨rfl, -⟩ := checkInt_eq_ok width_eq
    have taken : offerDiff dimid value (normDiff value (range.maxVal - range.minVal)) info =
        { info with abs := value, norm := none, dimid := some dimid } := by
      rw [offerDiff, if_pos (.inr start), flat]
      rfl
    have value_nonneg := nonneg value mem_cons_self
    have stuck : Stuck { info with abs := value, norm := none, dimid := some dimid } :=
      ⟨rfl, by simp only; omega⟩
    rw [taken] at ran
    exact stuck.compareDiffs_eq ran ▸ stuck

theorem scanDims_tight (unflagged : info.Unflagged)
    (ran : scanDims (getRanges sample) (wholePart sample) (dimid :: dims) info = .ok result) :
    ∃ next, compareDiffs dimid (getRanges sample dimid)
        (gaps ((wholePart sample).values dimid)) info = .ok next ∧
      next.Unflagged ∧ scanDims (getRanges sample) (wholePart sample) dims next = .ok result := by
  obtain ⟨below, above⟩ := first_tight sample dimid
  rw [scanDims, if_neg (by simp [unflagged]), if_neg (by simpa using below),
    if_neg (by simpa using above)] at ran
  obtain ⟨next, compared, ran⟩ := exists_of_bind_ok ran
  exact ⟨next, compared, compareDiffs_unflagged unflagged compared, ran⟩

theorem scanDims_width (unflagged : info.Unflagged)
    (ran : scanDims (getRanges sample) (wholePart sample) dims info = .ok result)
    (mem : dimid ∈ dims) (nonempty : gaps ((wholePart sample).values dimid) ≠ []) :
    spread sample dimid ≤ 2147483647 := by
  induction dims generalizing info with
  | nil => cases mem
  | cons other dims ih =>
    obtain ⟨next, compared, unflagged', ran'⟩ := scanDims_tight unflagged ran
    rcases mem_cons.mp mem with rfl | mem
    · exact compareDiffs_width compared nonempty
    · exact ih unflagged' ran' mem

theorem Stuck.scanDims (stuck : Stuck info) (unflagged : info.Unflagged)
    (ran : scanDims (getRanges sample) (wholePart sample) dims info = .ok result) :
    result = info := by
  induction dims with
  | nil =>
    rw [Shedding.scanDims] at ran
    exact (Except.ok.inj ran).symm
  | cons other dims ih =>
    obtain ⟨next, compared, -, ran'⟩ := scanDims_tight unflagged ran
    rw [stuck.compareDiffs_eq compared] at ran'
    exact ih ran'

theorem gaps_first_ne_nil {low high : Tuple numDims} (low_mem : low ∈ sample)
    (high_mem : high ∈ sample) (ne : low ≠ high) (dimid : Fin numDims) :
    gaps ((wholePart sample).values dimid) ≠ [] := by
  intro none
  have length_eq := length_gaps ((wholePart sample).values dimid)
  rw [none, Part.length_values, length_nil] at length_eq
  match sample, length_eq with
  | [], _ => cases low_mem
  | [only], _ =>
    exact ne ((mem_singleton.mp low_mem).trans (mem_singleton.mp high_mem).symm)
  | first :: second :: rest, length_eq => simp at length_eq

theorem splitABucket_first {split : List (Part numDims)}
    (ran : splitABucket (getRanges sample) [wholePart sample] = .ok (some split)) :
    FirstVaries sample ∧ SpreadFits sample := by
  rw [splitABucket] at ran
  split_ifs at ran with none
  · cases ran
  obtain ⟨point, point_eq, -⟩ := exists_of_bind_ok ran
  rw [Bool.not_eq_true] at none
  obtain ⟨part, part_mem, low, low_mem, high, high_mem, varying, lt⟩ := exists_differ none
  rw [mem_singleton] at part_mem
  subst part_mem
  have differ : low ≠ high := fun same => absurd lt (by rw [same]; exact lt_irrefl _)
  have some_gap := gaps_first_ne_nil low_mem high_mem differ
  rw [getMhistSplitPoint, getMaxdiffs] at point_eq
  obtain ⟨measured, measured_eq, chosen⟩ := exists_of_bind_ok point_eq
  obtain ⟨info, info_eq, measured_eq⟩ := exists_of_bind_ok measured_eq
  cases measured_eq
  refine ⟨?_, ?_⟩
  · by_contra constant
    have first_mem : (⟨0, varying.pos⟩ : Fin numDims) ∈ (List.finRange numDims).head? := by
      cases numDims with
      | zero => exact varying.elim0
      | succ numDims => simp [finRange_succ]
    have flat : spread sample ⟨0, varying.pos⟩ = 0 := by
      obtain ⟨small, small_mem, large, large_mem, spread_eq⟩ :=
        exists_spread (ne_nil_of_mem low_mem) ⟨0, varying.pos⟩
      rw [spread_eq, sub_eq_zero]
      by_contra apart
      exact constant ⟨⟨0, varying.pos⟩, rfl, small, small_mem, large, large_mem, Ne.symm apart⟩
    obtain ⟨dims, dims_eq⟩ := head?_eq_some_iff.mp first_mem
    rw [getMaxdiff, dims_eq] at info_eq
    obtain ⟨next, compared, unflagged, ran'⟩ := scanDims_tight ⟨rfl, rfl⟩ info_eq
    have stuck : Stuck next := compareDiffs_stuck rfl (some_gap _)
      (fun gap mem => gap_nonneg (Part.values_ordered _ _) mem) flat compared
    obtain rfl := stuck.scanDims unflagged ran'
    -- the bucket is chosen, and what was found of it is not above zero
    simp [chooseBucket, unflagged, betterBucket, stuck.norm, greater] at chosen
  · intro dimid small small_mem large large_mem
    have le := scanDims_width ⟨rfl, rfl⟩ info_eq (mem_finRange dimid) (some_gap dimid)
    exact (sub_le_spread small_mem large_mem dimid).trans le

end Failing

/-! ## The histogram that loses no tuple -/

/-- Creating and loading end, every point of the space is in one bucket, and every tuple that
was loaded is counted in the bucket that it fits. -/
def LosesNoTuple (numBuckets : Nat) (sample tuples : List (Tuple numDims)) : Prop :=
  ∃ created loaded,
    mhistCreateBuckets (createMhist numBuckets numDims) sample = .ok created ∧
    mhistLoadBuckets tuples created = .ok loaded ∧
    created.numBucketsUsed ≤ numBuckets ∧ Partitions created.buckets ∧
    loaded.buckets = created.buckets.map (fun bucket =>
      { bucket with count := (tuples.countP fun tuple => bucket.Fits tuple : Nat) }) ∧
    (loaded.buckets.map (·.count)).sum = tuples.length

theorem Partitions.ne_nil (partitions : Partitions buckets) : buckets ≠ [] := by
  rintro rfl
  exact absurd (partitions fun _ => 0) (by simp)

theorem mhistCreateBuckets_eq (rounds : Nat) (sample : List (Tuple numDims)) :
    mhistCreateBuckets (createMhist (rounds + 1) numDims) sample =
      (splitBuckets (getRanges sample) rounds 0 [wholePart sample]).map fun made =>
        { createMhist (rounds + 1) numDims with
          buckets := (made.2.map (·.bucket)).take made.1 } := by
  have unused : ¬(createMhist (rounds + 1) numDims).numBucketsUsed ≠ 0 := not_not.mpr rfl
  have room : ¬(createMhist (rounds + 1) numDims).numBucketsAllocated = 0 := Nat.succ_ne_zero rounds
  rw [mhistCreateBuckets, if_neg unused, if_neg room]
  change (splitBuckets (getRanges sample) rounds 0 _ >>= _) = _
  cases splitBuckets (getRanges sample) rounds 0 [wholePart sample] with
  | error fault => rfl
  | ok made => rfl

theorem mhistCreateBuckets_first {created : Mhist numDims}
    (ran : mhistCreateBuckets (createMhist numBuckets numDims) sample = .ok created)
    (made : created.buckets ≠ []) : 2 ≤ numBuckets ∧ ∃ split,
      splitABucket (getRanges sample) [wholePart sample] = .ok (some split) := by
  match numBuckets with
  | 0 => cases ran
  | 1 =>
    rw [mhistCreateBuckets_eq, splitBuckets] at ran
    cases ran
    exact (made rfl).elim
  | numBuckets + 2 =>
    refine ⟨by omega, ?_⟩
    rw [mhistCreateBuckets_eq, splitBuckets] at ran
    cases outcome : splitABucket (getRanges sample) [wholePart sample] with
    | error fault =>
      rw [outcome] at ran
      cases ran
    | ok split =>
      cases split with
      | some split => exact ⟨split, rfl⟩
      | none =>
        rw [outcome] at ran
        cases ran
        exact (made rfl).elim

theorem mhistCreateBuckets_ok (room : 2 ≤ numBuckets) (varies : FirstVaries sample)
    (fits : SpreadFits sample) :
    ∃ created, mhistCreateBuckets (createMhist numBuckets numDims) sample = .ok created ∧
      created.numBucketsUsed ≤ numBuckets ∧ Partitions created.buckets ∧
      ∀ bucket ∈ created.buckets, bucket.count = 0 := by
  have divided := divided_first sample
  have some_split : noBucketsToSplit [wholePart sample] ≠ true := by
    rw [Ne, noBucketsToSplit_first]
    intro same
    obtain ⟨first, -, low, low_mem, high, high_mem, ne⟩ := varies
    exact ne (congrFun (same low low_mem high high_mem) first)
  obtain ⟨stop, -⟩ | ⟨split, split_eq, divided', longer⟩ := divided.splitABucket_ok fits varies
  · exact (some_split stop).elim
  · obtain ⟨final, final_eq, divided'', le⟩ := divided'.splitBuckets_ok fits varies (numBuckets - 2)
    refine ⟨{ createMhist numBuckets numDims with buckets := final.map (·.bucket) },
      ?_, ?_, divided''.partitions, ?_⟩
    · obtain ⟨rounds, rfl⟩ : ∃ rounds, numBuckets = rounds + 2 := ⟨numBuckets - 2, by omega⟩
      rw [Nat.add_sub_cancel] at final_eq
      rw [mhistCreateBuckets_eq, splitBuckets, split_eq]
      simp only [bind, Except.bind, final_eq, Except.map]
      rw [take_of_length_le (by simp)]
    · simp only [Mhist.numBucketsUsed, length_map]
      simp only [length_singleton] at longer
      omega
    · intro bucket mem
      obtain ⟨part, part_mem, rfl⟩ := mem_map.mp mem
      exact (divided''.within part part_mem).uncounted

/-- A histogram loses no tuple exactly if it has room for two buckets and the first dimension
varies in the sample; and then its dimensions have to fit the array that a tuple is copied to. -/
theorem histogram_complete_iff (numBuckets : Nat) (sample tuples : List (Tuple numDims)) :
    LosesNoTuple numBuckets sample tuples ↔
      2 ≤ numBuckets ∧ FirstVaries sample ∧ SpreadFits sample ∧
        (tuples = [] ∨ numDims ≤ mhistMaxDims) := by
  constructor
  · rintro ⟨created, loaded, created_eq, loaded_eq, -, partitions, -⟩
    obtain ⟨room, split, split_eq⟩ := mhistCreateBuckets_first created_eq partitions.ne_nil
    obtain ⟨varies, fits⟩ := splitABucket_first split_eq
    refine ⟨room, varies, fits, ?_⟩
    cases tuples with
    | nil => exact .inl rfl
    | cons tuple tuples =>
      rw [mhistLoadBuckets] at loaded_eq
      obtain ⟨next, next_eq, -⟩ := exists_of_bind_ok loaded_eq
      rw [mhistLoadTuple] at next_eq
      split_ifs at next_eq with many
      exact .inr (not_lt.mp many)
  · rintro ⟨room, varies, fits, few⟩
    obtain ⟨created, created_eq, used, partitions, zero⟩ := mhistCreateBuckets_ok room varies fits
    have counted : created.buckets.map (Bucket.countTuples tuples) =
        created.buckets.map (fun bucket =>
          { bucket with count := (tuples.countP fun tuple => bucket.Fits tuple : Nat) }) := by
      refine map_congr_left fun bucket mem => ?_
      rw [Bucket.countTuples, zero bucket mem, zero_add]
    have sum := partitions.sum_countTuples zero tuples
    exact ⟨created, _, created_eq, mhistLoadBuckets_ok few partitions, used, partitions, counted,
      sum⟩

/-- Of two equal tuples no bucket is made, and the bucket with the number -1 is counted up.
Where only the second dimension varies no bucket can be chosen. -/
theorem equal_tuples_outside_histogram :
    (mhistCreateBuckets (createMhist 2 1) [fun _ => 5, fun _ => 5] = .ok (createMhist 2 1) ∧
      mhistLoadBuckets [fun _ => 5, fun _ => 5] (createMhist 2 1) = .error .outOfBounds ∧
      ¬@LosesNoTuple 1 2 [fun _ => 5, fun _ => 5] [fun _ => 5, fun _ => 5]) ∧
    mhistCreateBuckets (createMhist 2 2) [fun _ => 0, fun dimid => dimid.val] =
      .error .assertion := by
  have created :
      mhistCreateBuckets (createMhist 2 1) [fun _ => 5, fun _ => 5] = .ok (createMhist 2 1) := by
    rfl
  have loaded : mhistLoadBuckets [fun _ => 5, fun _ => 5] (createMhist 2 1) =
      .error .outOfBounds := rfl
  refine ⟨⟨created, loaded, ?_⟩, ?_⟩
  · rintro ⟨made, counted, made_eq, counted_eq, -⟩
    rw [created] at made_eq
    cases made_eq
    rw [loaded] at counted_eq
    cases counted_eq
  · rfl

end TelegraphCQ.Shedding
