import Mathlib.Algebra.Order.Field.Rat
import Mathlib.Tactic.Positivity
import TelegraphCQ.Foundation.Outcome
import TelegraphCQ.Foundation.Slots
import TelegraphCQ.Shedding.Mhist

/-!
# The buckets of an adaptive histogram divide the space

Each split cuts one bucket in two along one dimension, so that every point of the space stays
in exactly one bucket.  As soon as there are two buckets, every tuple that is loaded is counted
once.
-/

namespace TelegraphCQ.Shedding

open Foundation List Function

variable {numDims : Nat}

/-! ## Buckets that divide the space -/

def DimInfo.Accepts (di : DimInfo) (val : Int) : Prop :=
  (val ≤ di.maxVal ∨ di.acceptAboveMax = true) ∧ (di.minVal ≤ val ∨ di.acceptBelowMin = true)

variable {bucket : Bucket numDims} {dimid : Fin numDims} {splitVal val : Int} {vals : List Int}

theorem Bucket.fits_iff {tuple : Tuple numDims} :
    bucket.Fits tuple ↔ ∀ dimid, (bucket.diminfo dimid).Accepts (tuple dimid) := by
  refine forall_congr' fun dimid => ?_
  rw [not_or, DimInfo.Accepts, not_and, not_and, Bool.not_eq_false, Bool.not_eq_false,
    or_iff_not_imp_left, or_iff_not_imp_left, not_le, not_le]

def Partitions (buckets : List (Bucket numDims)) : Prop :=
  ∀ point : Tuple numDims, buckets.countP (fun bucket => bucket.Fits point) = 1

theorem Bucket.fits_update {bucket : Bucket numDims} {dimid : Fin numDims} {di : DimInfo}
    {Side : Int → Prop}
    (accepts : ∀ val, di.Accepts val ↔ (bucket.diminfo dimid).Accepts val ∧ Side val)
    (point : Tuple numDims) :
    Bucket.Fits { bucket with diminfo := update bucket.diminfo dimid di } point ↔
      bucket.Fits point ∧ Side (point dimid) := by
  simp only [Bucket.fits_iff]
  constructor
  · intro fits
    have here := (accepts (point dimid)).mp (by simpa using fits dimid)
    refine ⟨fun other => ?_, here.2⟩
    by_cases same : other = dimid
    · exact same ▸ here.1
    · simpa [update_of_ne same] using fits other
  · rintro ⟨fits, side⟩ other
    by_cases same : other = dimid
    · subst same
      simpa using (accepts (point other)).mpr ⟨fits other, side⟩
    · simpa [update_of_ne same] using fits other

theorem Bucket.fits_cutAbove (high : splitVal + 1 ≤ (bucket.diminfo dimid).maxVal)
    (point : Tuple numDims) : (bucket.cutAbove dimid splitVal).Fits point ↔
      bucket.Fits point ∧ point dimid ≤ splitVal := by
  refine @Bucket.fits_update _ bucket dimid _ (· ≤ splitVal) (fun val => ?_) point
  simp only [DimInfo.Accepts, Bool.false_eq_true, or_false]
  constructor
  · rintro ⟨le, below⟩
    exact ⟨⟨.inl (by omega), below⟩, le⟩
  · rintro ⟨⟨-, below⟩, le⟩
    exact ⟨le, below⟩

theorem Bucket.fits_cutBelow (low : (bucket.diminfo dimid).minVal ≤ splitVal)
    (point : Tuple numDims) : (bucket.cutBelow dimid splitVal).Fits point ↔
      bucket.Fits point ∧ splitVal < point dimid := by
  refine @Bucket.fits_update _ bucket dimid _ (splitVal < ·) (fun val => ?_) point
  simp only [DimInfo.Accepts, Bool.false_eq_true, or_false]
  constructor
  · rintro ⟨above, le⟩
    exact ⟨⟨above, .inl (by omega)⟩, by omega⟩
  · rintro ⟨⟨above, -⟩, lt⟩
    exact ⟨above, by omega⟩

theorem Bucket.countP_cut (low : (bucket.diminfo dimid).minVal ≤ splitVal)
    (high : splitVal + 1 ≤ (bucket.diminfo dimid).maxVal) (point : Tuple numDims) :
    [bucket.cutAbove dimid splitVal, bucket.cutBelow dimid splitVal].countP
        (fun bucket => bucket.Fits point) = [bucket].countP (fun bucket => bucket.Fits point) := by
  have above := Bucket.fits_cutAbove high point
  have below := Bucket.fits_cutBelow low point
  by_cases fits : bucket.Fits point
  · by_cases side : point dimid ≤ splitVal
    · simp [above, below, fits, side, not_lt.mpr side]
    · simp [above, below, fits, side, not_le.mp side]
  · simp [above, below, fits]

/-! ## One split -/

abbrev Part.values (part : Part numDims) (dimid : Fin numDims) : List Int :=
  column dimid (sortTuplesAlongDim dimid part.tuples)

theorem Part.values_ordered (part : Part numDims) (dimid : Fin numDims) :
    (part.values dimid).Pairwise (· ≤ ·) := sortBy_ordered (· dimid) part.tuples

theorem Part.mem_values {part : Part numDims} :
    val ∈ part.values dimid ↔ ∃ tuple ∈ part.tuples, tuple dimid = val := by
  simp [column, sortTuplesAlongDim]

theorem Part.length_values (part : Part numDims) (dimid : Fin numDims) :
    (part.values dimid).length = part.tuples.length := by
  simp [column, sortTuplesAlongDim]

structure Part.Within (sample : List (Tuple numDims)) (part : Part numDims) : Prop where
  sampled : ∀ tuple ∈ part.tuples, tuple ∈ sample
  bounded : ∀ tuple ∈ part.tuples, ∀ dimid,
    (part.bucket.diminfo dimid).minVal ≤ tuple dimid ∧
      tuple dimid ≤ (part.bucket.diminfo dimid).maxVal
  uncounted : part.bucket.count = 0

structure Divided (sample : List (Tuple numDims)) (parts : List (Part numDims)) : Prop where
  partitions : Partitions (parts.map (·.bucket))
  within : ∀ part ∈ parts, part.Within sample

structure Separates (part : Part numDims) (dimid : Fin numDims) (splitOffset splitVal : Int) :
    Prop where
  found : getSplitVal (part.values dimid) splitOffset = .ok splitVal
  low : (part.bucket.diminfo dimid).minVal ≤ splitVal
  high : splitVal + 1 ≤ (part.bucket.diminfo dimid).maxVal
  below : ∀ tuple ∈ (sortTuplesAlongDim dimid part.tuples).take (splitOffset + 1).toNat,
    tuple dimid ≤ splitVal
  above : ∀ tuple ∈ (sortTuplesAlongDim dimid part.tuples).drop (splitOffset + 1).toNat,
    splitVal + 1 ≤ tuple dimid

section Sides

variable {sample : List (Tuple numDims)} {part : Part numDims} {dimid : Fin numDims}
  {splitOffset splitVal : Int}

theorem Part.Within.of_side (within : part.Within sample) {side : Part numDims} {di : DimInfo}
    (bucket_eq : side.bucket = { part.bucket with diminfo := update part.bucket.diminfo dimid di })
    (tuples_sub : ∀ tuple ∈ side.tuples, tuple ∈ part.tuples)
    (bounds : ∀ tuple ∈ side.tuples, di.minVal ≤ tuple dimid ∧ tuple dimid ≤ di.maxVal) :
    side.Within sample := by
  refine ⟨fun tuple mem => within.sampled tuple (tuples_sub tuple mem), ?_, ?_⟩
  · intro tuple mem other
    rw [bucket_eq]
    by_cases same : other = dimid
    · subst same
      simpa using bounds tuple mem
    · simpa [update_of_ne same] using within.bounded tuple (tuples_sub tuple mem) other
  · rw [bucket_eq]
    exact within.uncounted

theorem Part.Within.split (within : part.Within sample)
    (separates : Separates part dimid splitOffset splitVal) :
    ∃ old new, splitPart part dimid splitOffset = .ok (old, new) ∧ old.Within sample ∧
      new.Within sample ∧ old.bucket = part.bucket.cutAbove dimid splitVal ∧
      new.bucket = part.bucket.cutBelow dimid splitVal := by
  let sorted := sortTuplesAlongDim dimid part.tuples
  have of_sorted : ∀ tuple ∈ sorted, tuple ∈ part.tuples := fun tuple mem => mem_sortBy.mp mem
  have taken : ∀ tuple ∈ sorted.take (splitOffset + 1).toNat, tuple ∈ part.tuples :=
    fun tuple mem => of_sorted tuple (mem_of_mem_take mem)
  have dropped : ∀ tuple ∈ sorted.drop (splitOffset + 1).toNat, tuple ∈ part.tuples :=
    fun tuple mem => of_sorted tuple (mem_of_mem_drop mem)
  refine ⟨⟨part.bucket.cutAbove dimid splitVal, sorted.take (splitOffset + 1).toNat⟩,
    ⟨part.bucket.cutBelow dimid splitVal, sorted.drop (splitOffset + 1).toNat⟩,
    ?_, ?_, ?_, rfl, rfl⟩
  · simp only [splitPart, separates.found]
    exact if_pos ⟨separates.low, separates.high⟩
  · exact within.of_side rfl taken fun tuple mem =>
      ⟨(within.bounded tuple (taken tuple mem) dimid).1, separates.below tuple mem⟩
  · exact within.of_side rfl dropped fun tuple mem =>
      ⟨separates.above tuple mem, (within.bounded tuple (dropped tuple mem) dimid).2⟩

theorem Divided.split {parts : List (Part numDims)} (divided : Divided sample parts)
    {bucketid : Nat} (part_at : parts[bucketid]? = some part)
    (separates : Separates part dimid splitOffset splitVal) :
    ∃ old new, splitPart part dimid splitOffset = .ok (old, new) ∧
      Divided sample (parts.set bucketid old ++ [new]) := by
  have within := divided.within part (mem_of_getElem? part_at)
  obtain ⟨old, new, split, old_within, new_within, old_eq, new_eq⟩ := within.split separates
  refine ⟨old, new, split, ?_, ?_⟩
  · intro point
    obtain ⟨others, before, after⟩ := perm_set_append part_at old new
    have one := divided.partitions point
    have cut := Bucket.countP_cut separates.low separates.high point
    rw [(before.map _).countP_eq] at one
    rw [(after.map _).countP_eq]
    simp only [map_append, map_cons, map_nil, countP_append, old_eq, new_eq, cut]
    simpa [countP_cons, Nat.add_comm] using one
  · refine forall_mem_append.mpr ⟨fun side mem => ?_, forall_mem_singleton.mpr new_within⟩
    rcases mem_or_eq_of_mem_set mem with mem | rfl
    · exact divided.within side mem
    · exact old_within

theorem separates_below (within : part.Within sample) {first : Int}
    (first_at : (part.values dimid).head? = some first)
    (empty : (part.bucket.diminfo dimid).minVal < first) :
    Separates part dimid (-1) (first - 1) := by
  have first_at' : (part.values dimid)[0]? = some first := by
    rw [← head?_eq_getElem?]
    exact first_at
  obtain ⟨tuple, mem, tuple_eq⟩ := Part.mem_values.mp (mem_of_getElem? first_at')
  have bounded := within.bounded tuple mem dimid
  refine ⟨?_, by omega, by omega, ?_, ?_⟩
  · simp [getSplitVal, first_at]
  · intro other mem
    simp at mem
  · intro other mem
    have le : first ≤ other dimid :=
      le_key_of_mem_drop (part.values_ordered dimid) first_at' (by simpa using mem)
    omega

theorem separates_above (within : part.Within sample) {last : Int}
    (last_at : (part.values dimid).getLast? = some last)
    (empty : last < (part.bucket.diminfo dimid).maxVal) :
    Separates part dimid (part.tuples.length - 1) last := by
  have nonempty : part.tuples.length ≠ 0 := by
    intro none
    have : part.values dimid = [] := length_eq_zero_iff.mp (by
      rw [part.length_values, none])
    rw [this] at last_at
    cases last_at
  have last_at' : (part.values dimid)[part.tuples.length - 1]? = some last := by
    rw [← last_at, getLast?_eq_getElem?, part.length_values]
  obtain ⟨tuple, mem, rfl⟩ := Part.mem_values.mp (mem_of_getElem? last_at')
  have bounded := within.bounded tuple mem dimid
  have place : ((part.tuples.length : Int) - 1 + 1).toNat = part.tuples.length - 1 + 1 := by
    omega
  refine ⟨?_, bounded.1, by omega, ?_, ?_⟩
  · have not_below : ¬(part.tuples.length : Int) - 1 = -1 := by omega
    have toNat : ((part.tuples.length : Int) - 1).toNat = part.tuples.length - 1 := by omega
    rw [getSplitVal, if_neg not_below, toNat, last_at']
  · intro other mem
    rw [place] at mem
    exact key_le_of_mem_take (part.values_ordered dimid) last_at' mem
  · intro other mem
    rw [place, Nat.sub_add_cancel (Nat.pos_of_ne_zero nonempty),
      drop_of_length_le (by simp [sortTuplesAlongDim])] at mem
    cases mem

theorem separates_gap (within : part.Within sample) {offset : Nat} {gap : Int}
    (gap_at : (gaps (part.values dimid))[offset]? = some gap) (pos : 0 < gap) :
    ∃ splitVal, Separates part dimid offset splitVal := by
  obtain ⟨low, high, low_at, high_at, gap_eq⟩ := exists_of_getElem?_gaps gap_at
  obtain ⟨lowest, lowest_mem, rfl⟩ := Part.mem_values.mp (mem_of_getElem? low_at)
  obtain ⟨highest, highest_mem, rfl⟩ := Part.mem_values.mp (mem_of_getElem? high_at)
  have low_bounded := within.bounded lowest lowest_mem dimid
  have high_bounded := within.bounded highest highest_mem dimid
  refine ⟨lowest dimid, ?_, low_bounded.1, by omega, ?_, ?_⟩
  · have not_below : ¬(offset : Int) = -1 := by omega
    rw [getSplitVal, if_neg not_below, Int.toNat_natCast, low_at]
  · intro tuple mem
    exact key_le_of_mem_take (part.values_ordered dimid) low_at mem
  · intro tuple mem
    have le := le_key_of_mem_drop (part.values_ordered dimid) high_at mem
    omega

end Sides

/-! ## The widest gap of a bucket -/

theorem min?_getRange (nonempty : vals ≠ []) : vals.min? = some (getRange vals).minVal ∧
    vals.max? = some (getRange vals).maxVal := by
  cases vals with
  | nil => cases nonempty rfl
  | cons => exact ⟨rfl, rfl⟩

theorem getRange_bounds (mem : val ∈ vals) :
    (getRange vals).minVal ≤ val ∧ val ≤ (getRange vals).maxVal := by
  obtain ⟨low, high⟩ := min?_getRange (ne_nil_of_mem mem)
  exact ⟨(min?_eq_some_iff.mp low).2 val mem, (max?_eq_some_iff.mp high).2 val mem⟩

theorem getRange_attained (nonempty : vals ≠ []) :
    (getRange vals).minVal ∈ vals ∧ (getRange vals).maxVal ∈ vals := by
  obtain ⟨low, high⟩ := min?_getRange nonempty
  exact ⟨(min?_eq_some_iff.mp low).1, (max?_eq_some_iff.mp high).1⟩

abbrev spread (sample : List (Tuple numDims)) (dimid : Fin numDims) : Int :=
  (getRanges sample dimid).maxVal - (getRanges sample dimid).minVal

def SpreadFits (sample : List (Tuple numDims)) : Prop :=
  ∀ dimid, ∀ low ∈ sample, ∀ high ∈ sample, high dimid - low dimid ≤ 2147483647

def FirstVaries (sample : List (Tuple numDims)) : Prop :=
  ∃ first : Fin numDims, first.val = 0 ∧
    ∃ low ∈ sample, ∃ high ∈ sample, low first ≠ high first

section Measuring

variable {sample : List (Tuple numDims)} {part : Part numDims}

theorem sub_le_spread {low high : Tuple numDims} (low_mem : low ∈ sample)
    (high_mem : high ∈ sample) (dimid : Fin numDims) :
    high dimid - low dimid ≤ spread sample dimid := by
  have low_bounds := getRange_bounds (mem_map_of_mem (f := (· dimid)) low_mem)
  have high_bounds := getRange_bounds (mem_map_of_mem (f := (· dimid)) high_mem)
  simp only [spread, getRanges, column]
  omega

theorem exists_spread (nonempty : sample ≠ []) (dimid : Fin numDims) :
    ∃ low ∈ sample, ∃ high ∈ sample, spread sample dimid = high dimid - low dimid := by
  have some_value : column dimid sample ≠ [] := by simpa [column] using nonempty
  obtain ⟨low_mem, high_mem⟩ := getRange_attained some_value
  obtain ⟨low, low_mem, low_eq⟩ := mem_map.mp low_mem
  obtain ⟨high, high_mem, high_eq⟩ := mem_map.mp high_mem
  exact ⟨low, low_mem, high, high_mem, by simp only [spread, getRanges]; rw [low_eq, high_eq]⟩

variable {dimid : Fin numDims} {gap value : Int} {info : MaxdiffInfo numDims} {best : ℚ}

theorem Part.Within.gap_le (within : part.Within sample) (mem : gap ∈ gaps (part.values dimid)) :
    0 ≤ gap ∧ gap ≤ spread sample dimid := by
  refine ⟨gap_nonneg (part.values_ordered dimid) mem, ?_⟩
  obtain ⟨_, low_val, _, high_val, rfl⟩ := exists_of_mem_gaps mem
  obtain ⟨low, low_mem, rfl⟩ := Part.mem_values.mp low_val
  obtain ⟨high, high_mem, rfl⟩ := Part.mem_values.mp high_val
  exact sub_le_spread (within.sampled low low_mem) (within.sampled high high_mem) dimid

theorem checkInt_ok (nonneg : 0 ≤ value) (le : value ≤ 2147483647) :
    checkInt value = .ok value := if_pos ⟨by omega, le⟩

theorem checkInt_eq_ok {result : Int} (ran : checkInt value = .ok result) :
    result = value ∧ value ≤ 2147483647 := by
  rw [checkInt] at ran
  split_ifs at ran with fits
  exact ⟨(Except.ok.inj ran).symm, fits.2⟩

theorem SpreadFits.le (fits : SpreadFits sample) (nonempty : sample ≠ []) (dimid : Fin numDims) :
    spread sample dimid ≤ 2147483647 := by
  obtain ⟨low, low_mem, high, high_mem, spread_eq⟩ := exists_spread nonempty dimid
  rw [spread_eq]
  exact fits dimid low low_mem high high_mem

abbrev MaxdiffInfo.Unflagged (info : MaxdiffInfo numDims) : Prop :=
  info.emptySpaceLower = false ∧ info.emptySpaceUpper = false

structure Found (sample : List (Tuple numDims)) (part : Part numDims)
    (info : MaxdiffInfo numDims) (best : ℚ) : Prop where
  unflagged : info.Unflagged
  norm : info.norm = some best
  start : info.abs = -1 → best = -1
  gap : info.abs ≠ -1 → ∃ dimid, info.dimid = some dimid ∧
    info.abs ∈ gaps (part.values dimid) ∧ spread sample dimid ≠ 0 ∧
    best = (info.abs : ℚ) / (spread sample dimid : ℚ)

theorem Found.offer (within : part.Within sample) (found : Found sample part info best)
    (mem : gap ∈ gaps (part.values dimid)) (first : info.abs = -1 → spread sample dimid ≠ 0) :
    ∃ better,
      Found sample part (offerDiff dimid gap (normDiff gap (spread sample dimid)) info) better ∧
      best ≤ better ∧ (spread sample dimid ≠ 0 → (gap : ℚ) / (spread sample dimid : ℚ) ≤ better) ∧
      (offerDiff dimid gap (normDiff gap (spread sample dimid)) info).abs ≠ -1 := by
  obtain ⟨gap_nonneg, gap_le⟩ := within.gap_le mem
  by_cases flat : spread sample dimid = 0
  · -- not a number is not greater than what was found
    have started : info.abs ≠ -1 := fun start => first start flat
    have same : offerDiff dimid gap (normDiff gap (spread sample dimid)) info = info := by
      simp [offerDiff, normDiff, flat, greater, started]
    rw [same]
    exact ⟨best, found, le_rfl, fun varies => (varies flat).elim, started⟩
  · have norm_eq : normDiff gap (spread sample dimid) =
        some ((gap : ℚ) / (spread sample dimid : ℚ)) := if_neg flat
    have nonneg : (0 : ℚ) ≤ (gap : ℚ) / (spread sample dimid : ℚ) := by
      have : (0 : ℚ) ≤ gap := by exact_mod_cast gap_nonneg
      have : (0 : ℚ) ≤ spread sample dimid := by exact_mod_cast gap_nonneg.trans gap_le
      positivity
    rw [norm_eq]
    by_cases better : greater (some ((gap : ℚ) / (spread sample dimid : ℚ))) info.norm ∨
        info.abs = -1
    · rw [offerDiff, if_pos better]
      refine ⟨(gap : ℚ) / (spread sample dimid : ℚ), ⟨found.unflagged, rfl, ?_, ?_⟩, ?_,
        fun _ => le_rfl, ?_⟩
      · intro start
        simp only at start
        omega
      · intro _
        exact ⟨dimid, rfl, mem, flat, rfl⟩
      · rcases better with wider | start
        · rw [found.norm] at wider
          exact (of_decide_eq_true wider).le
        · rw [found.start start]
          exact neg_one_lt_zero.le.trans nonneg
      · simp only
        omega
    · rw [offerDiff, if_neg better]
      rw [not_or, found.norm] at better
      refine ⟨best, found, le_rfl, fun _ => ?_, better.2⟩
      exact not_lt.mp fun wider => better.1 (decide_eq_true wider)

theorem Found.compare (within : part.Within sample) (fits : SpreadFits sample) {diffs : List Int}
    (sub : ∀ gap ∈ diffs, gap ∈ gaps (part.values dimid)) (found : Found sample part info best)
    (first : diffs ≠ [] → info.abs = -1 → spread sample dimid ≠ 0) : ∃ result better,
      compareDiffs dimid (getRanges sample dimid) diffs info = .ok result ∧
      Found sample part result better ∧ best ≤ better ∧ (∀ gap ∈ diffs, spread sample dimid ≠ 0 →
        (gap : ℚ) / (spread sample dimid : ℚ) ≤ better) ∧
      (info.abs ≠ -1 ∨ diffs ≠ [] → result.abs ≠ -1) := by
  induction diffs generalizing info best with
  | nil =>
    refine ⟨info, best, rfl, found, le_rfl, ?_, fun started => ?_⟩
    · intro gap mem
      cases mem
    · exact started.resolve_right fun nonempty => nonempty rfl
  | cons diff diffs ih =>
    have mem := sub diff mem_cons_self
    obtain ⟨diff_nonneg, diff_le⟩ := within.gap_le mem
    have nonempty : sample ≠ [] := by
      obtain ⟨low, low_mem, -⟩ := exists_of_mem_gaps mem
      obtain ⟨tuple, tuple_mem, -⟩ := Part.mem_values.mp low_mem
      exact ne_nil_of_mem (within.sampled tuple tuple_mem)
    have spread_le := fits.le nonempty dimid
    obtain ⟨better, offered, le, covers, started⟩ := found.offer within mem (first (by simp))
    obtain ⟨result, final, ran, found', le', covers', started'⟩ :=
      ih (fun gap mem => sub gap (mem_cons_of_mem _ mem)) offered
        (fun _ start => (started start).elim)
    refine ⟨result, final, ?_, found', le.trans le', ?_, fun _ => started' (.inl started)⟩
    · rw [compareDiffs, checkInt_ok diff_nonneg (diff_le.trans spread_le)]
      have width := checkInt_ok (diff_nonneg.trans diff_le) spread_le
      rw [spread] at width
      simp only [width, bind, Except.bind]
      exact ran
    · exact forall_mem_cons.mpr ⟨fun varies => (covers varies).trans le', covers'⟩

def EmptyAt (part : Part numDims) (info : MaxdiffInfo numDims) (splitOffset : Int) : Prop :=
  info.emptySpaceLower = true ∧ splitOffset = -1 ∨
    info.emptySpaceLower = false ∧ info.emptySpaceUpper = true ∧
      splitOffset = (part.tuples.length : Int) - 1

theorem EmptyAt.unique {offset splitOffset : Int} (empty : EmptyAt part info splitOffset)
    (other : EmptyAt part info offset) : splitOffset = offset := by
  rcases empty with ⟨lower, rfl⟩ | ⟨lower, -, rfl⟩ <;>
    rcases other with ⟨lower', rfl⟩ | ⟨lower', -, rfl⟩ <;> first | rfl | simp [lower] at lower'

structure Full (sample : List (Tuple numDims)) (part : Part numDims) (dims : List (Fin numDims))
    (info : MaxdiffInfo numDims) (best : ℚ) : Prop where
  found : Found sample part info best
  covers : ∀ dimid ∈ dims, ∀ gap ∈ gaps (part.values dimid), spread sample dimid ≠ 0 →
    (gap : ℚ) / (spread sample dimid : ℚ) ≤ best

theorem scanDims_flagged {ranges : Fin numDims → DimInfo}
    (flagged : (info.emptySpaceLower || info.emptySpaceUpper) = true) (dims : List (Fin numDims)) :
    scanDims ranges part dims info = .ok info := by
  cases dims with
  | nil => rfl
  | cons dimid dims => rw [scanDims, if_pos flagged]

inductive Measures (sample : List (Tuple numDims)) (part : Part numDims)
    (dims : List (Fin numDims)) (best : ℚ) (info : MaxdiffInfo numDims) : Prop where
  | empty (splitOffset splitVal : Int) (dimid : Fin numDims) (isDim : info.dimid = some dimid)
    (emptyAt : EmptyAt part info splitOffset) (separates : Separates part dimid splitOffset splitVal)
  | full (better : ℚ) (le : best ≤ better) (full : Full sample part dims info better)

variable {dims : List (Fin numDims)}

theorem Measures.full_of (measures : Measures sample part dims best info)
    (unflagged : info.Unflagged) : Full sample part dims info (info.norm.getD 0) := by
  cases measures with
  | empty _ _ _ _ emptyAt => simp [EmptyAt, unflagged] at emptyAt
  | full better _ full => rwa [full.found.norm, Option.getD_some]

theorem Found.scan (within : part.Within sample) (fits : SpreadFits sample)
    (found : Found sample part info best) (first : info.abs = -1 →
      part.tuples.length ≤ 1 ∨ ∀ dimid ∈ dims.head?, spread sample dimid ≠ 0) :
    ∃ result, scanDims (getRanges sample) part dims info = .ok result ∧
      Measures sample part dims best result := by
  induction dims generalizing info best with
  | nil =>
    refine ⟨info, rfl, .full best le_rfl ⟨found, ?_⟩⟩
    intro dimid mem
    cases mem
  | cons dimid dims ih =>
    have unflagged : ¬(info.emptySpaceLower || info.emptySpaceUpper) = true := by
      simp [found.unflagged]
    rw [scanDims, if_neg unflagged]
    by_cases below : (part.values dimid).head?.any
        ((part.bucket.diminfo dimid).minVal < ·) = true
    · obtain ⟨val, val_at, lt⟩ := (Option.any_eq_true _ _).mp below
      rw [if_pos below, scanDims_flagged (by simp)]
      exact ⟨_, rfl, .empty _ _ dimid rfl (.inl ⟨rfl, rfl⟩)
        (separates_below within val_at (of_decide_eq_true lt))⟩
    · rw [if_neg below]
      by_cases above : (part.values dimid).getLast?.any
          (· < (part.bucket.diminfo dimid).maxVal) = true
      · obtain ⟨val, val_at, lt⟩ := (Option.any_eq_true _ _).mp above
        rw [if_pos above, scanDims_flagged (by simp)]
        exact ⟨_, rfl, .empty _ _ dimid rfl (.inr ⟨found.unflagged.1, rfl, rfl⟩)
          (separates_above within val_at (of_decide_eq_true lt))⟩
      · rw [if_neg above]
        -- with one tuple at most there is nothing to compare along any dimension
        have length_eq := length_gaps (part.values dimid)
        rw [part.length_values] at length_eq
        have first' : gaps (part.values dimid) ≠ [] → info.abs = -1 → spread sample dimid ≠ 0 := by
          intro some_gap start
          rcases first start with few | varies
          · exact (some_gap (length_eq_zero_iff.mp (by omega))).elim
          · exact varies dimid rfl
        obtain ⟨next, better, ran, found', le, covers, started⟩ :=
          found.compare within fits (fun _ mem => mem) first'
        have few : next.abs = -1 → part.tuples.length ≤ 1 := by
          intro start
          by_contra many
          exact started (.inr (length_pos_iff.mp (by omega))) start
        obtain ⟨result, ran', outcome⟩ := ih found' fun start => .inl (few start)
        refine ⟨result, by rw [ran]; exact ran', ?_⟩
        cases outcome with
        | empty splitOffset splitVal other isDim emptyAt separates =>
          exact .empty splitOffset splitVal other isDim emptyAt separates
        | full final le' full =>
          refine .full final (le.trans le') { full with covers := ?_ }
          rintro other (_ | ⟨_, mem⟩) gap gap_mem varies
          · exact (covers gap gap_mem varies).trans le'
          · exact full.covers other mem gap gap_mem varies

theorem FirstVaries.spread_ne (varies : FirstVaries sample) :
    ∀ dimid ∈ (List.finRange numDims).head?, spread sample dimid ≠ 0 := by
  intro dimid head
  obtain ⟨first, first_zero, low, low_mem, high, high_mem, ne⟩ := varies
  have same : dimid = first := by
    cases numDims with
    | zero => exact first.elim0
    | succ numDims =>
      rw [finRange_succ, head?_cons, Option.mem_some_iff] at head
      exact head ▸ (Fin.ext first_zero).symm
  subst same
  have up := sub_le_spread low_mem high_mem dimid
  have down := sub_le_spread high_mem low_mem dimid
  omega

theorem getMaxdiff_ok (within : part.Within sample) (fits : SpreadFits sample)
    (varies : FirstVaries sample) : ∃ info, getMaxdiff (getRanges sample) part = .ok info ∧
      Measures sample part (finRange numDims) (-1) info :=
  Found.scan within fits ⟨⟨rfl, rfl⟩, rfl, fun _ => rfl, fun started => (started rfl).elim⟩
    fun _ => .inr varies.spread_ne

theorem getMaxdiffs_ok (fits : SpreadFits sample) (varies : FirstVaries sample)
    {parts : List (Part numDims)} (within : ∀ part ∈ parts, part.Within sample) :
    ∃ measured, getMaxdiffs (getRanges sample) parts = .ok measured ∧
      measured.map (·.part) = parts ∧ ∀ entry ∈ measured,
        Measures sample entry.part (finRange numDims) (-1) entry.maxdiff := by
  induction parts with
  | nil =>
    refine ⟨[], rfl, rfl, ?_⟩
    intro entry mem
    cases mem
  | cons part parts ih =>
    obtain ⟨info, measured_eq, measures⟩ := getMaxdiff_ok (within part mem_cons_self) fits varies
    obtain ⟨others, others_eq, parts_eq, all⟩ :=
      ih fun other mem => within other (mem_cons_of_mem _ mem)
    refine ⟨⟨part, info⟩ :: others, ?_, ?_, ?_⟩
    · rw [getMaxdiffs, measured_eq, others_eq]
      rfl
    · rw [map_cons, parts_eq]
    · exact forall_mem_cons.mpr ⟨measures, all⟩

end Measuring

/-! ## The bucket to split -/

abbrev Measured.width (measured : Measured numDims) : ℚ := measured.maxdiff.norm.getD 0

abbrev Measured.Full (sample : List (Tuple numDims)) (measured : Measured numDims) : Prop :=
  Shedding.Full sample measured.part (finRange numDims) measured.maxdiff measured.width

variable {sample : List (Tuple numDims)}

structure BestOf (sample : List (Tuple numDims)) (all before : List (Measured numDims))
    (best : Option (Nat × Measured numDims)) : Prop where
  full : ∀ entry ∈ before, entry.Full sample
  widest : ∀ entry ∈ before, ∃ bucketid winner, best = some (bucketid, winner) ∧
    entry.width ≤ winner.width
  placed : ∀ bucketid winner, best = some (bucketid, winner) →
    all[bucketid]? = some winner ∧ winner ∈ before

theorem BestOf.better {all before others : List (Measured numDims)}
    {best : Option (Nat × Measured numDims)} {entry : Measured numDims}
    (all_eq : all = before ++ entry :: others) (bestOf : BestOf sample all before best)
    (full : entry.Full sample) :
    BestOf sample all (before ++ [entry]) (betterBucket before.length entry best) := by
  have entry_at : all[before.length]? = some entry := by simp [all_eq]
  have full' := forall_mem_append.mpr ⟨bestOf.full, forall_mem_singleton.mpr full⟩
  have chosen (le : ∀ other ∈ before, other.width ≤ entry.width) :
      BestOf sample all (before ++ [entry]) (some (before.length, entry)) := by
    refine ⟨full', fun other mem => ⟨_, _, rfl, ?_⟩, ?_⟩
    · exact forall_mem_append.mpr ⟨le, forall_mem_singleton.mpr le_rfl⟩ other mem
    · rintro _ _ ⟨⟩
      exact ⟨entry_at, mem_append_right _ mem_cons_self⟩
  cases best with
  | none =>
    refine chosen fun other mem => ?_
    obtain ⟨_, _, none_eq, -⟩ := bestOf.widest other mem
    cases none_eq
  | some pair =>
    obtain ⟨bucketid, winner⟩ := pair
    obtain ⟨winner_at, winner_mem⟩ := bestOf.placed bucketid winner rfl
    rw [betterBucket, full.found.norm, (bestOf.full winner winner_mem).found.norm]
    split_ifs with wins
    · have le : winner.width ≤ entry.width := by
        rcases wins with wider | ⟨same, -⟩
        · exact (of_decide_eq_true wider).le
        · exact (of_decide_eq_true same).ge
      refine chosen fun other mem => ?_
      obtain ⟨_, _, ⟨⟩, less⟩ := bestOf.widest other mem
      exact less.trans le
    · rw [not_or] at wins
      refine ⟨full', forall_mem_append.mpr ⟨bestOf.widest, forall_mem_singleton.mpr
        ⟨_, _, rfl, not_lt.mp fun wider => wins.1 (decide_eq_true wider)⟩⟩, ?_⟩
      exact fun place other eq => (bestOf.placed place other eq).imp_right (mem_append_left _)

def ChosenFrom (sample : List (Tuple numDims)) (all : List (Measured numDims)) :
    Choice numDims → Prop
  | .emptySpace bucketid dimid splitOffset =>
    ∃ entry, all[bucketid]? = some entry ∧ dimid = entry.maxdiff.dimid ∧
      EmptyAt entry.part entry.maxdiff splitOffset
  | .widest best => BestOf sample all all best

theorem chooseBucket_from {all before entries : List (Measured numDims)}
    (all_eq : all = before ++ entries) {best : Option (Nat × Measured numDims)}
    (bestOf : BestOf sample all before best)
    (full : ∀ entry ∈ entries, entry.maxdiff.Unflagged → entry.Full sample) :
    ChosenFrom sample all (chooseBucket before.length entries best) := by
  induction entries generalizing before best with
  | nil =>
    rw [chooseBucket]
    rw [append_nil] at all_eq
    exact all_eq ▸ bestOf
  | cons entry entries ih =>
    have entry_at : all[before.length]? = some entry := by simp [all_eq]
    rw [chooseBucket]
    by_cases lower : entry.maxdiff.emptySpaceLower = true
    · rw [if_pos lower]
      exact ⟨entry, entry_at, rfl, .inl ⟨lower, rfl⟩⟩
    · rw [if_neg lower]
      rw [Bool.not_eq_true] at lower
      by_cases upper : entry.maxdiff.emptySpaceUpper = true
      · rw [if_pos upper]
        exact ⟨entry, entry_at, rfl, .inr ⟨lower, upper, rfl⟩⟩
      · rw [if_neg upper]
        rw [Bool.not_eq_true] at upper
        have longer : before.length + 1 = (before ++ [entry]).length := by simp
        rw [longer]
        exact ih (by simp [all_eq])
          (bestOf.better all_eq (full entry mem_cons_self ⟨lower, upper⟩))
          fun other mem => full other (mem_cons_of_mem _ mem)

theorem findSplitOffset_ok {abs : Int} {diffs : List Int} (mem : abs ∈ diffs) (length : Nat) :
    ∃ offset, findSplitOffset abs length diffs = some offset ∧ diffs[offset]? = some abs := by
  rw [findSplitOffset]
  cases second : (diffs.drop (length / 2)).findIdx? (· = abs) with
  | some offset =>
    obtain ⟨lt, found, -⟩ := findIdx?_eq_some_iff_getElem.mp second
    refine ⟨length / 2 + offset, rfl, ?_⟩
    rw [← getElem?_drop, getElem?_eq_getElem lt]
    exact congrArg some (of_decide_eq_true found)
  | none =>
    have not_second := findIdx?_eq_none_iff.mp second
    cases first : (diffs.take (length / 2)).findIdx? (· = abs) with
    | some offset =>
      obtain ⟨lt, found, -⟩ := findIdx?_eq_some_iff_getElem.mp first
      refine ⟨offset, rfl, ?_⟩
      have within : offset < length / 2 := (length_take ▸ lt).trans_le (min_le_left _ _)
      rw [← getElem?_take_of_lt within, getElem?_eq_getElem lt]
      exact congrArg some (of_decide_eq_true found)
    | none =>
      have not_first := findIdx?_eq_none_iff.mp first
      rw [← take_append_drop (length / 2) diffs, mem_append] at mem
      rcases mem with mem | mem
      · exact (of_decide_eq_false (not_first abs mem) rfl).elim
      · exact (of_decide_eq_false (not_second abs mem) rfl).elim

section Splitting

variable {sample : List (Tuple numDims)} {parts : List (Part numDims)}

theorem exists_differ (some_split : noBucketsToSplit parts = false) :
    ∃ part ∈ parts, ∃ low ∈ part.tuples, ∃ high ∈ part.tuples, ∃ dimid, low dimid < high dimid := by
  simp only [noBucketsToSplit, Bool.or_eq_false_iff, all_eq_false] at some_split
  obtain ⟨-, part, part_mem, differ⟩ := some_split
  rw [Bool.not_eq_true, all_eq_false] at differ
  obtain ⟨tuple, mem, ne⟩ := differ
  obtain ⟨head, head_eq⟩ := Option.isSome_iff_exists.mp (isSome_head?.mpr (ne_nil_of_mem mem))
  rw [head_eq, decide_eq_true_eq, Option.some.injEq] at ne
  obtain ⟨dimid, apart⟩ := ne_iff.mp ne
  have head_mem := mem_of_head? head_eq
  rcases lt_or_gt_of_ne apart with lt | lt
  · exact ⟨part, part_mem, tuple, mem, head, head_mem, dimid, lt⟩
  · exact ⟨part, part_mem, head, head_mem, tuple, mem, dimid, lt⟩

variable {part : Part numDims} {info : MaxdiffInfo numDims} {best : ℚ}

theorem Full.pos (within : part.Within sample)
    (full : Full sample part (List.finRange numDims) info best) {low high : Tuple numDims}
    (low_mem : low ∈ part.tuples) (high_mem : high ∈ part.tuples)
    (lt : low dimid < high dimid) : 0 < best := by
  obtain ⟨gap, gap_mem, gap_pos⟩ :=
    exists_gap_pos (part.values_ordered dimid) (Part.mem_values.mpr ⟨low, low_mem, rfl⟩)
      (Part.mem_values.mpr ⟨high, high_mem, rfl⟩) lt
  have gap_le := (within.gap_le gap_mem).2
  have covered := full.covers dimid (mem_finRange dimid) gap gap_mem (by omega)
  have gap_pos' : (0 : ℚ) < gap := by exact_mod_cast gap_pos
  have spread_pos : (0 : ℚ) < spread sample dimid := by exact_mod_cast gap_pos.trans_le gap_le
  exact (div_pos gap_pos' spread_pos).trans_le covered

theorem Full.gap (within : part.Within sample) {dims : List (Fin numDims)}
    (full : Full sample part dims info best) (pos : 0 < best) :
    ∃ dimid, info.dimid = some dimid ∧ info.abs ∈ gaps (part.values dimid) ∧ 0 < info.abs := by
  have started : info.abs ≠ -1 := by
    intro start
    rw [full.found.start start] at pos
    exact absurd pos (by norm_num)
  obtain ⟨dimid, dimid_eq, mem, -, best_eq⟩ := full.found.gap started
  refine ⟨dimid, dimid_eq, mem, ?_⟩
  obtain ⟨nonneg, -⟩ := within.gap_le mem
  refine lt_of_le_of_ne nonneg fun zero => ?_
  rw [best_eq, ← zero] at pos
  simp at pos

theorem Divided.getMhistSplitPoint_ok (divided : Divided sample parts)
    (fits : SpreadFits sample) (varies : FirstVaries sample)
    (some_split : noBucketsToSplit parts = false) :
    ∃ point part splitVal, getMhistSplitPoint (getRanges sample) parts = .ok point ∧
      parts[point.bucketid]? = some part ∧
      Separates part point.dimid point.splitOffset splitVal := by
  obtain ⟨measured, ran, parts_eq, measures⟩ := getMaxdiffs_ok fits varies divided.within
  have part_at : ∀ {place : Nat} {entry : Measured numDims}, measured[place]? = some entry →
      parts[place]? = some entry.part := by
    intro place entry entry_at
    rw [← parts_eq, getElem?_map, entry_at]
    rfl
  have within : ∀ {place : Nat} {entry : Measured numDims}, measured[place]? = some entry →
      entry.part.Within sample := fun entry_at =>
    divided.within _ (mem_of_getElem? (part_at entry_at))
  have chosen : ChosenFrom sample measured (chooseBucket 0 measured none) := by
    refine @chooseBucket_from _ sample measured [] measured rfl none ⟨?_, ?_, ?_⟩ ?_
    · intro entry mem
      cases mem
    · intro entry mem
      cases mem
    · intro bucketid winner eq
      cases eq
    · exact fun entry mem => (measures entry mem).full_of
  rw [getMhistSplitPoint, ran]
  simp only [bind, Except.bind]
  cases choice : chooseBucket 0 measured none with
  | emptySpace bucketid dimid splitOffset =>
    rw [choice] at chosen
    obtain ⟨entry, entry_at, dimid_eq, kind⟩ := chosen
    cases measures entry (mem_of_getElem? entry_at) with
    | empty offset splitVal edge edge_eq emptyAt separates =>
      rw [dimid_eq, edge_eq, kind.unique emptyAt]
      exact ⟨_, entry.part, splitVal, rfl, part_at entry_at, separates⟩
    | full best _ full => simp [EmptyAt, full.found.unflagged] at kind
  | widest best =>
    rw [choice] at chosen
    -- the bucket with the two different tuples was beaten by the chosen one, if not chosen
    obtain ⟨part, part_mem, low, low_mem, high, high_mem, dimid, lt⟩ := exists_differ some_split
    rw [← parts_eq] at part_mem
    obtain ⟨entry, entry_mem, rfl⟩ := mem_map.mp part_mem
    obtain ⟨bucketid, winner, rfl, le⟩ := chosen.widest entry entry_mem
    obtain ⟨winner_at, -⟩ := chosen.placed bucketid winner rfl
    obtain ⟨place, entry_at⟩ := mem_iff_getElem?.mp entry_mem
    have full := chosen.full winner (mem_of_getElem? winner_at)
    have pos : 0 < winner.width :=
      ((chosen.full entry entry_mem).pos (within entry_at) low_mem high_mem lt).trans_le le
    obtain ⟨split_dim, dim_eq, gap_mem, gap_pos⟩ := full.gap (within winner_at) pos
    obtain ⟨offset, offset_eq, gap_at⟩ := findSplitOffset_ok gap_mem
      (sortTuplesAlongDim split_dim winner.part.tuples).length
    obtain ⟨splitVal, separates⟩ := separates_gap (within winner_at) gap_at gap_pos
    have wide : greater winner.maxdiff.norm (some 0) = true := by
      rw [full.found.norm]
      exact decide_eq_true pos
    refine ⟨⟨bucketid, split_dim, offset⟩, winner.part, splitVal, ?_, part_at winner_at, separates⟩
    simp [wide, dim_eq, offset_eq]

theorem Divided.splitABucket_ok (divided : Divided sample parts)
    (fits : SpreadFits sample) (varies : FirstVaries sample) :
    (noBucketsToSplit parts = true ∧ splitABucket (getRanges sample) parts = .ok none) ∨
      ∃ split, splitABucket (getRanges sample) parts = .ok (some split) ∧
        Divided sample split ∧ split.length = parts.length + 1 := by
  cases some_split : noBucketsToSplit parts with
  | true => exact .inl ⟨rfl, by rw [splitABucket, if_pos some_split]⟩
  | false =>
    obtain ⟨point, part, splitVal, point_eq, part_at, separates⟩ :=
      divided.getMhistSplitPoint_ok fits varies some_split
    obtain ⟨old, new, split_eq, divided'⟩ := divided.split part_at separates
    refine .inr ⟨_, ?_, divided', by simp⟩
    rw [splitABucket, if_neg (by simp [some_split]), point_eq]
    simp [bind, Except.bind, part_at, split_eq]

theorem Divided.splitBuckets_ok (fits : SpreadFits sample) (varies : FirstVaries sample)
    (rounds : Nat) (divided : Divided sample parts) :
    ∃ split, splitBuckets (getRanges sample) rounds parts.length parts = .ok (split.length, split) ∧
      Divided sample split ∧ split.length ≤ parts.length + rounds := by
  induction rounds generalizing parts with
  | zero => exact ⟨parts, rfl, divided, le_rfl⟩
  | succ rounds ih =>
    rcases divided.splitABucket_ok fits varies with ⟨-, ended⟩ | ⟨next, ran, divided', longer⟩
    · refine ⟨parts, ?_, divided, by omega⟩
      rw [splitBuckets, ended]
      rfl
    · obtain ⟨split, ran', divided'', le⟩ := ih divided'
      refine ⟨split, ?_, divided'', by omega⟩
      rw [splitBuckets, ran]
      exact ran'

abbrev wholePart (sample : List (Tuple numDims)) : Part numDims :=
  ⟨firstBucket (getRanges sample), sample⟩

theorem divided_first (sample : List (Tuple numDims)) : Divided sample [wholePart sample] := by
  refine ⟨?_, ?_⟩
  · intro point
    have fits : (firstBucket (getRanges sample)).Fits point :=
      Bucket.fits_iff.mpr fun dimid => ⟨.inr rfl, .inr rfl⟩
    simp [fits]
  · intro part mem
    rw [mem_singleton.mp mem]
    refine ⟨fun tuple mem => mem, ?_, rfl⟩
    intro tuple mem dimid
    exact getRange_bounds (mem_map_of_mem (f := (· dimid)) mem)

theorem noBucketsToSplit_first : noBucketsToSplit [⟨bucket, sample⟩] = true ↔
      ∀ low ∈ sample, ∀ high ∈ sample, low = high := by
  cases sample with
  | nil => simp [noBucketsToSplit]
  | cons head rest =>
    simp only [noBucketsToSplit, all_cons, all_nil, Bool.and_true, Bool.or_eq_true,
      decide_eq_true_eq, head?_cons, Option.some.injEq, Bool.and_eq_true, all_eq_true, true_and]
    constructor
    · intro same
      have all : ∀ tuple ∈ head :: rest, tuple = head := by
        refine forall_mem_cons.mpr ⟨rfl, fun tuple mem => ?_⟩
        rcases same with short | same
        · rw [length_cons] at short
          exact absurd (length_pos_of_mem mem) (by omega)
        · exact same tuple mem
      exact fun low low_mem high high_mem => (all low low_mem).trans (all high high_mem).symm
    · intro same
      exact .inr fun tuple mem =>
        same tuple (mem_cons_of_mem _ mem) head mem_cons_self

end Splitting

end TelegraphCQ.Shedding
