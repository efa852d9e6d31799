import Mathlib.Algebra.BigOperators.Ring.Finset
import TelegraphCQ.Shedding.MhistLoading
import TelegraphCQ.Shedding.MhistMerge

/-!
# Histograms with a fixed grid

`create_reg_mhist` covers the range of the tuples with a full grid of buckets of given widths.
The bucket of a tuple is then found by arithmetic, dimension by dimension, rather than by a
search (`histogram.c`).
-/

namespace TelegraphCQ.Shedding

open Foundation List Function

variable {numDims : Nat}

def alignRange (width : Int) (range : DimInfo) : DimInfo :=
  { range with
    minVal := range.minVal - range.minVal.tmod width
    maxVal := range.maxVal + (width - range.maxVal.tmod width - 1) }

def bktsForCol (width : Int) (range : DimInfo) : Int :=
  (range.maxVal + 1 - range.minVal).tdiv width

def regDimInfo (width : Int) (range : DimInfo) (step : Nat) : DimInfo :=
  let minVal := range.minVal + width * step
  let maxVal := minVal + width - 1
  { minVal, maxVal
    acceptBelowMin := minVal = range.minVal
    acceptAboveMax := maxVal = range.maxVal }

def createRegBuckets (ranges : Fin numDims → DimInfo) (widths : Fin numDims → Int) :
    List (Fin numDims) → (Fin numDims → Nat) → List (Bucket numDims)
  | [], itr => [⟨0, fun dimid => regDimInfo (widths dimid) (ranges dimid) (itr dimid)⟩]
  | curDim :: dims, itr =>
    (range (bktsForCol (widths curDim) (ranges curDim)).toNat).flatMap fun step =>
      createRegBuckets ranges widths dims (update itr curDim step)

/-- The header has room for `mhistMaxColNames` names. -/
def tdescToMhistDiminfo (names : Fin numDims → String) (hist : Mhist numDims) :
    Except MhistFault (Mhist numDims) :=
  if mhistMaxColNames < numDims then .error .outOfBounds
  else do
    let named := { hist with dimNames := ofFn fun dimid => ⟨dimid, names dimid⟩ }
    checkMhistIntegrity named
    .ok named

/-- The header, and for each bucket a `double` and its `mhist_dim_info`s. -/
def mhistSize (numBuckets : Int) (numDims : Nat) : Int := 312 + numBuckets * (8 + numDims * 16)

def maxAllocSize : Int := 0x3fffffff

def alignedRanges (tuples : List (Tuple numDims)) (widths : Fin numDims → Int)
    (dimid : Fin numDims) : DimInfo := alignRange (widths dimid) (getRanges tuples dimid)

def totNumBuckets (tuples : List (Tuple numDims)) (widths : Fin numDims → Int) : Int :=
  ((finRange numDims).map fun dimid =>
    bktsForCol (widths dimid) (alignedRanges tuples widths dimid)).prod

/-- One is added to the upper bounds, as an `int`. -/
def createRegMhist (names : Fin numDims → String) (tuples : List (Tuple numDims))
    (widths : Fin numDims → Int) : Except MhistFault (Mhist numDims) := do
  let ranges := alignedRanges tuples widths
  if ∃ dimid, (getRanges tuples dimid).minVal.tmod (widths dimid) < 0 ∨
      (getRanges tuples dimid).maxVal.tmod (widths dimid) < 0 then .error .assertion
  else if ∃ dimid, 2147483647 ≤ (ranges dimid).maxVal then .error .overflow
  else
    let allocated ← checkInt (totNumBuckets tuples widths)
    -- palloc refuses more
    if maxAllocSize < mhistSize allocated numDims then .error .outOfBounds
    else
      let hist ← tdescToMhistDiminfo names (createMhist allocated.toNat numDims)
      let buckets := createRegBuckets ranges widths (finRange numDims) fun _ => 0
      if buckets.length = allocated then .ok { hist with buckets, isFullFGHist := true }
      else .error .assertion

section Lookup

variable (first last : Bucket numDims)

def fghistStepsizeAlongDimension (dimid : Fin numDims) : Int :=
  (first.diminfo dimid).maxVal - (first.diminfo dimid).minVal + 1

def fghistNumBinsAlongDimension (dimid : Fin numDims) : Except MhistFault Int :=
  let totRange := (last.diminfo dimid).maxVal - (first.diminfo dimid).minVal + 1
  let stepsize := fghistStepsizeAlongDimension first dimid
  if totRange.tmod stepsize = 0 then .ok (totRange.tdiv stepsize) else .error .assertion

def fghistBinidAlongDimension (dimid : Fin numDims) (val : Int) : Int :=
  (min (max val (first.diminfo dimid).minVal) (last.diminfo dimid).maxVal -
    (first.diminfo dimid).minVal).tdiv (fghistStepsizeAlongDimension first dimid)

def narrowRange (tuple : Tuple numDims) (nbuckets : Int) :
    List (Fin numDims) → Int → Int → Except MhistFault Int
  | [], startIx, rangeSize => if rangeSize = 1 then .ok startIx else .error .assertion
  | dimid :: dims, startIx, rangeSize => do
    let numBins ← fghistNumBinsAlongDimension first last dimid
    let binSize := rangeSize.tdiv numBins
    let binNo := min (max (fghistBinidAlongDimension first last dimid (tuple dimid)) 0)
      (numBins - 1)
    if startIx + binSize * binNo < nbuckets then
      narrowRange tuple nbuckets dims (startIx + binSize * binNo) binSize
    else .error .assertion

end Lookup

/-- What `get_mhist_bucket_for_tuple` does for a histogram that is a full grid. -/
def getFGHistBucketForTuple (hist : Mhist numDims) (tuple : Tuple numDims) :
    Except MhistFault Int :=
  match hist.buckets.head?, hist.buckets.getLast? with
  | some first, some last =>
    narrowRange first last tuple hist.numBucketsUsed (finRange numDims) 0 hist.numBucketsUsed
  | _, _ => .error .outOfBounds

/-! ## One dimension -/

structure Aligned (width : Int) (range : DimInfo) (size : Nat) : Prop where
  width_pos : 0 < width
  size_pos : 0 < size
  extent : range.maxVal + 1 - range.minVal = width * size

def offset (range : DimInfo) (val : Int) : Int :=
  min (max val range.minVal) range.maxVal - range.minVal

def bin (width : Int) (range : DimInfo) (val : Int) : Nat := (offset range val / width).toNat

section Dimension

variable {width val : Int} {range : DimInfo} {size step next : Nat}

theorem exists_aligned (pos : 0 < width) (nonneg : 0 ≤ range.minVal)
    (le : range.minVal ≤ range.maxVal) : ∃ size, Aligned width (alignRange width range) size := by
  have low := Int.mul_ediv_add_emod range.minVal width
  have high := Int.mul_ediv_add_emod range.maxVal width
  have quotients := Int.ediv_le_ediv pos le
  obtain ⟨size, size_eq⟩ := Int.eq_ofNat_of_zero_le
    (show 0 ≤ range.maxVal / width - range.minVal / width + 1 by omega)
  refine ⟨size, pos, by omega, ?_⟩
  rw [← size_eq, mul_add, mul_sub, mul_one]
  simp only [alignRange, Int.tmod_eq_emod_of_nonneg nonneg,
    Int.tmod_eq_emod_of_nonneg (nonneg.trans le)]
  omega

theorem mul_add_width_le (pos : 0 < width) (lt : step < next) :
    width * step + width ≤ width * next := by
  have le : width * (step + 1) ≤ width * next := Int.mul_le_mul_of_nonneg_left (by omega) pos.le
  rwa [mul_add, mul_one] at le

theorem mul_step_nonneg (pos : 0 < width) (step : Nat) : 0 ≤ width * step :=
  Int.mul_nonneg pos.le (by omega)

theorem Aligned.bktsForCol_eq (aligned : Aligned width range size) :
    bktsForCol width range = size := by
  rw [bktsForCol, aligned.extent, Int.mul_tdiv_cancel_left _ aligned.width_pos.ne']

theorem Aligned.bin_spec (aligned : Aligned width range size) (val : Int) :
    offset range val / width = bin width range val ∧ bin width range val < size ∧
      width * bin width range val ≤ offset range val ∧
      offset range val < width * bin width range val + width := by
  obtain ⟨pos, size_pos, extent⟩ := aligned
  have whole := mul_add_width_le pos size_pos
  have inside : 0 ≤ offset range val ∧ offset range val < width * size := by
    unfold offset
    omega
  have bin_eq : offset range val / width = bin width range val :=
    (Int.toNat_of_nonneg (Int.ediv_nonneg inside.1 pos.le)).symm
  have division := Int.mul_ediv_add_emod (offset range val) width
  have remainder := Int.emod_nonneg (offset range val) pos.ne'
  have small := Int.emod_lt_of_pos (offset range val) pos
  rw [bin_eq] at division
  refine ⟨bin_eq, ?_, by omega, by omega⟩
  have below : width * bin width range val < width * size := by omega
  exact_mod_cast Int.lt_of_mul_lt_mul_left below pos.le

theorem Aligned.accepts_iff (aligned : Aligned width range size) (lt : step < size) :
    (regDimInfo width range step).Accepts val ↔ step = bin width range val := by
  obtain ⟨-, bin_lt, low, high⟩ := aligned.bin_spec val
  obtain ⟨pos, -, extent⟩ := aligned
  have step_end := mul_add_width_le pos lt
  have bin_end := mul_add_width_le pos bin_lt
  have step_start := mul_step_nonneg pos step
  have bin_start := mul_step_nonneg pos (bin width range val)
  simp only [DimInfo.Accepts, regDimInfo, decide_eq_true_eq]
  rw [offset] at low high
  constructor
  · intro accepted
    rcases Nat.lt_trichotomy step (bin width range val) with less | same | greater
    · have apart := mul_add_width_le pos less
      omega
    · exact same
    · have apart := mul_add_width_le pos greater
      omega
  · rintro rfl
    omega

end Dimension

/-! ## The grid -/

section Grid

variable {ranges : Fin numDims → DimInfo} {widths : Fin numDims → Int}
  {sizes bins itr : Fin numDims → Nat} {dims : List (Fin numDims)} {bucket : Bucket numDims}

def gridIndex (sizes bins : Fin numDims → Nat) : List (Fin numDims) → Nat
  | [] => 0
  | dimid :: dims => (dims.map sizes).prod * bins dimid + gridIndex sizes bins dims

theorem gridIndex_last (pos : ∀ dimid, 0 < sizes dimid) (dims : List (Fin numDims)) :
    gridIndex sizes (fun dimid => sizes dimid - 1) dims + 1 = (dims.map sizes).prod := by
  induction dims with
  | nil => rfl
  | cons dimid dims ih =>
    obtain ⟨fewer, sizes_eq⟩ := Nat.exists_eq_succ_of_ne_zero (pos dimid).ne'
    simp only [gridIndex, map_cons, prod_cons, sizes_eq, Nat.succ_eq_add_one, Nat.add_sub_cancel]
    rw [add_assoc, ih, mul_comm (fewer + 1), mul_add, mul_one]

theorem gridIndex_zero (dims : List (Fin numDims)) : gridIndex sizes (fun _ => 0) dims = 0 := by
  induction dims with
  | nil => rfl
  | cons dimid dims ih => rw [gridIndex, ih]; rfl

theorem findBucket_split {before after : List (Bucket numDims)} {tuple : Tuple numDims}
    (fits : bucket.Fits tuple) (misfit : ∀ other ∈ before ++ after, ¬other.Fits tuple)
    (bucketid : Nat) : findBucket tuple bucketid (before ++ bucket :: after) none =
      .ok (some (bucketid + before.length)) := by
  induction before generalizing bucketid with
  | nil =>
    rw [nil_append, findBucket, if_pos fits, if_pos rfl]
    exact findBucket_passed (countP_eq_zero.mpr fun other mem => by simpa using misfit other mem) _ _
  | cons other before ih =>
    rw [cons_append, findBucket, if_neg (misfit other mem_cons_self),
      ih (fun other mem => misfit other (mem_cons_of_mem _ mem)), length_cons]
    congr 2
    omega

theorem diminfo_of_mem_createRegBuckets {dimid : Fin numDims}
    (mem : bucket ∈ createRegBuckets ranges widths dims itr) (other : dimid ∉ dims) :
    bucket.diminfo dimid = regDimInfo (widths dimid) (ranges dimid) (itr dimid) := by
  induction dims generalizing itr with
  | nil =>
    rw [mem_singleton.mp mem]
  | cons curDim dims ih =>
    obtain ⟨step, -, mem⟩ := mem_flatMap.mp mem
    rw [ih mem (not_mem_of_not_mem_cons other), update_of_ne (ne_of_not_mem_cons other)]

def Elsewhere (ranges : Fin numDims → DimInfo) (widths : Fin numDims → Int)
    (sizes bins : Fin numDims → Nat) (bucket : Bucket numDims) : Prop :=
  ∃ dimid, ∃ step < sizes dimid, step ≠ bins dimid ∧
    bucket.diminfo dimid = regDimInfo (widths dimid) (ranges dimid) step

variable (aligned : ∀ dimid, Aligned (widths dimid) (ranges dimid) (sizes dimid))
include aligned

theorem length_createRegBuckets (dims : List (Fin numDims)) (itr : Fin numDims → Nat) :
    (createRegBuckets ranges widths dims itr).length = (dims.map sizes).prod := by
  induction dims generalizing itr with
  | nil => rfl
  | cons curDim dims ih =>
    simp [createRegBuckets, length_flatMap, ih, (aligned curDim).bktsForCol_eq]

theorem createRegBuckets_split (nodup : dims.Nodup) (lt : ∀ dimid, bins dimid < sizes dimid)
    (itr : Fin numDims → Nat) :
    ∃ before bucket after, createRegBuckets ranges widths dims itr = before ++ bucket :: after ∧
      before.length = gridIndex sizes bins dims ∧ (∀ dimid ∈ dims,
        bucket.diminfo dimid = regDimInfo (widths dimid) (ranges dimid) (bins dimid)) ∧
      ∀ other ∈ before ++ after, Elsewhere ranges widths sizes bins other := by
  induction dims generalizing itr with
  | nil => exact ⟨[], _, [], rfl, rfl, by simp, by simp⟩
  | cons curDim dims ih =>
    obtain ⟨fresh, nodup⟩ := nodup_cons.mp nodup
    obtain ⟨before, bucket, after, split, index, own, others⟩ :=
      ih nodup (update itr curDim (bins curDim))
    obtain ⟨more, more_eq⟩ := Nat.exists_eq_add_of_lt (lt curDim)
    have steps : range (sizes curDim) =
        range (bins curDim) ++ bins curDim :: (range more).map (bins curDim + 1 + ·) := by
      rw [more_eq, add_right_comm, range_add, range_succ, append_assoc, singleton_append]
    let row := fun step => createRegBuckets ranges widths dims (update itr curDim step)
    refine ⟨(range (bins curDim)).flatMap row ++ before, bucket,
      after ++ ((range more).map (bins curDim + 1 + ·)).flatMap row, ?_, ?_, ?_, ?_⟩
    · rw [createRegBuckets, (aligned curDim).bktsForCol_eq, Int.toNat_natCast, steps,
        flatMap_append, flatMap_cons, split]
      simp [row]
    · simp [row, length_flatMap, length_createRegBuckets aligned, index, gridIndex, mul_comm]
    · rintro dimid (_ | ⟨_, mem⟩)
      · have mem : bucket ∈ createRegBuckets ranges widths dims
            (update itr curDim (bins curDim)) := by simp [split]
        rw [diminfo_of_mem_createRegBuckets mem fresh, update_self]
      · exact own dimid mem
    · -- a bucket of another row differs along this dimension
      have of_row : ∀ step, step < sizes curDim → step ≠ bins curDim → ∀ other ∈ row step,
          Elsewhere ranges widths sizes bins other := by
        intro step step_lt ne other mem
        refine ⟨curDim, step, step_lt, ne, ?_⟩
        rw [diminfo_of_mem_createRegBuckets mem fresh, update_self]
      intro other mem
      simp only [mem_append, mem_flatMap, mem_map, mem_range] at mem others
      rcases mem with (⟨step, step_lt, mem⟩ | mem) | mem | ⟨_, ⟨step, step_lt, rfl⟩, mem⟩
      · exact of_row step (step_lt.trans (lt curDim)) step_lt.ne other mem
      · exact others other (.inl mem)
      · exact others other (.inr mem)
      · exact of_row _ (by omega) (by omega) other mem

theorem narrowRange_eq {first last : Bucket numDims} {nbuckets startIx : Int}
    (firsts : ∀ dimid, first.diminfo dimid = regDimInfo (widths dimid) (ranges dimid) 0)
    (lasts : ∀ dimid,
      last.diminfo dimid = regDimInfo (widths dimid) (ranges dimid) (sizes dimid - 1))
    (tuple : Tuple numDims) (room : startIx + (dims.map sizes).prod ≤ nbuckets) :
    narrowRange first last tuple nbuckets dims startIx (dims.map sizes).prod =
      .ok (startIx + gridIndex sizes
        (fun dimid => bin (widths dimid) (ranges dimid) (tuple dimid)) dims) := by
  induction dims generalizing startIx with
  | nil => simp [narrowRange, gridIndex]
  | cons dimid dims ih =>
    obtain ⟨bin_eq, bin_lt, -⟩ := (aligned dimid).bin_spec (tuple dimid)
    obtain ⟨pos, size_pos, extent⟩ := aligned dimid
    have stepsize : fghistStepsizeAlongDimension first dimid = widths dimid := by
      simp only [fghistStepsizeAlongDimension, firsts, regDimInfo]
      omega
    have minVal : (first.diminfo dimid).minVal = (ranges dimid).minVal := by
      simp [firsts, regDimInfo]
    have maxVal : (last.diminfo dimid).maxVal = (ranges dimid).maxVal := by
      simp only [lasts, regDimInfo, Nat.cast_sub size_pos, mul_sub]
      omega
    have numBins : fghistNumBinsAlongDimension first last dimid = .ok (sizes dimid : Int) := by
      have extent' : (ranges dimid).maxVal - (ranges dimid).minVal + 1 =
          widths dimid * sizes dimid := by omega
      simp [fghistNumBinsAlongDimension, stepsize, minVal, maxVal, extent',
        Int.mul_tdiv_cancel_left _ pos.ne']
    have binid : fghistBinidAlongDimension first last dimid (tuple dimid) =
        bin (widths dimid) (ranges dimid) (tuple dimid) := by
      rw [fghistBinidAlongDimension, stepsize, minVal, maxVal, ← bin_eq, offset,
        Int.tdiv_eq_ediv_of_nonneg]
      have := mul_add_width_le pos size_pos
      omega
    have binNo : min (max (bin (widths dimid) (ranges dimid) (tuple dimid) : Int) 0)
        (sizes dimid - 1) = bin (widths dimid) (ranges dimid) (tuple dimid) := by omega
    have all : (((dimid :: dims).map sizes).prod : Int) = (dims.map sizes).prod * sizes dimid := by
      rw [map_cons, prod_cons, Nat.cast_mul, mul_comm]
    have binSize : (((dimid :: dims).map sizes).prod : Int).tdiv (sizes dimid) =
        (dims.map sizes).prod := by
      rw [all, Int.mul_tdiv_cancel _ (by omega)]
    have filled := gridIndex_last (fun dimid => (aligned dimid).size_pos) dims
    have row_le := @mul_add_width_le (dims.map sizes).prod _ _ (by omega) bin_lt
    simp only [narrowRange, numBins, bind, Except.bind, binid, binNo, binSize]
    rw [if_pos (by omega), ih (by omega), gridIndex, Int.natCast_add, Int.natCast_mul, add_assoc]

theorem createRegBuckets_indexed {hist : Mhist numDims}
    (grid : hist.buckets = createRegBuckets ranges widths (finRange numDims) fun _ => 0)
    (tuple : Tuple numDims) : hist.buckets.countP (fun bucket => bucket.Fits tuple) = 1 ∧
      ∃ bucketid : Nat, getFGHistBucketForTuple hist tuple = .ok (bucketid : Int) ∧
        getMhistBucketForTuple hist tuple = .ok (some bucketid) := by
  have pos := fun dimid => (aligned dimid).size_pos
  have used := length_createRegBuckets aligned (finRange numDims) fun _ => 0
  have split := fun (bins : Fin numDims → Nat) (lt : ∀ dimid, bins dimid < sizes dimid) =>
    createRegBuckets_split aligned (nodup_finRange numDims) lt fun _ => 0
  obtain ⟨before, first, _, head, none_before, firsts, -⟩ := split _ pos
  obtain rfl : before = [] := length_eq_zero_iff.mp (none_before.trans (gridIndex_zero _))
  obtain ⟨_, last, after, end_, all_before, lasts, -⟩ :=
    split (fun dimid => sizes dimid - 1) fun dimid => Nat.sub_one_lt (pos dimid).ne'
  obtain rfl : after = [] := by
    have count := gridIndex_last pos (finRange numDims)
    rw [end_, length_append, length_cons, all_before] at used
    exact length_eq_zero_iff.mp (by omega)
  obtain ⟨before, bucket, after, found, index, own, others⟩ :=
    split _ fun dimid => ((aligned dimid).bin_spec (tuple dimid)).2.1
  have fits : bucket.Fits tuple := Bucket.fits_iff.mpr fun dimid => by
    rw [own dimid (mem_finRange dimid)]
    exact ((aligned dimid).accepts_iff ((aligned dimid).bin_spec (tuple dimid)).2.1).mpr rfl
  have misfit : ∀ other ∈ before ++ after, ¬other.Fits tuple := by
    intro other mem fits
    obtain ⟨dimid, step, lt, ne, at_step⟩ := others other mem
    have accepts := Bucket.fits_iff.mp fits dimid
    rw [at_step] at accepts
    exact ne (((aligned dimid).accepts_iff lt).mp accepts)
  refine ⟨?_, before.length, ?_, ?_⟩
  · rw [grid, found, countP_append, countP_cons_of_pos (by simpa using fits), ← add_assoc,
      ← countP_append, countP_eq_zero.mpr fun other mem => by simpa using misfit other mem]
  · have ends : hist.buckets.head? = some first ∧ hist.buckets.getLast? = some last := by
      rw [grid]
      exact ⟨by rw [head]; rfl, by rw [end_, getLast?_concat]⟩
    rw [getFGHistBucketForTuple, ends.1, ends.2]
    simp only [Mhist.numBucketsUsed, grid, used]
    rw [narrowRange_eq aligned (fun dimid => firsts dimid (mem_finRange dimid))
      (fun dimid => lasts dimid (mem_finRange dimid)) tuple (by omega), index, zero_add]
  · rw [getMhistBucketForTuple, grid, found, findBucket_split fits misfit, zero_add]

end Grid

theorem tdescToMhistDiminfo_eq (few : numDims ≤ mhistMaxDims) (names : Fin numDims → String)
    (hist : Mhist numDims) : tdescToMhistDiminfo names hist =
      .ok { hist with dimNames := ofFn fun dimid => ⟨dimid, names dimid⟩ } := by
  have enough : ¬8 < numDims := not_lt.mpr few
  simp [tdescToMhistDiminfo, mhistMaxColNames, checkMhistIntegrity, mhistMaxDims, enough, bind,
    Except.bind]

/-- For at most `mhistMaxDims` dimensions, and as long as the bounds are `int`s and the histogram
can be allocated, the grid is complete, and the arithmetic finds the one bucket that the search
accepts. -/
theorem fixed_grid_indexed (names : Fin numDims → String) (tuples : List (Tuple numDims))
    (widths : Fin numDims → Int) (few : numDims ≤ mhistMaxDims) (some_tuple : tuples ≠ [])
    (nonneg : ∀ tuple ∈ tuples, ∀ dimid, 0 ≤ tuple dimid) (positive : ∀ dimid, 0 < widths dimid)
    (bounded : ∀ dimid, (alignedRanges tuples widths dimid).maxVal < 2147483647)
    (allocates : mhistSize (totNumBuckets tuples widths) numDims ≤ maxAllocSize) :
    ∃ hist, createRegMhist names tuples widths = .ok hist ∧
      (hist.numBucketsUsed : Int) = totNumBuckets tuples widths ∧
      Partitions hist.buckets ∧
      ∀ tuple, ∃ bucketid : Nat, getFGHistBucketForTuple hist tuple = .ok (bucketid : Int) ∧
        getMhistBucketForTuple hist tuple = .ok (some bucketid) := by
  have ranged : ∀ dimid, 0 ≤ (getRanges tuples dimid).minVal ∧
      (getRanges tuples dimid).minVal ≤ (getRanges tuples dimid).maxVal := by
    intro dimid
    obtain ⟨attained, -⟩ := getRange_attained
      (show column dimid tuples ≠ [] by simpa [column] using some_tuple)
    obtain ⟨tuple, mem, low⟩ := mem_map.mp attained
    exact ⟨(nonneg tuple mem dimid).trans_eq low, (getRange_bounds attained).2⟩
  choose sizes aligned using fun dimid =>
    exists_aligned (positive dimid) (ranged dimid).1 (ranged dimid).2
  have total : totNumBuckets tuples widths =
      ((finRange numDims).map sizes).prod := by
    rw [totNumBuckets, Nat.cast_list_prod, map_map]
    exact congrArg _ (map_congr_left fun dimid _ => (aligned dimid).bktsForCol_eq)
  have used : ((createRegBuckets (alignedRanges tuples widths) widths (finRange numDims)
      fun _ => 0).length : Int) = totNumBuckets tuples widths := by
    rw [total]
    exact congrArg _ (length_createRegBuckets aligned _ _)
  have nonneg_mod : ¬∃ dimid, (getRanges tuples dimid).minVal.tmod (widths dimid) < 0 ∨
      (getRanges tuples dimid).maxVal.tmod (widths dimid) < 0 := by
    rintro ⟨dimid, below | below⟩
    · exact absurd below (Int.tmod_nonneg _ (ranged dimid).1).not_gt
    · exact absurd below (Int.tmod_nonneg _ ((ranged dimid).1.trans (ranged dimid).2)).not_gt
  have fits : totNumBuckets tuples widths ≤ 2147483647 := by
    have per_bucket :
        totNumBuckets tuples widths ≤ totNumBuckets tuples widths * (8 + numDims * 16) :=
      le_mul_of_one_le_right (total ▸ Int.natCast_nonneg _) (by omega)
    rw [mhistSize, maxAllocSize] at allocates
    omega
  refine ⟨{ numBucketsAllocated := (totNumBuckets tuples widths).toNat
            dimNames := ofFn fun dimid => ⟨dimid, names dimid⟩
            isFullFGHist := true
            buckets :=
              createRegBuckets (alignedRanges tuples widths) widths (finRange numDims) fun _ => 0 },
    ?_, ?_, fun tuple => (createRegBuckets_indexed aligned rfl tuple).1,
    fun tuple => (createRegBuckets_indexed aligned rfl tuple).2⟩
  · rw [createRegMhist, if_neg nonneg_mod, if_neg (by simpa using bounded),
      checkInt_ok (total ▸ Int.natCast_nonneg _) fits]
    simp only [bind, Except.bind]
    rw [if_neg (not_lt.mpr allocates), tdescToMhistDiminfo_eq few]
    exact if_pos used
  · exact used

theorem fixed_grid_indexed_plane :
    ∃ hist : Mhist 2,
      createRegMhist (fun _ => "a") [fun _ => 0, fun _ => 5] (fun _ => 3) = .ok hist ∧
        Partitions hist.buckets := by
  obtain ⟨hist, created, -, partitions, -⟩ :=
    fixed_grid_indexed (fun _ : Fin 2 => "a") [fun _ => 0, fun _ => 5] (fun _ => 3)
      (by decide) (by simp) (by simp) (by decide) (by decide) (by decide)
  exact ⟨hist, created, partitions⟩

/-- There is no room in the header for a ninth dimension. -/
theorem nine_dimensions_refused :
    createRegMhist (fun _ => "a") [fun _ => 0] (fun _ : Fin 9 => 1) = .error .outOfBounds := by
  rfl

end TelegraphCQ.Shedding
