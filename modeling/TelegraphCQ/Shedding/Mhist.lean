import Mathlib.Data.Fintype.Pi
import Mathlib.Data.Rat.Defs
import TelegraphCQ.Foundation.Gaps

/-!
# Adaptive histograms

A histogram of tuples of integers with any number of dimensions (`histogram.c`).  One bucket
for everything is split again and again, where the neighbours of a sample are farthest apart;
then all tuples are counted, each in the bucket that it fits.

A bucket has bounds along each dimension, and flags that make it accept what lies beyond
them.  While the buckets are made each one owns a part of the array with the sample.
-/

namespace TelegraphCQ.Shedding

open Foundation

inductive MhistFault where
  | assertion
  | overflow
  | outOfBounds
  | invalidDimension
  | tooFewNames
  | tooManyNames
  | tooManyDims
  | differentDims
  | invalidCut
  | horriblyWrong
  | mergedTooManyTimes
  deriving DecidableEq, Repr

def mhistMaxDims : Nat := 8

abbrev Tuple (numDims : Nat) : Type := Fin numDims → Int

structure DimInfo where
  minVal : Int
  maxVal : Int
  acceptBelowMin : Bool
  acceptAboveMax : Bool
  deriving DecidableEq, Repr

structure Bucket (numDims : Nat) where
  count : ℚ
  diminfo : Fin numDims → DimInfo
  deriving DecidableEq

structure DimName where
  dimNo : Int
  name : String
  deriving DecidableEq, Repr

/-- `buckets` are those in use; the others are allocated and zero. -/
structure Mhist (numDims : Nat) where
  numBucketsAllocated : Nat
  dimNames : List DimName
  isFullFGHist : Bool
  buckets : List (Bucket numDims)
  deriving DecidableEq

def createMhist (numBuckets numDims : Nat) : Mhist numDims :=
  { numBucketsAllocated := numBuckets, dimNames := [], isFullFGHist := false, buckets := [] }

variable {numDims : Nat}

def Mhist.numBucketsUsed (hist : Mhist numDims) : Nat := hist.buckets.length

/-! ## Where to split -/

def column (dimid : Fin numDims) (tuples : List (Tuple numDims)) : List Int :=
  tuples.map (· dimid)

/-- The order of tuples that are equal along the dimension is of no account. -/
def sortTuplesAlongDim (dimid : Fin numDims) (tuples : List (Tuple numDims)) :
    List (Tuple numDims) := sortBy (· dimid) tuples

/-- Both are zero when there is no value. -/
def getRange (vals : List Int) : DimInfo :=
  { minVal := vals.min?.getD 0
    maxVal := vals.max?.getD 0
    acceptBelowMin := false
    acceptAboveMax := false }

def getRanges (tuples : List (Tuple numDims)) (dimid : Fin numDims) : DimInfo :=
  getRange (column dimid tuples)

structure Part (numDims : Nat) where
  bucket : Bucket numDims
  tuples : List (Tuple numDims)
  deriving DecidableEq

structure MaxdiffInfo (numDims : Nat) where
  abs : Int
  dimid : Option (Fin numDims)
  norm : Option ℚ
  emptySpaceUpper : Bool
  emptySpaceLower : Bool
  deriving DecidableEq, Repr

def checkInt (value : Int) : Except MhistFault Int :=
  if -2147483648 ≤ value ∧ value ≤ 2147483647 then .ok value else .error .overflow

/-- A quotient of doubles; `none` is not a number.  No difference exceeds the range, so that
the only quotient by zero is that of zero. -/
def normDiff (diff range : Int) : Option ℚ :=
  if range = 0 then none else some ((diff : ℚ) / (range : ℚ))

def greater : Option ℚ → Option ℚ → Bool
  | some left, some right => decide (right < left)
  | _, _ => false

def equal : Option ℚ → Option ℚ → Bool
  | some left, some right => decide (left = right)
  | _, _ => false

def offerDiff (dimid : Fin numDims) (diff : Int) (norm : Option ℚ)
    (current : MaxdiffInfo numDims) : MaxdiffInfo numDims :=
  if greater norm current.norm ∨ current.abs = -1 then
    { current with abs := diff, norm := norm, dimid := some dimid }
  else current

def compareDiffs (dimid : Fin numDims) (range : DimInfo) :
    List Int → MaxdiffInfo numDims → Except MhistFault (MaxdiffInfo numDims)
  | [], current => .ok current
  | next :: diffs, current => do
      let diff ← checkInt next
      let width ← checkInt (range.maxVal - range.minVal)
      compareDiffs dimid range diffs (offerDiff dimid diff (normDiff diff width) current)

/-- A bucket is scanned until there is empty space at one of its edges. -/
def scanDims (ranges : Fin numDims → DimInfo) (part : Part numDims) :
    List (Fin numDims) → MaxdiffInfo numDims → Except MhistFault (MaxdiffInfo numDims)
  | [], current => .ok current
  | dimid :: dims, current =>
    if current.emptySpaceLower || current.emptySpaceUpper then .ok current
    else
      let values := column dimid (sortTuplesAlongDim dimid part.tuples)
      let di := part.bucket.diminfo dimid
      if values.head?.any (di.minVal < ·) then
        scanDims ranges part dims { current with dimid := some dimid, emptySpaceLower := true }
      else if values.getLast?.any (· < di.maxVal) then
        scanDims ranges part dims { current with dimid := some dimid, emptySpaceUpper := true }
      else do
        scanDims ranges part dims (← compareDiffs dimid (ranges dimid) (gaps values) current)

def getMaxdiff (ranges : Fin numDims → DimInfo) (part : Part numDims) :
    Except MhistFault (MaxdiffInfo numDims) :=
  scanDims ranges part (List.finRange numDims)
    { abs := -1, dimid := none, norm := some (-1), emptySpaceUpper := false,
      emptySpaceLower := false }

structure Measured (numDims : Nat) where
  part : Part numDims
  maxdiff : MaxdiffInfo numDims
  deriving DecidableEq

def getMaxdiffs (ranges : Fin numDims → DimInfo) :
    List (Part numDims) → Except MhistFault (List (Measured numDims))
  | [] => .ok []
  | part :: parts => do
      let maxdiff ← getMaxdiff ranges part
      let others ← getMaxdiffs ranges parts
      .ok (⟨part, maxdiff⟩ :: others)

inductive Choice (numDims : Nat) where
  | emptySpace (bucketid : Nat) (dimid : Option (Fin numDims)) (splitOffset : Int)
  | widest (best : Option (Nat × Measured numDims))
  deriving DecidableEq

def betterBucket (bucketid : Nat) (candidate : Measured numDims) :
    Option (Nat × Measured numDims) → Option (Nat × Measured numDims)
  | none => some (bucketid, candidate)
  | some best =>
    if greater candidate.maxdiff.norm best.2.maxdiff.norm ∨
        equal candidate.maxdiff.norm best.2.maxdiff.norm ∧
          best.2.part.tuples.length < candidate.part.tuples.length then
      some (bucketid, candidate)
    else some best

def chooseBucket :
    Nat → List (Measured numDims) → Option (Nat × Measured numDims) → Choice numDims
  | _, [], best => .widest best
  | bucketid, measured :: others, best =>
    if measured.maxdiff.emptySpaceLower then .emptySpace bucketid measured.maxdiff.dimid (-1)
    else if measured.maxdiff.emptySpaceUpper then
      .emptySpace bucketid measured.maxdiff.dimid (measured.part.tuples.length - 1)
    else chooseBucket (bucketid + 1) others (betterBucket bucketid measured best)

/-- The offset is looked for from the middle on, and then before it. -/
def findSplitOffset (abs : Int) (length : Nat) (diffs : List Int) : Option Nat :=
  match (diffs.drop (length / 2)).findIdx? (· = abs) with
  | some offset => some (length / 2 + offset)
  | none => (diffs.take (length / 2)).findIdx? (· = abs)

structure SplitPoint (numDims : Nat) where
  bucketid : Nat
  dimid : Fin numDims
  splitOffset : Int
  deriving DecidableEq, Repr

def getMhistSplitPoint (ranges : Fin numDims → DimInfo) (parts : List (Part numDims)) :
    Except MhistFault (SplitPoint numDims) := do
  match chooseBucket 0 (← getMaxdiffs ranges parts) none with
  | .emptySpace bucketid (some dimid) splitOffset => .ok ⟨bucketid, dimid, splitOffset⟩
  | .emptySpace _ none _ => .error .outOfBounds
  | .widest none => .error .assertion
  | .widest (some (bucketid, best)) =>
    if greater best.maxdiff.norm (some 0) then
      match best.maxdiff.dimid with
      | none => .error .outOfBounds
      | some dimid =>
        let sorted := sortTuplesAlongDim dimid best.part.tuples
        match findSplitOffset best.maxdiff.abs sorted.length (gaps (column dimid sorted)) with
        | none => .error .assertion
        | some splitOffset => .ok ⟨bucketid, dimid, splitOffset⟩
    else .error .assertion

/-! ## Splitting -/

def noBucketsToSplit (parts : List (Part numDims)) : Bool :=
  parts.all (fun part => part.tuples.length ≤ 1) ||
    parts.all (fun part => part.tuples.all (fun tuple => some tuple = part.tuples.head?))

def Bucket.cutAbove (bucket : Bucket numDims) (dimid : Fin numDims) (splitVal : Int) :
    Bucket numDims :=
  { bucket with
    diminfo :=
      Function.update bucket.diminfo dimid
        { bucket.diminfo dimid with maxVal := splitVal, acceptAboveMax := false } }

def Bucket.cutBelow (bucket : Bucket numDims) (dimid : Fin numDims) (splitVal : Int) :
    Bucket numDims :=
  { bucket with
    diminfo :=
      Function.update bucket.diminfo dimid
        { bucket.diminfo dimid with minVal := splitVal + 1, acceptBelowMin := false } }

/-- The last value below the split; the offset -1 splits off what is below all tuples. -/
def getSplitVal (values : List Int) (splitOffset : Int) : Except MhistFault Int :=
  if splitOffset = -1 then
    match values.head? with
    | some val => .ok (val - 1)
    | none => .error .outOfBounds
  else
    match values[splitOffset.toNat]? with
    | some val => .ok val
    | none => .error .outOfBounds

def splitPart (part : Part numDims) (dimid : Fin numDims) (splitOffset : Int) :
    Except MhistFault (Part numDims × Part numDims) := do
  let sorted := sortTuplesAlongDim dimid part.tuples
  let splitVal ← getSplitVal (column dimid sorted) splitOffset
  let di := part.bucket.diminfo dimid
  if di.minVal ≤ splitVal ∧ splitVal + 1 ≤ di.maxVal then
    .ok
      (⟨part.bucket.cutAbove dimid splitVal, sorted.take (splitOffset + 1).toNat⟩,
        ⟨part.bucket.cutBelow dimid splitVal, sorted.drop (splitOffset + 1).toNat⟩)
  else .error .assertion

def splitABucket (ranges : Fin numDims → DimInfo) (parts : List (Part numDims)) :
    Except MhistFault (Option (List (Part numDims))) :=
  if noBucketsToSplit parts then .ok none
  else do
    let point ← getMhistSplitPoint ranges parts
    match parts[point.bucketid]? with
    | none => .error .outOfBounds
    | some part =>
      let (old, new) ← splitPart part point.dimid point.splitOffset
      .ok (some (parts.set point.bucketid old ++ [new]))

/-- Splits at most the given number of times.  The number of buckets in use is set by each
split, and only by one. -/
def splitBuckets (ranges : Fin numDims → DimInfo) :
    Nat → Nat → List (Part numDims) → Except MhistFault (Nat × List (Part numDims))
  | 0, used, parts => .ok (used, parts)
  | rounds + 1, used, parts => do
      match ← splitABucket ranges parts with
      | some split => splitBuckets ranges rounds split.length split
      | none => .ok (used, parts)

def firstBucket (ranges : Fin numDims → DimInfo) : Bucket numDims :=
  { count := 0
    diminfo := fun dimid =>
      { ranges dimid with acceptBelowMin := true, acceptAboveMax := true } }

/-- The sample is what the random selection has moved to the front of the array. -/
def mhistCreateBuckets (hist : Mhist numDims) (sample : List (Tuple numDims)) :
    Except MhistFault (Mhist numDims) :=
  if hist.numBucketsUsed ≠ 0 then .error .assertion
  else if hist.numBucketsAllocated = 0 then .error .outOfBounds
  else do
    let ranges := getRanges sample
    let (used, parts) ←
      splitBuckets ranges (hist.numBucketsAllocated - 1) 0 [⟨firstBucket ranges, sample⟩]
    .ok { hist with buckets := (parts.map (·.bucket)).take used }

/-! ## Loading -/

def Bucket.Fits (bucket : Bucket numDims) (tuple : Tuple numDims) : Prop :=
  ∀ dimid,
    ¬(((bucket.diminfo dimid).maxVal < tuple dimid ∧
          (bucket.diminfo dimid).acceptAboveMax = false) ∨
        (tuple dimid < (bucket.diminfo dimid).minVal ∧
          (bucket.diminfo dimid).acceptBelowMin = false))

instance (bucket : Bucket numDims) (tuple : Tuple numDims) : Decidable (bucket.Fits tuple) :=
  inferInstanceAs (Decidable (∀ _, _))

def findBucket (tuple : Tuple numDims) :
    Nat → List (Bucket numDims) → Option Nat → Except MhistFault (Option Nat)
  | _, [], properBucketid => .ok properBucketid
  | bucketid, bucket :: buckets, properBucketid =>
    if bucket.Fits tuple then
      if properBucketid = none then findBucket tuple (bucketid + 1) buckets (some bucketid)
      else .error .assertion
    else findBucket tuple (bucketid + 1) buckets properBucketid

def getMhistBucketForTuple (hist : Mhist numDims) (tuple : Tuple numDims) :
    Except MhistFault (Option Nat) := findBucket tuple 0 hist.buckets none

/-- The values of a tuple are copied to an array for `mhistMaxDims` of them. -/
def mhistLoadTuple (tuple : Tuple numDims) (hist : Mhist numDims) :
    Except MhistFault (Mhist numDims) :=
  if mhistMaxDims < numDims then .error .outOfBounds
  else do
    match ← getMhistBucketForTuple hist tuple with
    | none => .error .outOfBounds
    | some bucketid =>
      .ok
        { hist with
          buckets :=
            hist.buckets.modify bucketid fun bucket =>
              { bucket with count := bucket.count + 1 } }

def mhistLoadBuckets :
    List (Tuple numDims) → Mhist numDims → Except MhistFault (Mhist numDims)
  | [], hist => .ok hist
  | tuple :: tuples, hist => do mhistLoadBuckets tuples (← mhistLoadTuple tuple hist)

end TelegraphCQ.Shedding
