import TelegraphCQ.Shedding.Mhist

/-!
# Union and projection of histograms

Both put buckets together that may overlap, and then take the overlaps apart
(`merge_overlapping_mhist_buckets`): in each pass the buckets are sorted, and two that overlap
are added up if their bounds are the same; otherwise one of them is cut along the first
dimension where the bounds differ.  The passes end with the first that finds no overlap.
-/

namespace TelegraphCQ.Shedding

open Foundation

def mhistMaxColNames : Nat := 8

def mhistColNameLen : Nat := 32

def maxNumMerges : Nat := 1000

variable {numDims : Nat}

def checkMhistIntegrity (hist : Mhist numDims) : Except MhistFault Unit :=
  if mhistMaxDims < numDims then .error .tooManyDims
  else if hist.dimNames.length < numDims then .error .tooFewNames
  else if mhistMaxColNames < hist.dimNames.length then .error .tooManyNames
  else .ok ()

/-! ## Taking two buckets apart -/

def compareBuckets : List (Fin numDims) → Bucket numDims → Bucket numDims → Ordering
  | [] => fun _ _ => .eq
  | dimid :: dims =>
    compareLex (compareOn fun bucket => (bucket.diminfo dimid).minVal)
      (compareLex (compareOn fun bucket => (bucket.diminfo dimid).maxVal)
        (compareBuckets dims))

def mhistBucketCmpf (left right : Bucket numDims) : Ordering :=
  compareBuckets (List.finRange numDims) left right

def sortBuckets (buckets : List (Bucket numDims)) : List (Bucket numDims) :=
  buckets.insertionSort fun left right => (mhistBucketCmpf left right).isLE = true

def potentialOverlap (left right : Bucket numDims) : Bool :=
  (List.finRange numDims).any fun dimid =>
    (right.diminfo dimid).minVal ≤ (left.diminfo dimid).maxVal

def bucketsOverlap (left right : Bucket numDims) : Bool :=
  (List.finRange numDims).all fun dimid =>
    ¬((left.diminfo dimid).maxVal < (right.diminfo dimid).minVal ∨
      (right.diminfo dimid).maxVal < (left.diminfo dimid).minVal)

def mergeDimid (left right : Bucket numDims) : Option (Fin numDims) :=
  (List.finRange numDims).find? fun dimid =>
    (left.diminfo dimid).minVal ≠ (right.diminfo dimid).minVal ∨
      (left.diminfo dimid).maxVal ≠ (right.diminfo dimid).maxVal

def cutTopOffMhistBucket (bucket : Bucket numDims) (dimid : Fin numDims) (newMax : Int) :
    Except MhistFault (Bucket numDims) :=
  let di := bucket.diminfo dimid
  if newMax < di.minVal ∨ di.maxVal < newMax then .error .invalidCut
  else if newMax = di.maxVal then .ok bucket
  else
    let numValsBefore := di.maxVal - di.minVal + 1
    let numValsAfter := newMax - di.minVal + 1
    .ok
      { count := bucket.count * ((numValsAfter : ℚ) / (numValsBefore : ℚ))
        diminfo :=
          Function.update bucket.diminfo dimid
            { di with maxVal := newMax, acceptAboveMax := false } }

def cutBottomOffMhistBucket (bucket : Bucket numDims) (dimid : Fin numDims) (newMin : Int) :
    Except MhistFault (Bucket numDims) :=
  let di := bucket.diminfo dimid
  if newMin < di.minVal ∨ di.maxVal < newMin then .error .invalidCut
  else if newMin = di.minVal then .ok bucket
  else
    let numValsBefore := di.maxVal - di.minVal + 1
    let numValsAfter := di.maxVal - newMin + 1
    .ok
      { count := bucket.count * ((numValsAfter : ℚ) / (numValsBefore : ℚ))
        diminfo :=
          Function.update bucket.diminfo dimid
            { di with minVal := newMin, acceptBelowMin := false } }

def createBiggerMhist (hist : Mhist numDims) : Mhist numDims :=
  { numBucketsAllocated := 2 * hist.numBucketsAllocated
    dimNames := hist.dimNames
    isFullFGHist := false
    buckets := hist.buckets }

inductive Side where
  | left
  | right
  deriving DecidableEq, Repr

def chooseSplit (left right : DimInfo) : Except MhistFault (Side × Int) :=
  if left.minVal < right.minVal then .ok (.left, right.minVal - 1)
  else if right.minVal < left.minVal then .ok (.right, left.minVal - 1)
  else if right.maxVal < left.maxVal then .ok (.left, right.maxVal)
  else if left.maxVal < right.maxVal then .ok (.right, left.maxVal)
  else .error .horriblyWrong

def splitMhistBucket (hist : Mhist numDims) (bucketid : Nat) (bucket : Bucket numDims)
    (dimid : Fin numDims) (valToSplitAt : Int) : Except MhistFault (Mhist numDims) := do
  let cut ← cutTopOffMhistBucket bucket dimid valToSplitAt
  let new ← cutBottomOffMhistBucket bucket dimid (valToSplitAt + 1)
  .ok { hist with buckets := hist.buckets.set bucketid cut ++ [new] }

def mergeTwoOverlappingBuckets (hist : Mhist numDims) (leftBucketid rightBucketid : Nat) :
    Except MhistFault (Mhist numDims) :=
  match hist.buckets[leftBucketid]?, hist.buckets[rightBucketid]? with
  | some left, some right =>
    match mergeDimid left right with
    | none =>
      let merged :=
        hist.buckets.set leftBucketid { left with count := left.count + right.count }
      match merged.getLast? with
      | some last => .ok { hist with buckets := (merged.set rightBucketid last).dropLast }
      | none => .error .outOfBounds
    | some dimid => do
        let room :=
          if hist.numBucketsUsed = hist.numBucketsAllocated then createBiggerMhist hist else hist
        match ← chooseSplit (left.diminfo dimid) (right.diminfo dimid) with
        | (.left, val) => splitMhistBucket room leftBucketid left dimid val
        | (.right, val) => splitMhistBucket room rightBucketid right dimid val
  | _, _ => .error .outOfBounds

/-! ## The passes -/

def scanRight (leftBucketid : Nat) :
    Nat → Nat → Bool → Mhist numDims → Except MhistFault (Bool × Mhist numDims)
  | 0, _, foundOverlap, hist => .ok (foundOverlap, hist)
  | rounds + 1, rightBucketid, foundOverlap, hist =>
    match hist.buckets[leftBucketid]?, hist.buckets[rightBucketid]? with
    | some left, some right =>
      if potentialOverlap left right then
        if bucketsOverlap left right then do
          let merged ← mergeTwoOverlappingBuckets hist leftBucketid rightBucketid
          scanRight leftBucketid rounds (rightBucketid + 1) true merged
        else scanRight leftBucketid rounds (rightBucketid + 1) foundOverlap hist
      else .ok (foundOverlap, hist)
    | _, _ => .ok (foundOverlap, hist)

def scanLeft : Nat → Nat → Bool → Mhist numDims → Except MhistFault (Bool × Mhist numDims)
  | 0, _, foundOverlap, hist => .ok (foundOverlap, hist)
  | rounds + 1, leftBucketid, foundOverlap, hist =>
    if leftBucketid + 1 < hist.numBucketsUsed then do
      let scanned ← scanRight leftBucketid (rounds + 1) (leftBucketid + 1) foundOverlap hist
      scanLeft rounds (leftBucketid + 1) scanned.1 scanned.2
    else .ok (foundOverlap, hist)

def reallyMergeOverlappingMhistBuckets (hist : Mhist numDims) :
    Except MhistFault (Bool × Mhist numDims) :=
  scanLeft (hist.numBucketsUsed - 1) 0 false
    { hist with buckets := sortBuckets hist.buckets }

def mergePasses : Nat → Mhist numDims → Except MhistFault (Mhist numDims)
  | 0, _ => .error .mergedTooManyTimes
  | rounds + 1, hist => do
      let (foundOverlap, merged) ← reallyMergeOverlappingMhistBuckets hist
      if foundOverlap then mergePasses rounds merged else .ok merged

/-- After pass number `maxNumMerges` there is an error, whatever the pass has found. -/
def mergeOverlappingMhistBuckets (hist : Mhist numDims) : Except MhistFault (Mhist numDims) :=
  mergePasses (maxNumMerges - 1) hist

/-! ## Union -/

def sameName (left right : String) : Bool :=
  (left.toList.take mhistColNameLen).map Char.toLower =
    (right.toList.take mhistColNameLen).map Char.toLower

def removeDuplicateNames (names : List DimName) : Except MhistFault (List DimName) :=
  if names.any (fun name => name.dimNo = -1) then .error .assertion
  else
    .ok
      (names.foldl
        (fun kept name =>
          if kept.any (fun other => other.dimNo = name.dimNo && sameName other.name name.name) then
            kept
          else kept ++ [name])
        [])

def unionOfMhists (hist1 hist2 : Mhist numDims) : Except MhistFault (Mhist numDims) := do
  let numBuckets := hist1.numBucketsUsed + hist2.numBucketsUsed
  let newNames ← removeDuplicateNames (hist1.dimNames ++ hist2.dimNames)
  if mhistMaxColNames < newNames.length then .error .tooManyNames
  else
    mergeOverlappingMhistBuckets
      { createMhist numBuckets numDims with
        dimNames := newNames
        buckets := hist1.buckets ++ hist2.buckets }

def mhistUnion {numDims1 numDims2 : Nat} (hist1 : Mhist numDims1) (hist2 : Mhist numDims2) :
    Except MhistFault (Mhist numDims1) := do
  checkMhistIntegrity hist1
  checkMhistIntegrity hist2
  if same : numDims2 = numDims1 then unionOfMhists hist1 (same ▸ hist2)
  else .error .differentDims

/-! ## Projection -/

def projectNames (dim : Int) (names : List DimName) : List DimName :=
  (names.filter (·.dimNo ≠ dim)).map fun name =>
    if dim < name.dimNo then { name with dimNo := name.dimNo - 1 } else name

def createProjMhist (original : Mhist (numDims + 1)) (dim : Fin (numDims + 1)) : Mhist numDims :=
  { createMhist original.numBucketsUsed numDims with
    dimNames := projectNames dim.val original.dimNames }

def projectMhistBucket (src : Bucket (numDims + 1)) (projDim : Fin (numDims + 1)) :
    Bucket numDims :=
  { count := src.count
    diminfo := fun dimid => src.diminfo (projDim.succAbove dimid) }

def realMhistProject (inhist : Mhist (numDims + 1)) (projDim : Int) :
    Except MhistFault (Mhist numDims) := do
  checkMhistIntegrity inhist
  if valid : 0 ≤ projDim ∧ projDim < (numDims + 1 : Nat) then
    let dim : Fin (numDims + 1) := ⟨projDim.toNat, by omega⟩
    mergeOverlappingMhistBuckets
      { createProjMhist inhist dim with
        buckets := inhist.buckets.map fun bucket => projectMhistBucket bucket dim }
  else .error .invalidDimension

def getDimidForName (names : List DimName) (name : String) : Int :=
  ((names.find? fun other => sameName other.name name).map (·.dimNo)).getD (-1)

def mhistProject (inhist : Mhist (numDims + 1)) (projDimName : String) :
    Except MhistFault (Mhist numDims) :=
  if getDimidForName inhist.dimNames projDimName = -1 then .error .invalidDimension
  else realMhistProject inhist (getDimidForName inhist.dimNames projDimName)

end TelegraphCQ.Shedding
