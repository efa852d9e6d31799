import TelegraphCQ.Foundation.Boxes
import TelegraphCQ.Foundation.Outcome
import TelegraphCQ.Foundation.Slots
import TelegraphCQ.Shedding.MhistMerge

/-!
# Union and projection are exact

The mass of a point is its share of the counts of the buckets that cover it.  No step of the
merging changes the mass of a point, and a pass that finds no overlap has compared all pairs
of buckets that can overlap.
-/

namespace TelegraphCQ.Shedding

open Foundation List Function

variable {numDims : Nat}

def Bucket.box (bucket : Bucket numDims) : Box numDims :=
  { low := fun dimid => (bucket.diminfo dimid).minVal
    high := fun dimid => (bucket.diminfo dimid).maxVal }

def mass (buckets : List (Bucket numDims)) (point : Tuple numDims) : ℚ :=
  (buckets.map fun bucket => bucket.box.share bucket.count point).sum

def Apart (left right : Bucket numDims) : Prop :=
  ∀ point, ¬(left.box.Covers point ∧ right.box.Covers point)

def ProperBoxes (buckets : List (Bucket numDims)) : Prop :=
  ∀ bucket ∈ buckets, bucket.box.Proper

theorem mass_append (first second : List (Bucket numDims)) (point : Tuple numDims) :
    mass (first ++ second) point = mass first point + mass second point := by
  simp [mass]

theorem mass_cons (bucket : Bucket numDims) (buckets : List (Bucket numDims))
    (point : Tuple numDims) :
    mass (bucket :: buckets) point = bucket.box.share bucket.count point + mass buckets point := by
  simp [mass]

variable {first second : List (Bucket numDims)} {bucket cut left right : Bucket numDims}
  {dimid : Fin numDims} {val : Int} {hist result : Mhist numDims}
  {leftBucketid rightBucketid rounds : Nat} {found found' : Bool}
  {buckets : List (Bucket (numDims + 1))}

theorem mass_perm (perm : first.Perm second) (point : Tuple numDims) :
    mass first point = mass second point := (perm.map _).sum_eq

/-! ## One step -/

structure SameMass (before after : List (Bucket numDims)) : Prop where
  proper : ProperBoxes before → ProperBoxes after
  mass_eq : ProperBoxes before → ∀ point, mass after point = mass before point

theorem SameMass.refl (buckets : List (Bucket numDims)) : SameMass buckets buckets :=
  ⟨id, fun _ _ => rfl⟩

theorem SameMass.trans {third : List (Bucket numDims)} (earlier : SameMass first second)
    (later : SameMass second third) : SameMass first third :=
  ⟨fun proper => later.proper (earlier.proper proper), fun proper point =>
    (later.mass_eq (earlier.proper proper) point).trans (earlier.mass_eq proper point)⟩

theorem SameMass.of_perm (perm : second.Perm first) : SameMass first second :=
  ⟨fun proper bucket mem => proper bucket (perm.mem_iff.mp mem), fun _ => mass_perm perm⟩

theorem box_update (bucket : Bucket numDims) (count : ℚ) (dimid : Fin numDims) (di : DimInfo) :
    Bucket.box { count := count, diminfo := update bucket.diminfo dimid di } =
      { low := update bucket.box.low dimid di.minVal
        high := update bucket.box.high dimid di.maxVal } := by
  have lows : (fun other => (update bucket.diminfo dimid di other).minVal) =
      update bucket.box.low dimid di.minVal :=
    funext fun other => apply_update (fun _ => DimInfo.minVal) _ _ _ other
  have highs : (fun other => (update bucket.diminfo dimid di other).maxVal) =
      update bucket.box.high dimid di.maxVal :=
    funext fun other => apply_update (fun _ => DimInfo.maxVal) _ _ _ other
  rw [Bucket.box, lows, highs]

theorem cutTopOff_box {top : Int} (ran : cutTopOffMhistBucket bucket dimid top = .ok cut)
    (lt : top < (bucket.diminfo dimid).maxVal) : cut.box = bucket.box.below dimid top ∧ cut.count =
        bucket.count * ((bucket.box.below dimid top).extent dimid / bucket.box.extent dimid) := by
  simp only [cutTopOffMhistBucket] at ran
  split_ifs at ran with outside same
  · omega
  · cases ran
    refine ⟨?_, ?_⟩
    · rw [box_update]
      exact congrArg (Box.mk · _) (update_eq_self dimid bucket.box.low)
    · simp [Box.below, Box.extent, Bucket.box]

theorem cutBottomOff_box {bottom : Int}
    (ran : cutBottomOffMhistBucket bucket dimid bottom = .ok cut)
    (lt : (bucket.diminfo dimid).minVal < bottom) : cut.box = bucket.box.above dimid bottom ∧
      cut.count = bucket.count *
          ((bucket.box.above dimid bottom).extent dimid / bucket.box.extent dimid) := by
  simp only [cutBottomOffMhistBucket] at ran
  split_ifs at ran with outside same
  · omega
  · cases ran
    refine ⟨?_, ?_⟩
    · rw [box_update]
      exact congrArg (Box.mk _) (update_eq_self dimid bucket.box.high)
    · simp [Box.above, Box.extent, Bucket.box]

theorem not_invalidCut :
    (cutTopOffMhistBucket bucket dimid val = .ok cut → (bucket.diminfo dimid).minVal ≤ val) ∧
      (cutBottomOffMhistBucket bucket dimid val = .ok cut →
        val ≤ (bucket.diminfo dimid).maxVal) := by
  constructor
  · intro ran
    simp only [cutTopOffMhistBucket] at ran
    split_ifs at ran with outside <;> exact not_lt.mp fun lt => outside (.inl lt)
  · intro ran
    simp only [cutBottomOffMhistBucket] at ran
    split_ifs at ran with outside <;> exact not_lt.mp fun lt => outside (.inr lt)

theorem splitMhistBucket_sameMass {bucketid : Nat}
    (bucket_at : hist.buckets[bucketid]? = some bucket)
    (ran : splitMhistBucket hist bucketid bucket dimid val = .ok result) :
    SameMass hist.buckets result.buckets := by
  obtain ⟨cut, cut_eq, ran⟩ := exists_of_bind_ok ran
  obtain ⟨new, new_eq, ran⟩ := exists_of_bind_ok ran
  cases ran
  have low := not_invalidCut.1 cut_eq
  have high := not_invalidCut.2 new_eq
  obtain ⟨cut_box, cut_count⟩ := cutTopOff_box cut_eq (by omega)
  obtain ⟨new_box, new_count⟩ := cutBottomOff_box new_eq (by omega)
  obtain ⟨others, before, after⟩ := perm_set_append bucket_at cut new
  have split : SameMass (bucket :: others) ([cut, new] ++ others) := by
    constructor
    · intro proper
      obtain ⟨bucket_proper, rest_proper⟩ := forall_mem_cons.mp proper
      refine forall_mem_cons.mpr ⟨?_, forall_mem_cons.mpr ⟨?_, rest_proper⟩⟩
      · rw [cut_box]
        exact bucket_proper.below low
      · rw [new_box]
        exact bucket_proper.above high
    · intro proper point
      have bucket_proper := proper bucket mem_cons_self
      have shares := Box.share_cut bucket_proper low high bucket.count point
      rw [mass_append, mass_cons, mass_cons, mass_cons, cut_box, new_box, cut_count, new_count]
      simp only [mass, map_nil, sum_nil, add_zero]
      rw [shares]
  exact (SameMass.of_perm before.symm).trans (split.trans (SameMass.of_perm after))

theorem box_eq_of_mergeDimid (same : mergeDimid left right = none) : left.box = right.box := by
  have bounds : ∀ dimid, (left.diminfo dimid).minVal = (right.diminfo dimid).minVal ∧
      (left.diminfo dimid).maxVal = (right.diminfo dimid).maxVal := by
    intro dimid
    have none := find?_eq_none.mp same dimid (mem_finRange dimid)
    rw [decide_eq_true_eq, not_or, not_not, not_not] at none
    exact none
  have lows : left.box.low = right.box.low := funext fun dimid => (bounds dimid).1
  have highs : left.box.high = right.box.high := funext fun dimid => (bounds dimid).2
  exact congrArg₂ Box.mk lows highs

theorem addUp_sameMass {buckets : List (Bucket numDims)} (lt : leftBucketid < rightBucketid)
    {last : Bucket numDims} (left_at : buckets[leftBucketid]? = some left)
    (right_at : buckets[rightBucketid]? = some right) (box_eq : left.box = right.box)
    (last_at : (buckets.set leftBucketid { left with count := left.count + right.count }).getLast? =
      some last) : SameMass buckets
      ((buckets.set leftBucketid { left with count := left.count + right.count }).set
        rightBucketid last).dropLast := by
  let sum : Bucket numDims := { left with count := left.count + right.count }
  let merged := buckets.set leftBucketid sum
  obtain ⟨left_lt, left_eq⟩ := List.getElem?_eq_some_iff.mp left_at
  have right_at' : merged[rightBucketid]? = some right :=
    (List.getElem?_set_ne lt.ne).trans right_at
  obtain ⟨right_lt, right_eq⟩ := List.getElem?_eq_some_iff.mp right_at'
  have before : buckets.Perm (left :: buckets.eraseIdx leftBucketid) :=
    left_eq ▸ (List.getElem_cons_eraseIdx_perm left_lt).symm
  have between : merged.Perm (sum :: buckets.eraseIdx leftBucketid) :=
    set_perm_cons_eraseIdx left_lt sum
  have after : merged.Perm (right :: merged.eraseIdx rightBucketid) :=
    right_eq ▸ (getElem_cons_eraseIdx_perm right_lt).symm
  have added : SameMass buckets (merged.eraseIdx rightBucketid) := by
    constructor
    · intro proper bucket mem
      have in_merged : bucket ∈ merged := mem_of_mem_eraseIdx mem
      rcases mem_or_eq_of_mem_set in_merged with mem | rfl
      · exact proper bucket mem
      · exact proper left (mem_of_getElem? left_at)
    · intro _ point
      have total := mass_perm after point
      have sum_share : sum.box.share sum.count point =
          left.box.share left.count point + right.box.share right.count point :=
        (left.box.share_add left.count right.count point).trans (by rw [box_eq])
      rw [mass_perm between point, mass_cons, mass_cons, sum_share] at total
      rw [mass_perm before point, mass_cons]
      linear_combination -total
  exact added.trans (SameMass.of_perm (perm_dropLast_set right_lt last_at))

theorem mergeTwo_sameMass (lt : leftBucketid < rightBucketid)
    (ran : mergeTwoOverlappingBuckets hist leftBucketid rightBucketid = .ok result) :
    SameMass hist.buckets result.buckets := by
  rw [mergeTwoOverlappingBuckets] at ran
  split at ran
  · next left right left_at right_at =>
    split at ran
    · next dim_eq =>
      simp only at ran
      split at ran
      · next last last_at =>
        cases ran
        exact addUp_sameMass lt left_at right_at (box_eq_of_mergeDimid dim_eq) last_at
      · cases ran
    · obtain ⟨⟨side, val⟩, side_eq, ran⟩ := exists_of_bind_ok ran
      have buckets_eq : (if hist.numBucketsUsed = hist.numBucketsAllocated then
          createBiggerMhist hist else hist).buckets = hist.buckets := by
        split_ifs <;> rfl
      cases side with
      | left =>
        rw [← buckets_eq] at left_at ⊢
        exact splitMhistBucket_sameMass left_at ran
      | right =>
        rw [← buckets_eq] at right_at ⊢
        exact splitMhistBucket_sameMass right_at ran
  · cases ran

/-! ## A pass -/

/-- An overlap that was found is not forgotten. -/
theorem scanRight_spec (lt : leftBucketid < rightBucketid)
    (ran : scanRight leftBucketid rounds rightBucketid found hist = .ok (found', result)) :
    SameMass hist.buckets result.buckets ∧ (found = true → found' = true) := by
  induction rounds generalizing rightBucketid found hist with
  | zero =>
    cases ran
    exact ⟨SameMass.refl _, id⟩
  | succ rounds ih =>
    rw [scanRight] at ran
    split at ran
    · split_ifs at ran with possible overlap
      · obtain ⟨merged, merged_eq, ran⟩ := exists_of_bind_ok ran
        obtain ⟨same, still⟩ := ih (by omega) ran
        exact ⟨(mergeTwo_sameMass lt merged_eq).trans same, fun _ => still rfl⟩
      · exact ih (by omega) ran
      · cases ran
        exact ⟨SameMass.refl _, id⟩
    · cases ran
      exact ⟨SameMass.refl _, id⟩

theorem scanLeft_spec (ran : scanLeft rounds leftBucketid found hist = .ok (found', result)) :
    SameMass hist.buckets result.buckets ∧ (found = true → found' = true) := by
  induction rounds generalizing leftBucketid found hist with
  | zero =>
    cases ran
    exact ⟨SameMass.refl _, id⟩
  | succ rounds ih =>
    rw [scanLeft] at ran
    split_ifs at ran with more
    · obtain ⟨⟨next, scanned⟩, scanned_eq, ran⟩ := exists_of_bind_ok ran
      obtain ⟨same, still⟩ := scanRight_spec (by omega) scanned_eq
      obtain ⟨same', still'⟩ := ih ran
      exact ⟨same.trans same', still' ∘ still⟩
    · cases ran
      exact ⟨SameMass.refl _, id⟩

theorem perm_sortBuckets (buckets : List (Bucket numDims)) : (sortBuckets buckets).Perm buckets :=
  perm_insertionSort _ _

theorem reallyMerge_sameMass (ran : reallyMergeOverlappingMhistBuckets hist = .ok (found, result)) :
    SameMass hist.buckets result.buckets :=
  (SameMass.of_perm (perm_sortBuckets hist.buckets)).trans (scanLeft_spec ran).1

/-! ## The last pass -/

instance compareBuckets_trans (dims : List (Fin numDims)) :
    Std.TransCmp (compareBuckets dims) := by
  induction dims with
  | nil => exact { eq_swap := rfl, isLE_trans := fun _ _ => rfl }
  | cons dimid dims ih =>
    rw [compareBuckets]
    infer_instance

instance mhistBucketCmpf_trans :
    Std.TransCmp (mhistBucketCmpf : Bucket numDims → Bucket numDims → Ordering) :=
  compareBuckets_trans (List.finRange numDims)

theorem sortBuckets_ordered (buckets : List (Bucket (numDims + 1))) :
    (sortBuckets buckets).Pairwise fun left right =>
      (left.diminfo 0).minVal ≤ (right.diminfo 0).minVal := by
  have transitive : IsTrans (Bucket (numDims + 1)) fun left right =>
      (mhistBucketCmpf left right).isLE = true :=
    ⟨fun _ _ _ first second => Std.TransCmp.isLE_trans first second⟩
  have total : Std.Total fun left right : Bucket (numDims + 1) =>
      (mhistBucketCmpf left right).isLE = true := by
    refine ⟨fun left right => ?_⟩
    have swap : mhistBucketCmpf left right = (mhistBucketCmpf right left).swap :=
      Std.OrientedCmp.eq_swap
    cases order : mhistBucketCmpf right left <;> simp [swap, order]
  refine (pairwise_insertionSort _ buckets).imp fun {left right} le => ?_
  rw [mhistBucketCmpf, finRange_succ, compareBuckets, compareLex] at le
  by_contra greater
  have first : compareOn (fun bucket : Bucket (numDims + 1) => (bucket.diminfo 0).minVal)
      left right = .gt := compare_gt_iff_gt.mpr (not_le.mp greater)
  rw [first] at le
  cases le

theorem apart_of_not_overlap (none : bucketsOverlap left right = false) : Apart left right := by
  rintro point ⟨in_left, in_right⟩
  obtain ⟨dimid, -, beyond⟩ := all_eq_false.mp none
  rw [decide_eq_true_eq, not_not] at beyond
  have left_bounds := in_left dimid
  have right_bounds := in_right dimid
  simp only [Bucket.box] at left_bounds right_bounds
  omega

/-- Behind a bucket that cannot overlap there is none that can: the lower bounds along the first
dimension do not decrease. -/
theorem scanRight_apart {hist result : Mhist (numDims + 1)} (lt : leftBucketid < rightBucketid)
    (ordered : hist.buckets.Pairwise fun left right =>
      (left.diminfo 0).minVal ≤ (right.diminfo 0).minVal)
    (ran : scanRight leftBucketid rounds rightBucketid found hist = .ok (false, result)) :
    found = false ∧ result = hist ∧
      ∀ other, rightBucketid ≤ other → other < rightBucketid + rounds →
        ∀ left right, hist.buckets[leftBucketid]? = some left →
          hist.buckets[other]? = some right → Apart left right := by
  induction rounds generalizing rightBucketid found with
  | zero =>
    cases ran
    refine ⟨rfl, rfl, fun other le other_lt => ?_⟩
    omega
  | succ rounds ih =>
    rw [scanRight] at ran
    split at ran
    · next left right left_at right_at =>
      split_ifs at ran with possible overlap
      · obtain ⟨merged, -, ran⟩ := exists_of_bind_ok ran
        cases (scanRight_spec (by omega) ran).2 rfl
      · obtain ⟨found_eq, result_eq, rest⟩ := ih (by omega) ran
        refine ⟨found_eq, result_eq, ?_⟩
        intro other le other_lt left' right' left_at' right_at'
        obtain rfl | later := le.eq_or_lt
        · obtain rfl : left = left' := Option.some.inj (left_at.symm.trans left_at')
          obtain rfl : right = right' := Option.some.inj (right_at.symm.trans right_at')
          exact apart_of_not_overlap (Bool.not_eq_true _ ▸ overlap)
        · exact rest other later (by omega) left' right' left_at' right_at'
      · cases ran
        refine ⟨rfl, rfl, ?_⟩
        intro other le other_lt left' right' left_at' right_at'
        obtain rfl : left = left' := Option.some.inj (left_at.symm.trans left_at')
        have beyond : (left.diminfo 0).maxVal < (right.diminfo 0).minVal := by
          have no := any_eq_false.mp (Bool.not_eq_true _ ▸ possible) 0
            (mem_finRange 0)
          simpa using no
        have further : (right.diminfo 0).minVal ≤ (right'.diminfo 0).minVal := by
          obtain ⟨right_lt, rfl⟩ := List.getElem?_eq_some_iff.mp right_at
          obtain ⟨other_lt, rfl⟩ := List.getElem?_eq_some_iff.mp right_at'
          obtain rfl | later := le.eq_or_lt
          · exact le_rfl
          · exact pairwise_iff_getElem.mp ordered _ _ right_lt other_lt later
        rintro point ⟨in_left, in_right⟩
        have left_bound := (in_left 0).2
        have right_bound := (in_right 0).1
        simp only [Bucket.box] at left_bound right_bound
        omega
    · next absent =>
      cases ran
      refine ⟨rfl, rfl, ?_⟩
      intro other le other_lt left right left_at right_at
      have within : rightBucketid < hist.buckets.length :=
        le.trans_lt (List.getElem?_eq_some_iff.mp right_at).1
      exact (absent left _ left_at (List.getElem?_eq_getElem within)).elim

theorem scanLeft_apart {hist result : Mhist (numDims + 1)}
    (ordered : hist.buckets.Pairwise fun left right =>
      (left.diminfo 0).minVal ≤ (right.diminfo 0).minVal)
    (all : leftBucketid + rounds + 1 = hist.buckets.length)
    (ran : scanLeft rounds leftBucketid false hist = .ok (false, result)) : result = hist ∧
      ∀ first second, leftBucketid ≤ first → first < second →
        ∀ left right, hist.buckets[first]? = some left → hist.buckets[second]? = some right →
          Apart left right := by
  induction rounds generalizing leftBucketid with
  | zero =>
    cases ran
    refine ⟨rfl, ?_⟩
    intro first second le lt left right left_at right_at
    have within := (List.getElem?_eq_some_iff.mp right_at).1
    omega
  | succ rounds ih =>
    rw [scanLeft] at ran
    split_ifs at ran with more
    · obtain ⟨⟨next, scanned⟩, scanned_eq, ran'⟩ := exists_of_bind_ok ran
      cases next with
      | true => cases (scanLeft_spec ran').2 rfl
      | false =>
        obtain ⟨-, rfl, here⟩ := scanRight_apart (by omega) ordered scanned_eq
        obtain ⟨result_eq, rest⟩ := ih (by omega) ran'
        refine ⟨result_eq, ?_⟩
        intro first second le lt left right left_at right_at
        obtain rfl | later := le.eq_or_lt
        · have within := (List.getElem?_eq_some_iff.mp right_at).1
          exact here second lt (by omega) left right left_at right_at
        · exact rest first second later lt left right left_at right_at
    · rw [Mhist.numBucketsUsed] at more
      omega

theorem reallyMerge_apart {hist result : Mhist (numDims + 1)}
    (ran : reallyMergeOverlappingMhistBuckets hist = .ok (false, result)) :
    result.buckets.Pairwise Apart := by
  have length_eq := (perm_sortBuckets hist.buckets).length_eq
  rw [reallyMergeOverlappingMhistBuckets] at ran
  cases empty : hist.buckets with
  | nil =>
    simp only [Mhist.numBucketsUsed, empty, length_nil] at ran
    cases ran
    exact List.Pairwise.nil
  | cons bucket buckets =>
    have all : 0 + (hist.numBucketsUsed - 1) + 1 = (sortBuckets hist.buckets).length := by
      rw [length_eq, Mhist.numBucketsUsed, empty, length_cons]
      omega
    obtain ⟨rfl, apart⟩ := scanLeft_apart (sortBuckets_ordered hist.buckets) all ran
    refine pairwise_iff_getElem.mpr fun first second first_lt second_lt lt => ?_
    exact apart first second (Nat.zero_le _) lt _ _ (getElem?_eq_getElem first_lt)
      (getElem?_eq_getElem second_lt)

/-! ## All passes -/

theorem mergePasses_exact {hist result : Mhist (numDims + 1)}
    (ran : mergePasses rounds hist = .ok result) :
    SameMass hist.buckets result.buckets ∧ result.buckets.Pairwise Apart := by
  induction rounds generalizing hist with
  | zero => cases ran
  | succ rounds ih =>
    rw [mergePasses] at ran
    obtain ⟨⟨found, merged⟩, merged_eq, ran⟩ := exists_of_bind_ok ran
    have same := reallyMerge_sameMass merged_eq
    cases found with
    | true =>
      obtain ⟨later, apart⟩ := ih ran
      exact ⟨same.trans later, apart⟩
    | false =>
      cases ran
      exact ⟨same, reallyMerge_apart merged_eq⟩

theorem finite_mass_support (buckets : List (Bucket (numDims + 1))) (dim : Fin (numDims + 1))
    (point : Tuple numDims) :
    (support fun value : Int => mass buckets (dim.insertNth value point)).Finite := by
  induction buckets with
  | nil => simp [mass]
  | cons bucket buckets ih =>
    simp only [mass_cons]
    exact ((Box.finite_share_support _ dim _ point).union ih).subset
      (support_add _ _)

theorem mass_project (proper : ProperBoxes buckets) (dim : Fin (numDims + 1))
    (point : Tuple numDims) : mass (buckets.map fun bucket => projectMhistBucket bucket dim) point =
      finsum fun value : Int => mass buckets (dim.insertNth value point) := by
  induction buckets with
  | nil => simp [mass]
  | cons bucket buckets ih =>
    have share := Box.finsum_share (proper bucket mem_cons_self) dim bucket.count point
    have rest := ih fun other mem => proper other (mem_cons_of_mem _ mem)
    simp only [mass_cons, map_cons]
    rw [finsum_add_distrib (Box.finite_share_support _ dim _ point)
      (finite_mass_support buckets dim point), share, ← rest]
    rfl

theorem properBoxes_project (proper : ProperBoxes buckets) (dim : Fin (numDims + 1)) :
    ProperBoxes (buckets.map fun bucket => projectMhistBucket bucket dim) := by
  intro bucket mem
  obtain ⟨src, src_mem, rfl⟩ := mem_map.mp mem
  exact (proper src src_mem).leaveOut dim

/-- A union has the mass of both histograms, and a projection sums up the mass along the
dimension that is left out. -/
theorem union_and_projection_exact (numDims : Nat) :
    (∀ hist1 hist2 result : Mhist (numDims + 1), ProperBoxes hist1.buckets →
      ProperBoxes hist2.buckets → mhistUnion hist1 hist2 = .ok result →
        result.buckets.Pairwise Apart ∧
          ∀ point, mass result.buckets point =
            mass hist1.buckets point + mass hist2.buckets point) ∧
    (∀ (inhist : Mhist (numDims + 2)) (projDim : Fin (numDims + 2))
      (result : Mhist (numDims + 1)), ProperBoxes inhist.buckets →
        realMhistProject inhist projDim.val = .ok result →
          result.buckets.Pairwise Apart ∧
            ∀ point, mass result.buckets point =
              finsum fun value : Int =>
                mass inhist.buckets (projDim.insertNth value point)) := by
  constructor
  · intro hist1 hist2 result proper1 proper2 ran
    obtain ⟨-, -, ran⟩ := exists_of_bind_ok ran
    obtain ⟨-, -, ran⟩ := exists_of_bind_ok ran
    rw [dif_pos rfl] at ran
    obtain ⟨names, -, ran⟩ := exists_of_bind_ok ran
    split_ifs at ran with many
    obtain ⟨same, apart⟩ := mergePasses_exact ran
    refine ⟨apart, fun point => ?_⟩
    have proper : ProperBoxes (hist1.buckets ++ hist2.buckets) :=
      forall_mem_append.mpr ⟨proper1, proper2⟩
    exact (same.mass_eq proper point).trans (mass_append _ _ point)
  · intro inhist projDim result proper ran
    obtain ⟨-, -, ran⟩ := exists_of_bind_ok ran
    have valid : 0 ≤ (projDim.val : Int) ∧ (projDim.val : Int) < (numDims + 1 + 1 : Nat) := by
      omega
    rw [dif_pos valid] at ran
    obtain ⟨same, apart⟩ := mergePasses_exact ran
    refine ⟨apart, fun point => ?_⟩
    have projected := same.mass_eq (properBoxes_project proper projDim) point
    exact projected.trans (mass_project proper projDim point)

def cubeMhist (numDims : Nat) (low high : Int) (count : ℚ) : Mhist numDims :=
  { numBucketsAllocated := 1
    dimNames := (List.finRange numDims).map fun dimid => ⟨dimid.val, "r.a"⟩
    isFullFGHist := false
    buckets := [{ count := count, diminfo := fun _ => ⟨low, high, false, false⟩ }] }

theorem properBoxes_cube {low high : Int} {count : ℚ} (le : low ≤ high) :
    ProperBoxes (cubeMhist numDims low high count).buckets := by
  intro bucket mem dimid
  rw [mem_singleton.mp mem]
  exact le

theorem union_and_projection_exact_overlapping :
    (∃ result, mhistUnion (cubeMhist 1 0 1 2) (cubeMhist 1 1 2 4) = .ok result ∧
      result.buckets.Pairwise Apart ∧ mass result.buckets (fun _ => 1) = 3) ∧
    ∃ result, realMhistProject (cubeMhist 2 0 1 8) (1 : Fin 2).val = .ok result ∧
      result.buckets.Pairwise Apart := by
  have united : (mhistUnion (cubeMhist 1 0 1 2) (cubeMhist 1 1 2 4)).isOk = true := by
    decide +kernel
  have projected : (realMhistProject (cubeMhist 2 0 1 8) (1 : Fin 2).val).isOk = true := by
    decide +kernel
  cases union_eq : mhistUnion (cubeMhist 1 0 1 2) (cubeMhist 1 1 2 4) with
  | error fault => rw [union_eq] at united; cases united
  | ok union =>
    cases project_eq : realMhistProject (cubeMhist 2 0 1 8) (1 : Fin 2).val with
    | error fault => rw [project_eq] at projected; cases projected
    | ok projection =>
      obtain ⟨apart, masses⟩ :=
        (union_and_projection_exact 0).1 _ _ union (properBoxes_cube (by omega))
          (properBoxes_cube (by omega)) union_eq
      obtain ⟨apart', -⟩ :=
        (union_and_projection_exact 0).2 _ 1 projection (properBoxes_cube (by omega)) project_eq
      have point_mass : mass (cubeMhist 1 0 1 2).buckets (fun _ => 1) +
          mass (cubeMhist 1 1 2 4).buckets (fun _ => 1) = 3 := by
        decide +kernel
      exact ⟨⟨union, rfl, apart, (masses _).trans point_mass⟩, projection, rfl, apart'⟩

end TelegraphCQ.Shedding
