import Mathlib.Probability.ProductMeasure
import TelegraphCQ.Foundation.Outcome

/-!
# Reservoir samples

The summary of the tuples that are shed is a sample of bounded size (`shedding.c`).  Tuples
are appended until the sample is full; from then on a tuple replaces a victim, or is not
used.  One number is drawn for each tuple and one more for each victim.

`draws` is the sequence of numbers drawn, from 0 inclusive to 1 exclusive, and `drawn` how
many of them have been used.  The sample has the tuples below `cur_sample_size`.
-/

namespace TelegraphCQ.Shedding

open Foundation MeasureTheory List

inductive SampleFault where
  | consuming
  | victimOutOfBounds (victimIx : Nat)
  deriving DecidableEq, Repr

structure ReservoirSample (Tuple : Type) where
  maxSampleSize : Nat
  totSize : Nat
  reservoir : List Tuple
  curSampleItr : Int
  drawn : Nat
  deriving DecidableEq, Repr

section Sampling

variable {Tuple : Type}

def ReservoirSample.curSampleSize (samp : ReservoirSample Tuple) : Nat := samp.reservoir.length

def sampleCreate (maxSize : Nat) : ReservoirSample Tuple :=
  { maxSampleSize := maxSize, totSize := 0, reservoir := [], curSampleItr := -1, drawn := 0 }

variable {Number : Type} [Field Number] [LinearOrder Number] [FloorSemiring Number]

/-- The quotient as the source has it; of the doubles, `1.0 / 0.0` is infinite. -/
def probUseTup (samp : ReservoirSample Tuple) : WithTop Number :=
  if samp.curSampleSize = 0 then ⊤
  else (((samp.totSize : Number) + 1) / (samp.curSampleSize : Number) : Number)

def sampleLoadOne (draws : Nat → Number) (curTup : Tuple) (samp : ReservoirSample Tuple) :
    Except SampleFault (ReservoirSample Tuple) :=
  let randnum := draws samp.drawn
  if (randnum : WithTop Number) ≤ probUseTup samp then
    if samp.curSampleSize < samp.maxSampleSize then
      .ok
        { samp with
          reservoir := samp.reservoir ++ [curTup]
          totSize := samp.totSize + 1
          drawn := samp.drawn + 1 }
    else
      let victimIx := ⌊(samp.curSampleSize : Number) * draws (samp.drawn + 1)⌋₊
      if samp.curSampleSize ≤ victimIx then .error (.victimOutOfBounds victimIx)
      else
        .ok
          { samp with
            reservoir := samp.reservoir.set victimIx curTup
            totSize := samp.totSize + 1
            drawn := samp.drawn + 2 }
  else .ok { samp with totSize := samp.totSize + 1, drawn := samp.drawn + 1 }

def sampleLoadLoop (draws : Nat → Number) :
    List Tuple → ReservoirSample Tuple → Except SampleFault (ReservoirSample Tuple)
  | [], samp => .ok samp
  | tup :: tups, samp => do sampleLoadLoop draws tups (← sampleLoadOne draws tup samp)

def sampleLoad (draws : Nat → Number) (tups : List Tuple) (samp : ReservoirSample Tuple) :
    Except SampleFault (ReservoirSample Tuple) :=
  if samp.curSampleItr ≠ -1 then .error .consuming else sampleLoadLoop draws tups samp

def loadBatches (draws : Nat → Number) :
    List (List Tuple) → ReservoirSample Tuple → Except SampleFault (ReservoirSample Tuple)
  | [], samp => .ok samp
  | tups :: batches, samp => do loadBatches draws batches (← sampleLoad draws tups samp)

/-! ## What is in a sample -/

variable [IsStrictOrderedRing Number]

/-- As long as the sample is not full all tuples are in it; the last tuple always is. -/
structure Sampled (maxSize : Nat) (seen : List Tuple) (samp : ReservoirSample Tuple) :
    Prop where
  maxSampleSize : samp.maxSampleSize = maxSize
  building : samp.curSampleItr = -1
  totSize : samp.totSize = seen.length
  length : samp.reservoir.length = min maxSize seen.length
  whole : seen.length ≤ maxSize → samp.reservoir = seen
  last : ∀ tup ∈ seen.getLast?, tup ∈ samp.reservoir

theorem sampled_create (maxSize : Nat) :
    Sampled maxSize [] (sampleCreate maxSize : ReservoirSample Tuple) :=
  ⟨rfl, rfl, rfl, by simp [sampleCreate], fun _ => rfl, by simp⟩

variable {samp : ReservoirSample Tuple}

/-- The quotient is never below one: there are not more tuples in the sample than were seen. -/
theorem one_le_probUseTup (few : samp.curSampleSize ≤ samp.totSize) :
    (1 : WithTop Number) ≤ probUseTup samp := by
  rw [probUseTup]
  split_ifs with empty
  · exact le_top
  · have positive : (0 : Number) < samp.curSampleSize := Nat.cast_pos.mpr (Nat.pos_of_ne_zero empty)
    have bound : (samp.curSampleSize : Number) ≤ (samp.totSize : Number) + 1 :=
      (Nat.cast_le.mpr few).trans (le_add_of_nonneg_right zero_le_one)
    exact WithTop.coe_le_coe.mpr ((one_le_div₀ positive).mpr bound)

theorem victim_within {size : Nat} {draw : Number} (size_pos : 0 < size)
    (draw_lt : draw < 1) : ⌊(size : Number) * draw⌋₊ < size := by
  have positive : (0 : Number) < size := Nat.cast_pos.mpr size_pos
  refine (Nat.floor_lt' size_pos.ne').mpr ?_
  calc (size : Number) * draw < size * 1 := mul_lt_mul_of_pos_left draw_lt positive
    _ = size := mul_one _

variable {draws : Nat → Number} {maxSize : Nat}

section

variable (below : ∀ i, draws i < 1) (max_pos : 0 < maxSize)
include below max_pos

theorem sampleLoadOne_sampled {seen : List Tuple} (sampled : Sampled maxSize seen samp)
    (tup : Tuple) : ∃ samp', sampleLoadOne draws tup samp = .ok samp' ∧
      Sampled maxSize (seen ++ [tup]) samp' := by
  have size_eq : samp.curSampleSize = min maxSize seen.length := sampled.length
  have few : samp.curSampleSize ≤ samp.totSize := by
    rw [size_eq, sampled.totSize]
    exact Nat.min_le_right _ _
  have used : (draws samp.drawn : WithTop Number) ≤ probUseTup samp :=
    (WithTop.coe_le_coe.mpr (below _).le).trans (one_le_probUseTup few)
  have seen_length : (seen ++ [tup]).length = seen.length + 1 := by simp
  simp only [sampleLoadOne, if_pos used, sampled.maxSampleSize]
  by_cases room : samp.curSampleSize < maxSize
  · have before : seen.length < maxSize := by omega
    refine ⟨_, if_pos room, ?_⟩
    refine ⟨rfl, sampled.building, ?_, ?_, fun _ => ?_, ?_⟩
    · rw [seen_length, sampled.totSize]
    · rw [seen_length, length_append, sampled.length, length_singleton]
      omega
    · rw [sampled.whole before.le]
    · simp
  · have full : samp.curSampleSize = maxSize := by omega
    have within : ⌊(samp.curSampleSize : Number) * draws (samp.drawn + 1)⌋₊
        < samp.curSampleSize := victim_within (by omega) (below _)
    refine ⟨_, by rw [if_neg room, if_neg (Nat.not_le.mpr within)], ?_⟩
    refine ⟨rfl, sampled.building, ?_, ?_, fun short => ?_, ?_⟩
    · rw [seen_length, sampled.totSize]
    · rw [seen_length, length_set, sampled.length]
      omega
    · omega
    · intro last is_last
      rw [getLast?_concat, Option.mem_some_iff] at is_last
      exact is_last ▸ mem_set within tup

theorem sampleLoadLoop_sampled (tups seen : List Tuple) (samp : ReservoirSample Tuple)
    (sampled : Sampled maxSize seen samp) : ∃ samp', sampleLoadLoop draws tups samp = .ok samp' ∧
      Sampled maxSize (seen ++ tups) samp' := by
  induction tups generalizing seen samp with
  | nil => exact ⟨samp, rfl, by rwa [append_nil]⟩
  | cons tup tups ih =>
    obtain ⟨samp₁, loads, sampled₁⟩ := sampleLoadOne_sampled below max_pos sampled tup
    obtain ⟨samp', rest, sampled'⟩ := ih (seen ++ [tup]) samp₁ sampled₁
    refine ⟨samp', by rw [sampleLoadLoop, loads]; exact rest, ?_⟩
    rwa [append_assoc] at sampled'

theorem loadBatches_sampled (batches : List (List Tuple)) (seen : List Tuple)
    (samp : ReservoirSample Tuple) (sampled : Sampled maxSize seen samp) :
    ∃ samp', loadBatches draws batches samp = .ok samp' ∧
      Sampled maxSize (seen ++ batches.flatten) samp' := by
  induction batches generalizing seen samp with
  | nil => exact ⟨samp, rfl, by rwa [flatten_nil, append_nil]⟩
  | cons tups batches ih =>
    obtain ⟨samp₁, loads, sampled₁⟩ := sampleLoadLoop_sampled below max_pos tups seen samp sampled
    obtain ⟨samp', rest, sampled'⟩ := ih (seen ++ tups) samp₁ sampled₁
    refine ⟨samp', ?_, ?_⟩
    · rw [loadBatches, sampleLoad, if_neg (not_not.mpr sampled.building), loads]
      exact rest
    · rwa [append_assoc, ← flatten_cons] at sampled'

end

end Sampling

/-! ## Probabilities -/

noncomputable def uniformDraw : Measure (Set.Ico (0 : ℝ) 1) :=
  Measure.comap Subtype.val volume

/-- Independent numbers, each uniform from 0 inclusive to 1 exclusive. -/
noncomputable def uniformDraws : Measure (ℕ → Set.Ico (0 : ℝ) 1) :=
  Measure.infinitePi fun _ => uniformDraw

instance uniformDraw_isProbability : IsProbabilityMeasure uniformDraw := by
  refine ⟨?_⟩
  rw [uniformDraw, (MeasurableEmbedding.subtype_coe measurableSet_Ico).comap_apply,
    Set.image_univ, Subtype.range_coe, Real.volume_Ico]
  simp

instance uniformDraws_isProbability : IsProbabilityMeasure uniformDraws := by
  rw [uniformDraws]
  infer_instance

section Uniformity

variable {Tuple : Type}

def inSample (maxSize : Nat) (batches : List (List Tuple)) (tup : Tuple) :
    Set (ℕ → Set.Ico (0 : ℝ) 1) :=
  {draws | ∃ samp, loadBatches (fun i => (draws i : ℝ)) batches (sampleCreate maxSize) = .ok samp ∧
    tup ∈ samp.reservoir}

def SampleIsUniform (maxSize : Nat) (batches : List (List Tuple)) : Prop :=
  ∀ tup ∈ batches.flatten, uniformDraws (inSample maxSize batches tup) =
    ENNReal.ofReal (min 1 ((maxSize : ℝ) / (batches.flatten.length : ℝ)))

theorem loadBatches_from_create (maxSize : Nat) (max_pos : 0 < maxSize)
    (batches : List (List Tuple)) (draws : ℕ → Set.Ico (0 : ℝ) 1) :
    ∃ samp, loadBatches (fun i => (draws i : ℝ)) batches (sampleCreate maxSize) = .ok samp ∧
      Sampled maxSize batches.flatten samp :=
  loadBatches_sampled (fun i => (draws i).2.2) max_pos batches [] _ (sampled_create maxSize)

variable {maxSize : Nat} {batches : List (List Tuple)} {tup : Tuple}

theorem inSample_certain (max_pos : 0 < maxSize)
    (always : ∀ samp, Sampled maxSize batches.flatten samp → tup ∈ samp.reservoir) :
    uniformDraws (inSample maxSize batches tup) = 1 := by
  have certain : inSample maxSize batches tup = Set.univ := by
    refine Set.eq_univ_of_forall fun draws => ?_
    obtain ⟨samp, loads, sampled⟩ := loadBatches_from_create maxSize max_pos batches draws
    exact ⟨samp, loads, always samp sampled⟩
  rw [certain, measure_univ]

theorem inSample_of_last (max_pos : 0 < maxSize) (last : tup ∈ batches.flatten.getLast?) :
    uniformDraws (inSample maxSize batches tup) = 1 :=
  inSample_certain max_pos fun _ sampled => sampled.last tup last

theorem uniform_share_lt_one {n : Nat} (exceeds : maxSize < n) :
    ENNReal.ofReal (min 1 ((maxSize : ℝ) / (n : ℝ))) < 1 := by
  have n_pos : (0 : ℝ) < n := Nat.cast_pos.mpr (by omega)
  have below : (maxSize : ℝ) / (n : ℝ) < 1 := (div_lt_one n_pos).mpr (Nat.cast_lt.mpr exceeds)
  rw [← ENNReal.ofReal_one]
  exact (ENNReal.ofReal_lt_ofReal_iff zero_lt_one).mpr ((min_le_right _ _).trans_lt below)

theorem sample_uniform_iff_fits (maxSize : Nat) (max_pos : 0 < maxSize)
    (batches : List (List Tuple)) :
    SampleIsUniform maxSize batches ↔ batches.flatten.length ≤ maxSize := by
  constructor
  · intro uniform
    by_contra exceeds
    have nonempty : batches.flatten ≠ [] := by
      intro empty
      simp [empty] at exceeds
    have last : batches.flatten.getLast nonempty ∈ batches.flatten.getLast? := by
      rw [getLast?_eq_some_getLast nonempty, Option.mem_some_iff]
    have share := uniform _ (getLast_mem nonempty)
    rw [inSample_of_last max_pos last] at share
    exact absurd share.symm (uniform_share_lt_one (Nat.not_le.mp exceeds)).ne
  · intro fits tup member
    have n_pos : (0 : ℝ) < batches.flatten.length :=
      Nat.cast_pos.mpr (length_pos_of_mem member)
    have all : (1 : ℝ) ≤ (maxSize : ℝ) / (batches.flatten.length : ℝ) :=
      (one_le_div₀ n_pos).mpr (Nat.cast_le.mpr fits)
    rw [min_eq_left all, ENNReal.ofReal_one]
    exact inSample_certain max_pos fun _ sampled => sampled.whole fits ▸ member

theorem sample_uniform_iff_fits_two_of_three :
    SampleIsUniform 3 [["first"], ["second"]] ↔ 2 ≤ 3 :=
  sample_uniform_iff_fits 3 (by decide) [["first"], ["second"]]

/-- Of two tuples and a sample of one the second is always taken. -/
theorem second_of_two_always_sampled :
    uniformDraws (inSample 1 [["first", "second"]] "second") = 1 ∧
      ¬ SampleIsUniform 1 [["first", "second"]] := by
  have certain : uniformDraws (inSample 1 [["first", "second"]] "second") = 1 :=
    inSample_of_last Nat.one_pos (by decide)
  refine ⟨certain, ?_⟩
  intro uniform
  have share := uniform "second" (by decide)
  rw [certain] at share
  exact absurd share.symm (uniform_share_lt_one (show 1 < 2 by decide)).ne

end Uniformity

end TelegraphCQ.Shedding
