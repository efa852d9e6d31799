import TelegraphCQ.Shedding.Sample

/-!
# What a sample releases

The tuples that are loaded belong to the sample from then on: the buffer they come from does
not own them, so that clearing it releases none (`generic_load_ds`).  Here the numbers are
drawn from 0 to 1, both inclusive; the greatest one chooses the slot behind the last.
-/

namespace TelegraphCQ.Shedding

open Foundation List

section Releasing

abbrev Loading (Tuple : Type) := ReservoirSample Tuple × List Tuple

variable {Tuple Number : Type} [Field Number] [LinearOrder Number] [FloorSemiring Number]

def freedByLoad (draws : Nat → Number) (curTup : Tuple) (samp : ReservoirSample Tuple) :
    List Tuple :=
  if (draws samp.drawn : WithTop Number) ≤ probUseTup samp then
    if samp.curSampleSize < samp.maxSampleSize then []
    else
      (samp.reservoir[⌊(samp.curSampleSize : Number) * draws (samp.drawn + 1)⌋₊]?).toList
  else [curTup]

def sampleLoadFreeing (draws : Nat → Number) :
    List Tuple → Loading Tuple → Except SampleFault (Loading Tuple)
  | [], state => .ok state
  | tup :: tups, (samp, freed) => do
    let next ← sampleLoadOne draws tup samp
    sampleLoadFreeing draws tups (next, freed ++ freedByLoad draws tup samp)

/-- `generic_load_ds` for samples: the tuples are loaded and the buffer is cleared. -/
def genericLoadDs (ownTuples : Bool) (draws : Nat → Number) (buf : List Tuple)
    (state : Loading Tuple) : Except SampleFault (Loading Tuple) :=
  if state.1.curSampleItr ≠ -1 then .error .consuming
  else do
    let loaded ← sampleLoadFreeing draws buf state
    .ok (loaded.1, if ownTuples then loaded.2 ++ buf else loaded.2)

def sampleOwnTuples : Bool := false

def loadBuffers (draws : Nat → Number) :
    List (List Tuple) → Loading Tuple → Except SampleFault (Loading Tuple)
  | [], state => .ok state
  | buf :: bufs, state => do
    loadBuffers draws bufs (← genericLoadDs sampleOwnTuples draws buf state)

/-- The tuple at a position finds room, or the number drawn for its victim is not 1. -/
def FindsSlot (maxSize : Nat) (draws : Nat → Number) (k : Nat) : Prop :=
  k < maxSize ∨ 0 < maxSize ∧ draws (2 * k - maxSize + 1) ≠ 1

def Overruns (maxSize : Nat) (draws : Nat → Number) (n : Nat) : Prop :=
  ∃ k < n, ¬FindsSlot maxSize draws k

structure Accounted (maxSize : Nat) (draws : Nat → Number) (seen : List Tuple)
    (state : Loading Tuple) : Prop where
  maxSampleSize : state.1.maxSampleSize = maxSize
  building : state.1.curSampleItr = -1
  totSize : state.1.totSize = seen.length
  length : state.1.reservoir.length = min maxSize seen.length
  drawn : state.1.drawn = seen.length + (seen.length - maxSize)
  perm : (state.1.reservoir ++ state.2).Perm seen
  slots : ∀ k < seen.length, FindsSlot maxSize draws k

variable [IsStrictOrderedRing Number] {draws : Nat → Number} {maxSize : Nat} {seen : List Tuple}
  {samp : ReservoirSample Tuple} {state : Loading Tuple} {freed : List Tuple}

theorem perm_set_released {reservoir : List Tuple} {i : Nat}
    (inside : i < reservoir.length) (tup : Tuple) (freed : List Tuple) :
    (reservoir.set i tup ++ (freed ++ reservoir[i]?.toList)).Perm (reservoir ++ freed ++ [tup]) := by
  rw [getElem?_eq_getElem inside, Option.toList_some]
  calc reservoir.set i tup ++ (freed ++ [reservoir[i]])
      ~ tup :: reservoir.eraseIdx i ++ (freed ++ [reservoir[i]]) :=
        (set_perm_cons_eraseIdx inside tup).append_right _
    _ ~ [tup] ++ (reservoir[i] :: reservoir.eraseIdx i ++ freed) := by
        rw [← append_assoc, cons_append, singleton_append]
        exact (perm_append_singleton _ _).cons tup
    _ ~ [tup] ++ (reservoir ++ freed) :=
        ((getElem_cons_eraseIdx_perm inside).append_right freed).append_left _
    _ ~ reservoir ++ freed ++ [tup] := perm_append_comm

section

variable (below : ∀ i, draws i ≤ 1) {n : Nat}
include below

theorem Accounted.load (accounted : Accounted maxSize draws seen (samp, freed))
    (inside : seen.length < n) (tup : Tuple) :
    Ends (fun _ => Overruns maxSize draws n)
      (fun next => Accounted maxSize draws (seen ++ [tup])
        (next, freed ++ freedByLoad draws tup samp)) (sampleLoadOne draws tup samp) := by
  obtain ⟨sized, building, total, length, drawn, perm, slots⟩ := accounted
  dsimp only at *
  have size : samp.curSampleSize = min maxSize seen.length := length
  have used : (draws samp.drawn : WithTop Number) ≤ probUseTup samp :=
    (WithTop.coe_le_coe.mpr (below _)).trans (one_le_probUseTup (by omega))
  have grown : (seen ++ [tup]).length = seen.length + 1 := length_append
  have more (here : FindsSlot maxSize draws seen.length) (k : Nat)
      (before : k < (seen ++ [tup]).length) : FindsSlot maxSize draws k := by
    rcases (by omega : k < seen.length ∨ k = seen.length) with old | rfl
    exacts [slots k old, here]
  simp only [sampleLoadOne, freedByLoad, if_pos used, sized]
  by_cases room : samp.curSampleSize < maxSize
  · rw [if_pos room, if_pos room, append_nil]
    refine ⟨rfl, building, by rw [grown, total], ?_, ?_, ?_, more (.inl (by omega))⟩
    · rw [length_append, length, grown, length_singleton]
      omega
    · change samp.drawn + 1 = _
      omega
    · calc samp.reservoir ++ [tup] ++ freed ~ samp.reservoir ++ freed ++ [tup] := by
            simp only [append_assoc]
            exact perm_append_comm.append_left _
        _ ~ seen ++ [tup] := perm.append_right _
  · rw [if_neg room, if_neg room]
    have index : samp.drawn + 1 = 2 * seen.length - maxSize + 1 := by omega
    by_cases slot : FindsSlot maxSize draws seen.length
    · have drawnBelow : 0 < maxSize ∧ draws (samp.drawn + 1) ≠ 1 :=
        index ▸ slot.resolve_left (by omega)
      have within : ⌊(samp.curSampleSize : Number) * draws (samp.drawn + 1)⌋₊
          < samp.curSampleSize :=
        victim_within (by omega) (lt_of_le_of_ne (below _) drawnBelow.2)
      rw [if_neg (Nat.not_le.mpr within)]
      refine ⟨rfl, building, by rw [grown, total], ?_, ?_, ?_, more slot⟩
      · rw [length_set, length, grown]
        omega
      · change samp.drawn + 2 = _
        omega
      · exact (perm_set_released within tup freed).trans (perm.append_right _)
    · have behind : samp.curSampleSize ≤
          ⌊(samp.curSampleSize : Number) * draws (samp.drawn + 1)⌋₊ := by
        rcases Nat.eq_zero_or_pos maxSize with empty | positive
        · omega
        · have greatest : draws (samp.drawn + 1) = 1 := by
            by_contra other
            exact slot (.inr ⟨positive, index ▸ other⟩)
          rw [greatest, mul_one, Nat.floor_natCast]
      rw [if_pos behind]
      exact ⟨_, inside, slot⟩

theorem sampleLoadFreeing_ends (tups : List Tuple) (accounted : Accounted maxSize draws seen state)
    (few : (seen ++ tups).length ≤ n) :
    Ends (fun _ => Overruns maxSize draws n) (Accounted maxSize draws (seen ++ tups))
      (sampleLoadFreeing draws tups state) := by
  induction tups generalizing seen state with
  | nil => rwa [append_nil]
  | cons tup tups ih =>
    rw [append_cons] at few ⊢
    have inside : seen.length < n := by
      simp only [length_append, length_singleton] at few
      omega
    exact (accounted.load below inside tup).bind fun next loaded => ih loaded few

theorem genericLoadDs_ends (buf : List Tuple) (accounted : Accounted maxSize draws seen state)
    (few : (seen ++ buf).length ≤ n) :
    Ends (fun _ => Overruns maxSize draws n) (Accounted maxSize draws (seen ++ buf))
      (genericLoadDs sampleOwnTuples draws buf state) := by
  rw [genericLoadDs, if_neg (not_not.mpr accounted.building)]
  refine (sampleLoadFreeing_ends below buf accounted few).bind ?_
  exact fun _ loaded => loaded

theorem loadBuffers_ends (bufs : List (List Tuple)) (accounted : Accounted maxSize draws seen state)
    (few : (seen ++ bufs.flatten).length ≤ n) :
    Ends (fun _ => Overruns maxSize draws n) (Accounted maxSize draws (seen ++ bufs.flatten))
      (loadBuffers draws bufs state) := by
  induction bufs generalizing seen state with
  | nil => rwa [flatten_nil, append_nil]
  | cons buf bufs ih =>
    rw [flatten_cons, ← append_assoc] at few ⊢
    have first : (seen ++ buf).length ≤ n := by
      rw [length_append] at few
      omega
    exact (genericLoadDs_ends below buf accounted first).bind fun _ loaded =>
      ih loaded few

end

def randomNumbers (randMax : Nat) (rand : Nat → Nat) (i : Nat) : Number :=
  (rand i : Number) / (randMax : Number)

/-- A sample is filled without leaving it, and every tuple is in it or released once, if and
only if it has a slot at all and no victim is chosen by the greatest value. -/
theorem sample_accounted_iff (Number : Type) [Field Number] [LinearOrder Number]
    [FloorSemiring Number] [IsStrictOrderedRing Number] (maxSize randMax : Nat) (rand : Nat → Nat)
    (positive : 0 < randMax) (range : ∀ i, rand i ≤ randMax) (bufs : List (List Tuple)) :
    (∃ samp freed, loadBuffers (randomNumbers randMax rand : Nat → Number) bufs
        (sampleCreate maxSize, []) = .ok (samp, freed) ∧
      samp.reservoir.length = min maxSize bufs.flatten.length ∧
      (samp.reservoir ++ freed).Perm bufs.flatten) ↔
    ∀ k < bufs.flatten.length,
      k < maxSize ∨ 0 < maxSize ∧ rand (2 * k - maxSize + 1) ≠ randMax := by
  have scale : (0 : Number) < randMax := Nat.cast_pos.mpr positive
  have finds (k : Nat) : FindsSlot maxSize (randomNumbers randMax rand : Nat → Number) k ↔
      k < maxSize ∨ 0 < maxSize ∧ rand (2 * k - maxSize + 1) ≠ randMax := by
    rw [FindsSlot, randomNumbers, ne_eq, div_eq_one_iff_eq scale.ne', Nat.cast_inj]
  have below (i : Nat) : (randomNumbers randMax rand i : Number) ≤ 1 :=
    (div_le_one scale).mpr (Nat.cast_le.mpr (range i))
  have start : Accounted maxSize (randomNumbers randMax rand : Nat → Number) []
      ((sampleCreate maxSize, []) : Loading Tuple) :=
    ⟨rfl, rfl, rfl, by simp [sampleCreate], by simp [sampleCreate], .refl _, by simp⟩
  have ends := loadBuffers_ends below bufs start le_rfl
  simp only [← finds]
  rw [nil_append] at ends
  cases ran : loadBuffers (randomNumbers randMax rand : Nat → Number) bufs
      (sampleCreate maxSize, []) with
  | error fault =>
    rw [ran] at ends
    obtain ⟨k, inside, lost⟩ := ends
    exact iff_of_false (by simp) fun all => lost (all k inside)
  | ok state =>
    rw [ran] at ends
    exact iff_of_true ⟨_, _, rfl, ends.length, ends.perm⟩ ends.slots

end Releasing

theorem sample_accounted_iff_three :
    (∃ samp freed, loadBuffers (randomNumbers 7 (fun _ => 6) : Nat → ℚ) [["first", "second"], ["third"]]
        (sampleCreate 2, []) = .ok (samp, freed) ∧ samp.reservoir.length = 2 ∧
      (samp.reservoir ++ freed).Perm ["first", "second", "third"]) ↔
    ∀ k < 3, k < 2 ∨ 0 < 2 ∧ 6 ≠ 7 :=
  sample_accounted_iff ℚ 2 7 (fun _ => 6) (by decide) (fun _ => by decide)
    [["first", "second"], ["third"]]

/-- The greatest value of `rand` releases and overwrites what is behind the sample. -/
theorem greatest_value_overruns :
    loadBuffers (randomNumbers 7 (fun _ => 7) : Nat → ℚ) [["first", "second"]]
      (sampleCreate 1, []) = .error (.victimOutOfBounds 1) := by
  decide +kernel

end TelegraphCQ.Shedding
