import TelegraphCQ.Shedding.WaveletQueue

/-!
# The coefficients in turn

The recursions over the corners of a block go through the list of corners.  So the decomposition
offers the coefficients of the blocks at the corners, one block after the other, and then the
signed sums of their averages; the one that only averages is left out unless the block is the
whole array.
-/

namespace TelegraphCQ.Shedding

open Foundation List Function

/-! ## The recursions go through the corners -/

theorem drecur_eq (m l : Nat) (ndx : List Nat) (t : Mda) (k : Nat) (tndx : List Nat) (coefs : Pq) :
    drecur m l ndx t k tndx coefs =
      (corners k).foldl (fun coefs corner => drecurAt m l ndx t (tndx ++ corner) coefs) coefs := by
  induction k generalizing tndx coefs with
  | zero => simp [drecur, corners]
  | succ k ih =>
    rw [drecur, ih, ih, corners, foldl_append, foldl_map, foldl_map]
    simp

theorem trecur_eq (array : Mda) (andx : List Nat) (k : Nat) (bndx : List Nat) (b : Mda) :
    trecur array andx k bndx b = (corners k).foldl (fun b corner => b.set (bndx ++ corner)
        (tsubrecur array [] (andx.zip (bndx ++ corner)) 1 0 / 2 ^ array.d)) b := by
  induction k generalizing bndx b with
  | zero => simp [trecur, corners]
  | succ k ih =>
    rw [trecur, ih, ih, corners, foldl_append, foldl_map, foldl_map]
    simp

theorem tsubrecur_eq (array : Mda) (d : Nat) (andx e : List Nat) (same : e.length = d) (s v : ℚ) :
    tsubrecur array andx ((List.replicate d 0).zip e) s v =
      v + s * cornerSum d fun corner => walsh e corner * array.get (andx ++ corner) := by
  induction d generalizing andx e s v with
  | zero => simp [tsubrecur, cornerSum, corners, walsh]
  | succ d ih =>
    cases e with
    | nil => cases same
    | cons b e =>
      rw [replicate_succ, zip_cons_cons, tsubrecur, ih _ e (Nat.succ.inj same),
        ih _ e (Nat.succ.inj same), cornerSum_succ]
      simp only [walsh, append_assoc, singleton_append, Nat.zero_add]
      by_cases odd : b = 1
      · simp only [walshSign, odd, if_true, and_true, zero_ne_one, and_false, if_false,
          mul_assoc, cornerSum_mul]
        ring
      · simp only [walshSign, odd, if_false, false_and, mul_assoc, cornerSum_mul]
        ring

theorem crecur_eq (compute : List Nat → Pq → ℚ × Pq) (half : Nat) (ndx rest : List Nat)
    (state : CornerState) : crecur compute half ndx rest state =
      ((corners rest.length).map fun corner => ndx ++ child half rest corner).foldl
        (fun state origin => crecur compute half origin [] state) state := by
  induction rest generalizing ndx state with
  | nil => simp [corners, child]
  | cons orig rest ih =>
    rw [crecur, ih, ih, length_cons, corners, map_append, foldl_append, map_map, map_map]
    simp [comp_def, child]

/-! ## The values at the corners -/

theorem foldl_crecur {compute : List Nat → Pq → ℚ × Pq} {average : List Nat → ℚ}
    {wcs : List Nat → List Wc} (half : Nat) (origins : List (List Nat))
    (computed : ∀ origin ∈ origins, ∀ coefs,
      compute origin coefs = (average origin, (wcs origin).foldl offer coefs))
    (state : CornerState) :
    let final := origins.foldl (fun state origin => crecur compute half origin [] state) state
    final.coefs = (origins.flatMap wcs).foldl offer state.coefs ∧
      final.t.d = state.t.d ∧ final.t.m = state.t.m ∧ (∀ j < state.ti, final.t.a j = state.t.a j) ∧
      ∀ k origin, origins[k]? = some origin → final.t.a (state.ti + k) = average origin := by
  induction origins generalizing state with
  | nil => simp
  | cons origin origins ih =>
    have here : crecur compute half origin [] state = ⟨(wcs origin).foldl offer state.coefs,
          { state.t with a := update state.t.a state.ti (average origin) }, state.ti + 1⟩ := by
      rw [crecur, computed origin (by simp)]
    obtain ⟨coefs, d_eq, m_eq, before, after⟩ :=
      ih (fun other member => computed other (by simp [member]))
        (crecur compute half origin [] state)
    rw [foldl_cons, flatMap_cons, foldl_append]
    rw [here] at coefs d_eq m_eq before after ⊢
    refine ⟨coefs, d_eq, m_eq, ?_, ?_⟩
    · intro j j_lt
      rw [before j (Nat.lt_succ_of_lt j_lt)]
      exact update_of_ne (by omega) _ _
    · intro k other at_k
      cases k with
      | zero =>
        obtain rfl : origin = other := by simpa using at_k
        exact (before state.ti (Nat.lt_succ_self _)).trans (update_self _ _ _)
      | succ k =>
        rw [← after k other (by simpa using at_k)]
        congr 1
        change state.ti + (k + 1) = state.ti + 1 + k
        omega

theorem get_foldl_set {d : Nat} {value : List Nat → ℚ} {corner : List Nat}
    (member : corner ∈ corners d) (items : List (List Nat)) (inside : ∀ item ∈ items, item ∈ corners d)
    (b : Mda) (m_eq : b.m = 1) (there : corner ∈ items ∨ b.get corner = value corner) :
    (items.foldl (fun b item => b.set item (value item)) b).get corner = value corner := by
  induction items generalizing b with
  | nil =>
    rcases there with absent | set_before
    · cases absent
    · exact set_before
  | cons item items ih =>
    rw [foldl_cons]
    apply ih (fun other later => inside other (by simp [later])) (b.set item (value item)) m_eq
    by_cases here : item = corner
    · right
      rw [here]
      exact update_self _ _ _
    · have elsewhere : flat (2 ^ b.m) corner ≠ flat (2 ^ b.m) item := by
        rw [m_eq]
        exact fun same => here (flat_corner_injective member (inside item (by simp)) same).symm
      rcases there with listed | set_before
      · rcases mem_cons.mp listed with first | later
        · exact absurd first.symm here
        · exact Or.inl later
      · right
        rw [← set_before]
        exact update_of_ne elsewhere _ _

theorem get_trans (t : Mda) {e : List Nat} (member : e ∈ corners t.d) :
    (trans t).get e = transform t.d t.get e / 2 ^ t.d := by
  have values : ∀ item ∈ corners t.d,
      tsubrecur t [] ((List.replicate t.d 0).zip item) 1 0 = transform t.d t.get item := by
    intro item inside
    rw [tsubrecur_eq t t.d [] item (length_of_mem_corners inside), zero_add, one_mul]
    rfl
  rw [trans, transhelper, trecur_eq]
  refine (@get_foldl_set t.d (fun corner => tsubrecur t [] ((List.replicate t.d 0).zip corner) 1 0 /
    2 ^ t.d) e member (corners t.d) (fun item inside => inside) _ rfl (Or.inl member)).trans ?_
  rw [values e member]

/-! ## The decomposition -/

def average (array : Mda) : Nat → List Nat → ℚ
  | 0, ndx => array.get ndx
  | levels + 1, ndx =>
    cornerSum array.d (fun corner => average array levels (child (2 ^ levels) ndx corner)) /
      2 ^ array.d

def stored (m l : Nat) (ndx tndx : List Nat) (v : ℚ) : List Wc :=
  if 0 < l ∧ tndx.all (· == 0) = true then [] else [makeWc m l ndx tndx v]

def signedSum (array : Mda) (levels : Nat) (ndx e : List Nat) : ℚ :=
  transform array.d (fun corner => average array levels (child (2 ^ levels) ndx corner)) e /
    2 ^ array.d

def coefficients (array : Mda) : Nat → List Nat → List Wc
  | 0, _ => []
  | levels + 1, ndx =>
    (corners array.d).flatMap (fun corner =>
        coefficients array levels (child (2 ^ levels) ndx corner)) ++
      (corners array.d).flatMap fun e =>
        stored array.m (array.m - (levels + 1)) ndx e (signedSum array levels ndx e)

section Levels

variable {array : Mda} {levels : Nat} {ndx : List Nat}

def blockValues (array : Mda) (levels : Nat) (ndx : List Nat) (coefs : Pq) : CornerState :=
  crecur (computeLevels array levels) (2 ^ levels) [] ndx ⟨coefs, Mda.init array.d 1, 0⟩

theorem computeLevels_succ (below : levels < array.m) (coefs : Pq) :
    computeLevels array (levels + 1) ndx coefs =
      ((trans (blockValues array levels ndx coefs).t).a 0,
        drecur array.m (array.m - (levels + 1)) ndx (trans (blockValues array levels ndx coefs).t)
          array.d [] (blockValues array levels ndx coefs).coefs) := by
  have halved : array.m - (array.m - (levels + 1)) - 1 = levels := by omega
  rw [computeLevels, blockValues]
  simp [halved]

theorem drecurAt_eq (m l : Nat) (ndx tndx : List Nat) (t : Mda) (coefs : Pq) :
    drecurAt m l ndx t tndx coefs = (stored m l ndx tndx (t.get tndx)).foldl offer coefs := by
  rw [drecurAt, stored]
  by_cases replaced : 0 < l ∧ tndx.all (· == 0) = true
  · rw [if_pos replaced, if_pos replaced, foldl_nil]
  · rw [if_neg replaced, if_neg replaced]
    rfl

theorem blockValues_spec
    (computed : ∀ origin coefs, origin.length = array.d → computeLevels array levels origin coefs =
      (average array levels origin, (coefficients array levels origin).foldl offer coefs))
    (length_eq : ndx.length = array.d) (coefs : Pq) :
    (blockValues array levels ndx coefs).coefs = ((corners array.d).flatMap fun corner =>
        coefficients array levels (child (2 ^ levels) ndx corner)).foldl offer coefs ∧
      (blockValues array levels ndx coefs).t.d = array.d ∧
      ∀ corner ∈ corners array.d, (blockValues array levels ndx coefs).t.get corner =
        average array levels (child (2 ^ levels) ndx corner) := by
  have visited := foldl_crecur (2 ^ levels)
    ((corners ndx.length).map fun corner => [] ++ child (2 ^ levels) ndx corner)
    (by
      intro origin member coefs
      obtain ⟨corner, inside, rfl⟩ := mem_map.mp member
      apply computed
      rw [nil_append, length_child (length_of_mem_corners inside), length_eq])
    ⟨coefs, Mda.init array.d 1, 0⟩
  rw [← crecur_eq] at visited
  obtain ⟨coefs_eq, d_eq, m_eq, -, averages⟩ := visited
  refine ⟨?_, d_eq, ?_⟩
  · rw [blockValues, coefs_eq, length_eq, flatMap_map]
    rfl
  · intro corner member
    have place := averages (flat 2 corner) (child (2 ^ levels) ndx corner) (by
      rw [getElem?_map, length_eq, corners_flat member]
      rfl)
    rw [Nat.zero_add] at place
    rw [blockValues, Mda.get, m_eq]
    exact place

theorem computeLevels_eq (within : levels ≤ array.m) (length_eq : ndx.length = array.d)
    (coefs : Pq) : computeLevels array levels ndx coefs =
      (average array levels ndx, (coefficients array levels ndx).foldl offer coefs) := by
  induction levels generalizing ndx coefs with
  | zero => rfl
  | succ levels ih =>
    obtain ⟨coefs_eq, d_eq, values⟩ := blockValues_spec
      (fun origin coefs same => ih (by omega) same coefs) length_eq coefs
    have sums : ∀ e ∈ corners array.d, (trans (blockValues array levels ndx coefs).t).get e =
        signedSum array levels ndx e := by
      intro e member
      rw [get_trans _ (by rw [d_eq]; exact member), d_eq, signedSum, transform, transform,
        cornerSum_congr fun corner inside => by rw [values corner inside]]
    rw [computeLevels_succ (by omega)]
    refine Prod.ext ?_ ?_
    · have first := sums _ (zeros_mem_corners array.d)
      rw [Mda.get, flat_zeros] at first
      refine first.trans ?_
      rw [signedSum, transform, average]
      congr 1
      exact cornerSum_congr fun corner _ => by rw [walsh_zeros, one_mul]
    · change drecur _ _ _ _ _ _ _ = _
      rw [drecur_eq, coefficients, foldl_append, ← coefs_eq, foldl_flatMap]
      refine foldl_ext _ _ _ fun coefs e member => ?_
      rw [drecurAt_eq, nil_append, sums e member]

end Levels

/-- The coefficients are offered in turn.  At each time the queue is a heap of the greatest of the
nonzero ones, as many as the limit allows. -/
theorem greatest_coefficients_kept (array : Mda) (maxCount : Nat) (positive : 0 < maxCount) :
    (compute array (List.replicate array.d 0) (pqInit maxCount) 0).2 =
        (coefficients array array.m (List.replicate array.d 0)).foldl offer (pqInit maxCount) ∧
      ∀ n, (((coefficients array array.m (List.replicate array.d 0)).take n).foldl offer
        (pqInit maxCount)).Keeps maxCount
        (((coefficients array array.m (List.replicate array.d 0)).take n).filter (·.v ≠ 0)) := by
  constructor
  · rw [compute, Nat.sub_zero, computeLevels_eq (le_refl _) length_replicate]
  · intro n
    have keeps := (keeps_init maxCount).foldl_offer positive
      ((coefficients array array.m (List.replicate array.d 0)).take n)
    rwa [add_zero] at keeps

def twoFrequencies : Mda := ⟨1, 1, fun j => [5, 1].getD j 0⟩

theorem greatest_coefficients_kept_two :
    (compute twoFrequencies [0] (pqInit 1) 0).2 =
      (coefficients twoFrequencies 1 [0]).foldl offer (pqInit 1) :=
  (greatest_coefficients_kept twoFrequencies 1 Nat.one_pos).1

end TelegraphCQ.Shedding
