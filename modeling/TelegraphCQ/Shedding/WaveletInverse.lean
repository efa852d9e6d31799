import Mathlib.Algebra.Order.BigOperators.Group.List
import Mathlib.Tactic.FieldSimp
import TelegraphCQ.Shedding.WaveletCoefs

/-!
# Wavelet summaries can be undone

What the coefficients of a block add to one of its cells is the entry of the cell less the
average of the block, and the average is undone by the signed sums one level up; the whole array
has a coefficient for its average, too.
-/

namespace TelegraphCQ.Shedding

open Foundation List Function

/-! ## Coefficients at a cell -/

theorem contains_iff_inBlock (m l : Nat) (ndx tndx cell : List Nat)
    (corner_length : tndx.length = ndx.length) (cell_length : cell.length = ndx.length) :
    (List.zipWith Dn.contains (List.zipWith (makeDn m l) ndx tndx) cell).all id = true ↔
      InBlock (2 ^ (m - l)) ndx cell := by
  induction ndx generalizing tndx cell with
  | nil =>
    rw [length_eq_zero_iff.mp cell_length]
    simp [InBlock]
  | cons o ndx ih =>
    obtain ⟨e, tndx, rfl⟩ := exists_cons_of_length_eq_add_one corner_length
    obtain ⟨x, cell, rfl⟩ := exists_cons_of_length_eq_add_one cell_length
    have positive : 0 < 2 ^ (m - l) := Nat.two_pow_pos _
    simp only [zipWith_cons_cons, all_cons, id_eq, Bool.and_eq_true, inBlock_cons,
      ih tndx cell (Nat.succ.inj corner_length) (Nat.succ.inj cell_length), Dn.contains, makeDn,
      decide_eq_true_eq]
    refine and_congr_left fun _ => ?_
    omega

theorem signs_eq_walsh (m l : Nat) (ndx tndx cell : List Nat)
    (is_corner : tndx ∈ corners ndx.length) (inside : InBlock (2 ^ (m - l)) ndx cell) :
    (((List.zipWith Dn.signAt (List.zipWith (makeDn m l) ndx tndx) cell).prod : Int) : ℚ) =
      walsh tndx (cornerOf (2 ^ (m - l - 1)) ndx cell) := by
  induction ndx generalizing tndx cell with
  | nil =>
    rw [mem_singleton.mp is_corner]
    simp [walsh]
  | cons o ndx ih =>
    cases cell with
    | nil => cases inside
    | cons x cell =>
      obtain ⟨e, tndx, is_bit, is_rest, rfl⟩ := mem_corners_succ.mp is_corner
      obtain ⟨⟨low, -⟩, insideRest⟩ := inBlock_cons.mp inside
      have rest := ih tndx cell is_rest insideRest
      simp only [cornerOf, zipWith_cons_cons, prod_cons, Int.cast_mul, walsh]
      rw [rest, cornerOf]
      congr 1
      rcases is_bit with rfl | rfl
      · simp [Dn.signAt, makeDn, walshSign, Nat.not_lt.mpr low]
      · by_cases first : x < o + 2 ^ (m - l - 1) <;>
          simp [Dn.signAt, makeDn, walshSign, first]

theorem valueAt_makeWc (m l : Nat) (ndx tndx cell : List Nat) (v : ℚ)
    (is_corner : tndx ∈ corners ndx.length) (cell_length : cell.length = ndx.length) :
    (makeWc m l ndx tndx v).valueAt cell = if InBlock (2 ^ (m - l)) ndx cell then
        walsh tndx (cornerOf (2 ^ (m - l - 1)) ndx cell) * v
      else 0 := by
  have support := contains_iff_inBlock m l ndx tndx cell (length_of_mem_corners is_corner)
    cell_length
  rw [Wc.valueAt]
  by_cases inside : InBlock (2 ^ (m - l)) ndx cell
  · rw [if_pos inside, if_pos ⟨rfl, support.mpr inside⟩, makeWc,
      signs_eq_walsh m l ndx tndx cell is_corner inside]
  · rw [if_neg inside, if_neg fun both => inside (support.mp both.2)]

def valueOf (wcs : List Wc) (cell : List Nat) : ℚ := (wcs.map (Wc.valueAt · cell)).sum

theorem valueOf_flatMap (d : Nat) (wcs : List Nat → List Wc) (cell : List Nat) :
    valueOf ((corners d).flatMap wcs) cell = cornerSum d fun e => valueOf (wcs e) cell := by
  simp [valueOf, cornerSum, flatMap, comp_def]

theorem valueOf_stored (m l : Nat) (ndx tndx : List Nat) (v : ℚ) (cell : List Nat) :
    valueOf (stored m l ndx tndx v) cell =
      if 0 < l ∧ tndx.all (· == 0) = true then 0 else (makeWc m l ndx tndx v).valueAt cell := by
  rw [stored]
  split_ifs
  · rfl
  · exact sum_singleton

theorem sum_stored (m l : Nat) {ndx cell : List Nat} (f : List Nat → ℚ)
    (cell_length : cell.length = ndx.length) : (cornerSum ndx.length fun e =>
        valueOf (stored m l ndx e (transform ndx.length f e / 2 ^ ndx.length)) cell) =
      if InBlock (2 ^ (m - l)) ndx cell then
        f (cornerOf (2 ^ (m - l - 1)) ndx cell) -
          (if 0 < l then cornerSum ndx.length f / 2 ^ ndx.length else 0)
      else 0 := by
  simp only [valueOf_stored]
  by_cases inside : InBlock (2 ^ (m - l)) ndx cell
  · rw [if_pos inside, ← add_right_cancel_iff, sub_add_cancel,
      ← cornerSum_zeros ndx.length (if 0 < l then cornerSum ndx.length f / 2 ^ ndx.length else 0),
      ← cornerSum_add]
    -- with the average that is left out, these are the signed sums of the signed sums
    have undone := transform_transform ndx.length f
      (@cornerOf_mem (2 ^ (m - l - 1)) ndx cell cell_length.symm)
    have scaled : f (cornerOf (2 ^ (m - l - 1)) ndx cell) =
        cornerSum ndx.length fun e => (1 / 2 ^ ndx.length) *
          (walsh e (cornerOf (2 ^ (m - l - 1)) ndx cell) * transform ndx.length f e) := by
      rw [cornerSum_mul, undone]
      field_simp
    rw [scaled]
    apply cornerSum_congr
    intro e member
    rw [valueAt_makeWc m l ndx e cell _ member cell_length, if_pos inside]
    by_cases zero : e.all (· == 0) = true
    · have e_eq : e = List.replicate ndx.length 0 := by
        rw [← length_of_mem_corners member]
        exact eq_zeros zero
      have sum_eq : transform ndx.length f e = cornerSum ndx.length f := by
        rw [transform, e_eq]
        exact cornerSum_congr fun corner _ => by rw [walsh_zeros, one_mul]
      by_cases deeper : 0 < l
      · simp only [deeper, zero, and_self, if_true, sum_eq]
        rw [e_eq, walsh_zeros]
        ring
      · simp only [deeper, zero, false_and, if_false, if_true]
        ring
    · simp [zero]
      ring
  · rw [if_neg inside]
    refine (cornerSum_congr ?_).trans (cornerSum_zero ndx.length)
    intro e member
    rw [valueAt_makeWc m l ndx e cell _ member cell_length, if_neg inside, ite_self]

/-! ## Blocks -/

section Levels

variable {array : Mda} {levels : Nat} {ndx cell : List Nat}

def blockAmount (array : Mda) (levels : Nat) (ndx cell : List Nat) : ℚ :=
  if InBlock (2 ^ levels) ndx cell then array.get cell - average array levels ndx else 0

theorem valueOf_block (below : levels < array.m) (length_eq : ndx.length = array.d)
    (cell_length : cell.length = array.d) (children : ∀ origin, origin.length = array.d →
      valueOf (coefficients array levels origin) cell = blockAmount array levels origin cell) :
    valueOf (coefficients array (levels + 1) ndx) cell = if InBlock (2 ^ (levels + 1)) ndx cell then
        array.get cell - (if levels + 1 < array.m then average array (levels + 1) ndx else 0)
      else 0 := by
  have same_length : cell.length = ndx.length := by rw [cell_length, length_eq]
  have own := sum_stored array.m (array.m - (levels + 1))
    (fun corner => average array levels (child (2 ^ levels) ndx corner)) same_length
  have summed := cornerSum_child (2 ^ levels) ndx cell same_length.symm
    fun corner => array.get cell - average array levels (child (2 ^ levels) ndx corner)
  have exponent : array.m - (array.m - (levels + 1)) = levels + 1 := by omega
  have doubled : 2 * 2 ^ levels = 2 ^ (levels + 1) := by ring
  rw [length_eq] at own summed
  rw [coefficients, valueOf, map_append, sum_append]
  change valueOf _ cell + valueOf _ cell = _
  rw [valueOf_flatMap, valueOf_flatMap]
  simp only [signedSum]
  rw [own, cornerSum_congr fun corner member => children _ (by
    rw [length_child (by rw [length_of_mem_corners member, length_eq]), length_eq])]
  simp only [blockAmount, summed, exponent, Nat.add_sub_cancel, doubled]
  by_cases inside : InBlock (2 ^ (levels + 1)) ndx cell
  · rw [if_pos inside, if_pos inside, if_pos inside, average]
    by_cases deeper : levels + 1 < array.m
    · rw [if_pos deeper, if_pos (by omega)]
      ring
    · rw [if_neg deeper, if_neg (by omega)]
      ring
  · rw [if_neg inside, if_neg inside, if_neg inside, add_zero]

theorem valueOf_coefficients (below : levels < array.m) (length_eq : ndx.length = array.d)
    (cell_length : cell.length = array.d) :
    valueOf (coefficients array levels ndx) cell = blockAmount array levels ndx cell := by
  induction levels generalizing ndx with
  | zero =>
    rw [blockAmount]
    split_ifs with inside
    · rw [eq_of_inBlock_one inside, average, sub_self]
      rfl
    · rfl
  | succ levels ih =>
    rw [valueOf_block (Nat.lt_of_succ_lt below) length_eq cell_length
      fun origin same => ih (Nat.lt_of_succ_lt below) same, if_pos below]
    rfl

end Levels

/-! ## The queue while there is room -/

theorem render_eq {pq : Pq} {kept : Multiset Wc} (holds : pq.Holds kept) (cell : List Nat) :
    render pq cell = (kept.map (Wc.valueAt · cell)).sum := by
  have nodes := congrArg (fun nodes => (nodes.map (nodeValueAt cell)).sum) holds.coe_nodeList
  simp only [Multiset.map_map, Multiset.map_coe, Multiset.sum_coe, Pq.nodeList, map_map] at nodes
  exact nodes

theorem offer_none (wc : Wc) : offer (pqInit 0) wc = pqInit 0 := by
  simp [offer, wcsAdd, pqAdd, pqInit, pqRemoveMin, pqGetMin]

theorem valueOf_nonzero (wcs : List Wc) (cell : List Nat) :
    valueOf (wcs.filter fun wc => wc.v ≠ 0) cell = valueOf wcs cell := by
  induction wcs with
  | nil => rfl
  | cons wc wcs ih =>
    by_cases zero : wc.v = 0
    · have nothing : wc.valueAt cell = 0 := by simp [Wc.valueAt, zero]
      rw [filter_cons_of_neg (by simpa using zero), ih]
      simp [valueOf, nothing]
    · rw [filter_cons_of_pos (by simpa using zero)]
      simp only [valueOf, map_cons, sum_cons] at ih ⊢
      rw [ih]

theorem render_foldl_offer {maxCount : Nat} {wcs : List Wc}
    (limit : pqIsFull (wcs.foldl offer (pqInit maxCount)) = false) (cell : List Nat) :
    render (wcs.foldl offer (pqInit maxCount)) cell = valueOf wcs cell := by
  rcases Nat.eq_zero_or_pos maxCount with rfl | positive
  · rw [foldl_fixed' offer_none] at limit
    cases limit
  · obtain ⟨kept, dropped, ⟨holds, isLimit, card_eq, together⟩, -⟩ :=
      (keeps_init maxCount).foldl_offer positive wcs
    have room : kept.card ≠ maxCount := by
      rw [← holds.count_eq]
      simpa [pqIsFull, isLimit] using limit
    rw [together, Multiset.card_add] at card_eq
    rw [Multiset.card_eq_zero.mp (show dropped.card = 0 by omega), add_zero, add_zero] at together
    rw [render_eq holds, ← together, Multiset.map_coe, Multiset.sum_coe]
    exact valueOf_nonzero wcs cell

theorem inBlock_zeros {side : Nat} {cell : List Nat} (inside : ∀ x ∈ cell, x < side) :
    InBlock side (List.replicate cell.length 0) cell := by
  induction cell with
  | nil => exact List.Forall₂.nil
  | cons x cell ih =>
    refine inBlock_cons.mpr ⟨⟨Nat.zero_le x, ?_⟩, ih fun y member => inside y (by simp [member])⟩
    rw [Nat.zero_add]
    exact inside x (by simp)

/-- The sum of the coefficients at each cell is the entry of the array, provided that the array
has more than one cell and the limit of the coefficients is not reached. -/
theorem wavelet_rendered (array : Mda) (m_pos : 0 < array.m) (maxCount : Nat)
    (limit : pqIsFull (compute array (List.replicate array.d 0) (pqInit maxCount) 0).2 = false)
    (cell : List Nat) (cell_length : cell.length = array.d) (within : ∀ x ∈ cell, x < 2 ^ array.m) :
    render (compute array (List.replicate array.d 0) (pqInit maxCount) 0).2 cell =
      array.get cell := by
  obtain ⟨levels, m_eq⟩ : ∃ levels, array.m = levels + 1 := ⟨array.m - 1, by omega⟩
  have length_eq : (List.replicate array.d 0).length = array.d := length_replicate
  have inside : InBlock (2 ^ (levels + 1)) (List.replicate array.d 0) cell := by
    rw [← cell_length]
    exact inBlock_zeros fun x member => m_eq ▸ within x member
  rw [compute, Nat.sub_zero, computeLevels_eq (le_refl _) length_eq] at limit ⊢
  have below : levels < array.m := by omega
  rw [render_foldl_offer limit, m_eq, valueOf_block below length_eq cell_length
    fun origin same => valueOf_coefficients below same cell_length, if_pos inside,
    if_neg (by omega), sub_zero]

/-- Two columns with two values each; no tuple has the second value in both. -/
def fourFrequencies : Mda := ⟨2, 1, fun j => [5, 1, 2, 0].getD j 0⟩

theorem wavelet_rendered_four :
    render (compute fourFrequencies [0, 0] (pqInit 10) 0).2 [1, 0] = fourFrequencies.get [1, 0] :=
  wavelet_rendered fourFrequencies (by decide) 10 (by decide +kernel) [1, 0] rfl (by decide)

/-- With the resolution 0 there is one cell, and nothing is stored of it. -/
theorem single_cell_not_rendered :
    pqIsFull (compute ⟨1, 0, fun _ => 3⟩ [0] (pqInit 10) 0).2 = false ∧
      render (compute ⟨1, 0, fun _ => 3⟩ [0] (pqInit 10) 0).2 [0] = 0 ∧
      (⟨1, 0, fun _ => 3⟩ : Mda).get [0] = 3 :=
  ⟨rfl, rfl, rfl⟩

end TelegraphCQ.Shedding
