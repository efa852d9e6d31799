import Mathlib

/-!
# Weights that are spread evenly over boxes of integer points

A box has bounds along each dimension, both inclusive.  A weight spread over it gives the
same share to each of its points.  Cutting a box, and leaving out a dimension of it, keep the
shares when the weight is divided by the numbers of points.
-/

namespace TelegraphCQ.Foundation

open Function

structure Box (dims : Nat) where
  low : Fin dims → Int
  high : Fin dims → Int

namespace Box

variable {dims : Nat}

def Covers (box : Box dims) (point : Fin dims → Int) : Prop :=
  ∀ dim, box.low dim ≤ point dim ∧ point dim ≤ box.high dim

instance (box : Box dims) (point : Fin dims → Int) : Decidable (box.Covers point) :=
  inferInstanceAs (Decidable (∀ _, _))

def Proper (box : Box dims) : Prop := ∀ dim, box.low dim ≤ box.high dim

def extent (box : Box dims) (dim : Fin dims) : ℚ := ((box.high dim - box.low dim + 1 : Int) : ℚ)

def size (box : Box dims) : ℚ := ∏ dim, box.extent dim

def share (box : Box dims) (weight : ℚ) (point : Fin dims → Int) : ℚ :=
  if box.Covers point then weight / box.size else 0

variable {box part : Box dims} {dim other : Fin dims} {top bottom : Int} {point : Fin dims → Int}

theorem extent_pos (proper : box.Proper) (dim : Fin dims) : 0 < box.extent dim := by
  have le := proper dim
  have pos : 0 < box.high dim - box.low dim + 1 := by omega
  exact Int.cast_pos.mpr pos

theorem size_eq (box : Box dims) (dim : Fin dims) :
    box.size = box.extent dim * ∏ other ∈ Finset.univ.erase dim, box.extent other :=
  (Finset.mul_prod_erase _ _ (Finset.mem_univ dim)).symm

theorem share_add (box : Box dims) (first second : ℚ) (point : Fin dims → Int) :
    box.share (first + second) point = box.share first point + box.share second point := by
  unfold share
  split_ifs
  · exact add_div _ _ _
  · exact (add_zero 0).symm

/-! ## Cutting -/

def below (box : Box dims) (dim : Fin dims) (top : Int) : Box dims :=
  { box with high := update box.high dim top }

def above (box : Box dims) (dim : Fin dims) (bottom : Int) : Box dims :=
  { box with low := update box.low dim bottom }

theorem covers_below (le : top ≤ box.high dim) (point : Fin dims → Int) :
    (box.below dim top).Covers point ↔ box.Covers point ∧ point dim ≤ top := by
  constructor
  · intro covers
    have here : point dim ≤ top := by simpa [below] using (covers dim).2
    refine ⟨fun other => ⟨(covers other).1, ?_⟩, here⟩
    by_cases same : other = dim
    · exact same ▸ here.trans le
    · simpa [below, update_of_ne same] using (covers other).2
  · rintro ⟨covers, here⟩ other
    refine ⟨(covers other).1, ?_⟩
    by_cases same : other = dim
    · subst same
      simpa [below] using here
    · simpa [below, update_of_ne same] using (covers other).2

theorem covers_above (le : box.low dim ≤ bottom) (point : Fin dims → Int) :
    (box.above dim bottom).Covers point ↔ box.Covers point ∧ bottom ≤ point dim := by
  constructor
  · intro covers
    have here : bottom ≤ point dim := by simpa [above] using (covers dim).1
    refine ⟨fun other => ⟨?_, (covers other).2⟩, here⟩
    by_cases same : other = dim
    · exact same ▸ le.trans here
    · simpa [above, update_of_ne same] using (covers other).1
  · rintro ⟨covers, here⟩ other
    refine ⟨?_, (covers other).2⟩
    by_cases same : other = dim
    · subst same
      simpa [above] using here
    · simpa [above, update_of_ne same] using (covers other).1

theorem size_of_extent (others : ∀ other, other ≠ dim → part.extent other = box.extent other) :
    part.size * box.extent dim = part.extent dim * box.size := by
  have rest : ∏ other ∈ Finset.univ.erase dim, part.extent other =
      ∏ other ∈ Finset.univ.erase dim, box.extent other :=
    Finset.prod_congr rfl fun other mem => others other (Finset.ne_of_mem_erase mem)
  rw [part.size_eq dim, box.size_eq dim, rest]
  ring

theorem extent_below_of_ne (ne : other ≠ dim) :
    (box.below dim top).extent other = box.extent other := by
  simp [extent, below, update_of_ne ne]

theorem extent_above_of_ne (ne : other ≠ dim) :
    (box.above dim bottom).extent other = box.extent other := by
  simp [extent, above, update_of_ne ne]

section

variable (proper : box.Proper)
include proper

theorem size_pos : 0 < box.size := Finset.prod_pos fun dim _ => box.extent_pos proper dim

theorem share_part (part_proper : part.Proper)
    (others : ∀ other, other ≠ dim → part.extent other = box.extent other) (weight : ℚ) :
    weight * (part.extent dim / box.extent dim) / part.size = weight / box.size := by
  have sizes := size_of_extent others
  have extent_ne := (box.extent_pos proper dim).ne'
  have size_ne := (box.size_pos proper).ne'
  have part_size_ne := (part.size_pos part_proper).ne'
  field_simp
  linear_combination (-weight) * sizes

theorem Proper.below (le : box.low dim ≤ top) : (box.below dim top).Proper := by
  intro other
  by_cases same : other = dim
  · subst same
    simpa [Box.below] using le
  · simpa [Box.below, update_of_ne same] using proper other

theorem Proper.above (le : bottom ≤ box.high dim) : (box.above dim bottom).Proper := by
  intro other
  by_cases same : other = dim
  · subst same
    simpa [Box.above] using le
  · simpa [Box.above, update_of_ne same] using proper other

theorem share_cut (low : box.low dim ≤ top) (high : top + 1 ≤ box.high dim) (weight : ℚ)
    (point : Fin dims → Int) : (box.below dim top).share
          (weight * ((box.below dim top).extent dim / box.extent dim)) point +
        (box.above dim (top + 1)).share
          (weight * ((box.above dim (top + 1)).extent dim / box.extent dim)) point =
      box.share weight point := by
  have below_proper : (box.below dim top).Proper := proper.below low
  have above_proper : (box.above dim (top + 1)).Proper := proper.above high
  have below_share := share_part proper below_proper (fun _ ne => extent_below_of_ne ne) weight
  have above_share := share_part proper above_proper (fun _ ne => extent_above_of_ne ne) weight
  have top_le : top ≤ box.high dim := by omega
  have le_bottom : box.low dim ≤ top + 1 := by omega
  have covers_low := covers_below top_le point
  have covers_high := covers_above le_bottom point
  unfold share
  rw [below_share, above_share]
  by_cases covers : box.Covers point
  · by_cases side : point dim ≤ top
    · rw [if_pos (covers_low.mpr ⟨covers, side⟩),
        if_neg fun h => absurd (covers_high.mp h).2 (by omega), if_pos covers, add_zero]
    · rw [if_neg fun h => side (covers_low.mp h).2,
        if_pos (covers_high.mpr ⟨covers, by omega⟩), if_pos covers, zero_add]
  · rw [if_neg fun h => covers (covers_low.mp h).1, if_neg fun h => covers (covers_high.mp h).1,
      if_neg covers, add_zero]

end

/-! ## Leaving out a dimension -/

def leaveOut (box : Box (dims + 1)) (dim : Fin (dims + 1)) : Box dims :=
  { low := fun other => box.low (dim.succAbove other)
    high := fun other => box.high (dim.succAbove other) }

theorem Proper.leaveOut {box : Box (dims + 1)} (proper : box.Proper) (dim : Fin (dims + 1)) :
    (box.leaveOut dim).Proper := fun other => proper (dim.succAbove other)

theorem covers_insertNth {box : Box (dims + 1)} {dim : Fin (dims + 1)} {value : Int} :
    box.Covers (dim.insertNth value point) ↔
      (box.low dim ≤ value ∧ value ≤ box.high dim) ∧ (box.leaveOut dim).Covers point := by
  rw [Covers, Fin.forall_iff_succAbove dim]
  simp only [Fin.insertNth_apply_same, Fin.insertNth_apply_succAbove]
  rfl

theorem size_leaveOut (box : Box (dims + 1)) (dim : Fin (dims + 1)) :
    box.size = box.extent dim * (box.leaveOut dim).size := Fin.prod_univ_succAbove _ dim

theorem share_support {box : Box (dims + 1)} {dim : Fin (dims + 1)} {weight : ℚ} :
    (support fun value : Int => box.share weight (dim.insertNth value point)) ⊆
      (Finset.Icc (box.low dim) (box.high dim) : Finset Int) := by
  intro value nonzero
  by_contra outside
  refine nonzero (if_neg fun covers => outside ?_)
  exact Finset.mem_coe.mpr (Finset.mem_Icc.mpr (covers_insertNth.mp covers).1)

theorem finite_share_support (box : Box (dims + 1)) (dim : Fin (dims + 1)) (weight : ℚ)
    (point : Fin dims → Int) :
    (support fun value : Int => box.share weight (dim.insertNth value point)).Finite :=
  (Finset.finite_toSet _).subset share_support

theorem finsum_share {box : Box (dims + 1)} (proper : box.Proper) (dim : Fin (dims + 1))
    (weight : ℚ) (point : Fin dims → Int) :
    (finsum fun value : Int => box.share weight (dim.insertNth value point)) =
      (box.leaveOut dim).share weight point := by
  rw [finsum_eq_sum_of_support_subset _ share_support]
  have extent_ne := (box.extent_pos proper dim).ne'
  have size_ne := ((box.leaveOut dim).size_pos (proper.leaveOut dim)).ne'
  by_cases covers : (box.leaveOut dim).Covers point
  · have each : ∀ value ∈ Finset.Icc (box.low dim) (box.high dim),
        box.share weight (dim.insertNth value point) = weight / box.size := fun value mem =>
      if_pos (covers_insertNth.mpr ⟨Finset.mem_Icc.mp mem, covers⟩)
    have values : ((Finset.Icc (box.low dim) (box.high dim)).card : ℚ) = box.extent dim := by
      have le := proper dim
      have card : (((Finset.Icc (box.low dim) (box.high dim)).card : Nat) : Int) =
          box.high dim - box.low dim + 1 := by
        rw [Int.card_Icc]
        omega
      rw [extent, ← card, Int.cast_natCast]
    rw [Finset.sum_congr rfl each, Finset.sum_const, nsmul_eq_mul, values, share, if_pos covers,
      size_leaveOut box dim]
    field_simp
  · have each : ∀ value ∈ Finset.Icc (box.low dim) (box.high dim),
        box.share weight (dim.insertNth value point) = 0 := fun value _ =>
      if_neg fun h => covers (covers_insertNth.mp h).2
    rw [Finset.sum_congr rfl each, Finset.sum_const_zero, share, if_neg covers]

end Box

end TelegraphCQ.Foundation
