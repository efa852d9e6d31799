import Mathlib.Algebra.BigOperators.Ring.List
import Mathlib.Tactic.Ring

/-!
# Corners of a cube

A corner is a list of zeros and ones.  `walsh` is the sign of one corner at another, the
product of the signs in each dimension.  Sums with these signs over all corners are undone by
the same sums.

A block of cells is split into the blocks at its corners, and each cell of it is in one of
them.
-/

namespace TelegraphCQ.Foundation

open List

def corners : Nat → List (List Nat)
  | 0 => [[]]
  | d + 1 => (corners d).map (0 :: ·) ++ (corners d).map (1 :: ·)

variable {d : Nat} {corner : List Nat}

theorem mem_corners_succ : corner ∈ corners (d + 1) ↔
      ∃ bit rest, (bit = 0 ∨ bit = 1) ∧ rest ∈ corners d ∧ corner = bit :: rest := by
  simp only [corners, mem_append, mem_map]
  constructor
  · rintro (⟨rest, member, rfl⟩ | ⟨rest, member, rfl⟩)
    · exact ⟨0, rest, Or.inl rfl, member, rfl⟩
    · exact ⟨1, rest, Or.inr rfl, member, rfl⟩
  · rintro ⟨bit, rest, rfl | rfl, member, rfl⟩
    · exact Or.inl ⟨rest, member, rfl⟩
    · exact Or.inr ⟨rest, member, rfl⟩

theorem length_of_mem_corners (member : corner ∈ corners d) : corner.length = d := by
  induction d generalizing corner with
  | zero =>
    rw [mem_singleton.mp member]
    rfl
  | succ d ih =>
    obtain ⟨bit, rest, -, inside, rfl⟩ := mem_corners_succ.mp member
    rw [length_cons, ih inside]

theorem length_corners (d : Nat) : (corners d).length = 2 ^ d := by
  induction d with
  | zero => rfl
  | succ d ih =>
    rw [corners, length_append, length_map, length_map, ih, Nat.pow_succ]
    omega

/-! ## Places in a flat array -/

def flat (side : Nat) (place : List Nat) : Nat := place.foldl (fun j x => j * side + x) 0

theorem foldl_flat (side start : Nat) (place : List Nat) :
    place.foldl (fun j x => j * side + x) start =
      start * side ^ place.length + flat side place := by
  induction place generalizing start with
  | nil => simp [flat]
  | cons x place ih =>
    rw [flat, foldl_cons, foldl_cons, ih, ih (0 * side + x), length_cons, Nat.pow_succ]
    ring

theorem flat_cons (side x : Nat) (place : List Nat) :
    flat side (x :: place) = x * side ^ place.length + flat side place := by
  rw [flat, foldl_cons, foldl_flat]
  simp

theorem corners_flat (member : corner ∈ corners d) : (corners d)[flat 2 corner]? = some corner := by
  induction d generalizing corner with
  | zero =>
    rw [mem_singleton.mp member]
    rfl
  | succ d ih =>
    obtain ⟨bit, rest, is_bit, inside, rfl⟩ := mem_corners_succ.mp member
    have found := ih inside
    have below : flat 2 rest < 2 ^ d := by
      have within := (List.getElem?_eq_some_iff.mp found).1
      rwa [length_corners] at within
    rw [corners, flat_cons, length_of_mem_corners inside]
    rcases is_bit with rfl | rfl
    · rw [getElem?_append_left (by rw [length_map, length_corners]; omega)]
      simp [found]
    · rw [getElem?_append_right (by rw [length_map, length_corners]; omega)]
      simp [found, length_corners]

theorem flat_corner_injective {other : List Nat} (member : corner ∈ corners d)
    (member' : other ∈ corners d) (same : flat 2 corner = flat 2 other) : corner = other := by
  have found := corners_flat member
  rw [same, corners_flat member'] at found
  exact (Option.some.inj found).symm

theorem flat_zeros (side d : Nat) : flat side (List.replicate d 0) = 0 := by
  induction d with
  | zero => rfl
  | succ d ih => rw [replicate_succ, flat_cons, ih, Nat.zero_mul]

theorem zeros_mem_corners (d : Nat) : List.replicate d 0 ∈ corners d := by
  induction d with
  | zero => exact mem_singleton.mpr rfl
  | succ d ih => exact mem_corners_succ.mpr ⟨0, _, Or.inl rfl, ih, replicate_succ⟩

theorem eq_zeros (zero : corner.all (· == 0) = true) : corner = List.replicate corner.length 0 := by
  refine eq_replicate_of_mem fun bit member => ?_
  exact eq_of_beq (all_eq_true.mp zero bit member)

/-! ## Signed sums -/

section Sums

variable {R : Type*} [CommRing R]

def cornerSum (d : Nat) (f : List Nat → R) : R := ((corners d).map f).sum

theorem cornerSum_succ (d : Nat) (f : List Nat → R) : cornerSum (d + 1) f =
      cornerSum d (fun rest => f (0 :: rest)) + cornerSum d (fun rest => f (1 :: rest)) := by
  rw [cornerSum, corners, map_append, sum_append, map_map, map_map]
  rfl

theorem cornerSum_congr {f g : List Nat → R}
    (same : ∀ corner ∈ corners d, f corner = g corner) : cornerSum d f = cornerSum d g := by
  rw [cornerSum, cornerSum, map_congr_left same]

theorem cornerSum_add (d : Nat) (f g : List Nat → R) :
    cornerSum d (fun corner => f corner + g corner) = cornerSum d f + cornerSum d g := by
  rw [cornerSum, sum_map_add]
  rfl

theorem cornerSum_mul (d : Nat) (factor : R) (f : List Nat → R) :
    cornerSum d (fun corner => factor * f corner) = factor * cornerSum d f := by
  rw [cornerSum, sum_map_mul_left]
  rfl

theorem cornerSum_zero (d : Nat) : cornerSum d (fun _ => (0 : R)) = 0 := by
  simp [cornerSum]

theorem cornerSum_zeros (d : Nat) (value : R) :
    cornerSum d (fun corner => if corner.all (· == 0) then value else 0) = value := by
  induction d with
  | zero => simp [cornerSum, corners]
  | succ d ih =>
    rw [cornerSum_succ]
    simp only [all_cons, beq_self_eq_true, Bool.true_and, ih]
    simp [cornerSum_zero]

def walshSign (e c : Nat) : R := if e = 1 ∧ c = 1 then -1 else 1

def walsh : List Nat → List Nat → R
  | e :: es, c :: cs => walshSign e c * walsh es cs
  | _, _ => 1

theorem walsh_zeros (d : Nat) (corner : List Nat) :
    (walsh (List.replicate d 0) corner : R) = 1 := by
  induction d generalizing corner with
  | zero => simp [walsh]
  | succ d ih =>
    cases corner with
    | nil => simp [replicate_succ, walsh]
    | cons c cs => simp [replicate_succ, walsh, walshSign, ih]

def transform (d : Nat) (f : List Nat → R) (e : List Nat) : R :=
  cornerSum d fun corner => walsh e corner * f corner

theorem transform_cons (d : Nat) (f : List Nat → R) (bit : Nat) (e : List Nat) :
    transform (d + 1) f (bit :: e) = transform d (fun rest => f (0 :: rest)) e +
        walshSign bit 1 * transform d (fun rest => f (1 :: rest)) e := by
  rw [transform, cornerSum_succ, transform, transform, ← cornerSum_mul]
  congr 1
  · apply cornerSum_congr
    intro rest _
    simp [walsh, walshSign]
  · apply cornerSum_congr
    intro rest _
    rw [walsh]
    ring

variable {corner origin cell : List Nat}

theorem transform_transform (d : Nat) (f : List Nat → R) (member : corner ∈ corners d) :
    cornerSum d (fun e => walsh e corner * transform d f e) = 2 ^ d * f corner := by
  induction d generalizing f corner with
  | zero =>
    rw [mem_singleton.mp member]
    simp [cornerSum, corners, transform, walsh]
  | succ d ih =>
    obtain ⟨bit, rest, is_bit, inside, rfl⟩ := mem_corners_succ.mp member
    have first := ih (fun rest => f (0 :: rest)) inside
    have second := ih (fun rest => f (1 :: rest)) inside
    rw [cornerSum_succ, ← cornerSum_add]
    rcases is_bit with rfl | rfl
    · calc cornerSum d (fun e => walsh (0 :: e) (0 :: rest) * transform (d + 1) f (0 :: e) +
              walsh (1 :: e) (0 :: rest) * transform (d + 1) f (1 :: e))
          = cornerSum d (fun e =>
              2 * (walsh e rest * transform d (fun rest => f (0 :: rest)) e)) := by
            apply cornerSum_congr
            intro e _
            simp only [walsh, walshSign, transform_cons]
            simp
            ring
        _ = 2 ^ (d + 1) * f (0 :: rest) := by
            rw [cornerSum_mul, first]
            ring
    · calc cornerSum d (fun e => walsh (0 :: e) (1 :: rest) * transform (d + 1) f (0 :: e) +
              walsh (1 :: e) (1 :: rest) * transform (d + 1) f (1 :: e))
          = cornerSum d (fun e =>
              2 * (walsh e rest * transform d (fun rest => f (1 :: rest)) e)) := by
            apply cornerSum_congr
            intro e _
            simp only [walsh, walshSign, transform_cons]
            simp
            ring
        _ = 2 ^ (d + 1) * f (1 :: rest) := by
            rw [cornerSum_mul, second]
            ring

/-! ## Blocks -/

def InBlock (side : Nat) (origin cell : List Nat) : Prop :=
  List.Forall₂ (fun o x => o ≤ x ∧ x < o + side) origin cell

instance decidableInBlock (side : Nat) (origin cell : List Nat) :
    Decidable (InBlock side origin cell) :=
  inferInstanceAs (Decidable (List.Forall₂ _ _ _))

def child (half : Nat) (origin corner : List Nat) : List Nat :=
  List.zipWith (fun o bit => o + bit * half) origin corner

def cornerOf (half : Nat) (origin cell : List Nat) : List Nat :=
  List.zipWith (fun o x => if x < o + half then 0 else 1) origin cell

theorem length_child {half : Nat} (same : corner.length = origin.length) :
    (child half origin corner).length = origin.length := by
  rw [child, length_zipWith, same, Nat.min_self]

theorem cornerOf_mem {half : Nat} {origin cell : List Nat}
    (same : origin.length = cell.length) : cornerOf half origin cell ∈ corners origin.length := by
  induction origin generalizing cell with
  | nil => exact mem_singleton.mpr (by simp [cornerOf])
  | cons o origin ih =>
    cases cell with
    | nil => cases same
    | cons x cell =>
      refine mem_corners_succ.mpr ⟨if x < o + half then 0 else 1, cornerOf half origin cell,
        ?_, ih (Nat.succ.inj same), rfl⟩
      split_ifs
      · exact Or.inl rfl
      · exact Or.inr rfl

theorem inBlock_cons {side o x : Nat} : InBlock side (o :: origin) (x :: cell) ↔
      (o ≤ x ∧ x < o + side) ∧ InBlock side origin cell := List.forall₂_cons

theorem eq_of_inBlock_one (inside : InBlock 1 origin cell) : cell = origin := by
  induction origin generalizing cell with
  | nil => exact List.forall₂_nil_left_iff.mp inside
  | cons o origin ih =>
    cases cell with
    | nil => cases inside
    | cons x cell =>
      obtain ⟨here, rest⟩ := inBlock_cons.mp inside
      rw [ih rest, show x = o by omega]

theorem cornerSum_child (half : Nat) (origin cell : List Nat)
    (same : origin.length = cell.length) (f : List Nat → R) : cornerSum origin.length (fun corner =>
        if InBlock half (child half origin corner) cell then f corner else 0) =
      if InBlock (2 * half) origin cell then f (cornerOf half origin cell) else 0 := by
  induction origin generalizing cell f with
  | nil =>
    cases cell with
    | nil => simp [cornerSum, corners, child, InBlock, cornerOf]
    | cons x cell => cases same
  | cons o origin ih =>
    cases cell with
    | nil => cases same
    | cons x cell =>
      have inner := ih cell (Nat.succ.inj same)
      -- one of the two halves has the cell, the terms of the other vanish
      have vanish : ∀ bit, ¬ (o + bit * half ≤ x ∧ x < o + bit * half + half) →
          cornerSum origin.length (fun rest =>
            if InBlock half (child half (o :: origin) (bit :: rest)) (x :: cell)
            then f (bit :: rest) else 0) = 0 := by
        intro bit outside
        refine (cornerSum_congr ?_).trans (cornerSum_zero origin.length)
        intro rest _
        exact if_neg fun inside => outside (inBlock_cons.mp inside).1
      have keep : ∀ bit, o + bit * half ≤ x ∧ x < o + bit * half + half →
          cornerSum origin.length (fun rest =>
            if InBlock half (child half (o :: origin) (bit :: rest)) (x :: cell)
            then f (bit :: rest) else 0) =
          if InBlock (2 * half) origin cell then f (bit :: cornerOf half origin cell)
          else 0 := by
        intro bit inside
        rw [← inner fun rest => f (bit :: rest)]
        apply cornerSum_congr
        intro rest _
        congr 1
        exact propext (inBlock_cons.trans (and_iff_right inside))
      rw [length_cons, cornerSum_succ]
      by_cases low : x < o + half
      · rw [vanish 1 (by omega), add_zero]
        by_cases above : o ≤ x
        · rw [keep 0 (by omega)]
          have first : cornerOf half (o :: origin) (x :: cell) =
              0 :: cornerOf half origin cell := by
            rw [cornerOf, zipWith_cons_cons, if_pos low, cornerOf]
          rw [first]
          exact if_congr (inBlock_cons.trans (and_iff_right (by omega))).symm rfl rfl
        · rw [vanish 0 (by omega), if_neg fun inside => above (inBlock_cons.mp inside).1.1]
      · rw [vanish 0 (by omega), zero_add]
        by_cases below : x < o + 2 * half
        · rw [keep 1 (by omega)]
          have second : cornerOf half (o :: origin) (x :: cell) =
              1 :: cornerOf half origin cell := by
            rw [cornerOf, zipWith_cons_cons, if_neg low, cornerOf]
          rw [second]
          exact if_congr (inBlock_cons.trans (and_iff_right (by omega))).symm rfl rfl
        · rw [vanish 1 (by omega), if_neg fun inside => below (inBlock_cons.mp inside).1.2]

end Sums

end TelegraphCQ.Foundation
