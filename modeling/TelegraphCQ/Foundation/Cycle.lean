import Mathlib

/-!
# Cyclic widths

A list of positive widths, gone through again and again, cuts the line from a starting
point on into consecutive slots.  `edge` is where a slot begins, and `place` the position
in the list while a slot is open.
-/

namespace TelegraphCQ.Foundation

open List

structure Cycle where
  widths : List Int
  nonempty : widths ≠ []
  positive : ∀ width ∈ widths, 0 < width

namespace Cycle

variable (cycle : Cycle) (start : Int)

def length : Nat := cycle.widths.length

theorem length_pos : 0 < cycle.length := length_pos_iff.mpr cycle.nonempty

def width (n : Nat) : Int := cycle.widths.getD (n % cycle.length) 0

def edge : Nat → Int
  | 0 => start
  | n + 1 => edge n + cycle.width n

def place (n : Nat) : List Int := cycle.widths.drop (n % cycle.length)

theorem place_eq (n : Nat) :
    cycle.place n = cycle.width n :: cycle.widths.drop (n % cycle.length + 1) := by
  have within : n % cycle.length < cycle.widths.length := Nat.mod_lt n cycle.length_pos
  rw [place, width, drop_eq_getElem_cons within, getD_eq_getElem _ _ within]

theorem place_succ (n : Nat) : cycle.place (n + 1) =
      if (cycle.place n).tail = [] then cycle.widths else (cycle.place n).tail := by
  have within : n % cycle.length < cycle.length := Nat.mod_lt n cycle.length_pos
  have next : (n + 1) % cycle.length = (n % cycle.length + 1) % cycle.length := by
    rw [Nat.mod_add_mod]
  simp only [place_eq cycle n, tail_cons, drop_eq_nil_iff]
  rcases Nat.lt_or_ge (n % cycle.length + 1) cycle.length with inner | last
  · rw [if_neg (show ¬ cycle.widths.length ≤ _ from Nat.not_le.mpr inner), place, next,
      Nat.mod_eq_of_lt inner]
  · have full : n % cycle.length + 1 = cycle.length := by omega
    rw [if_pos (show cycle.widths.length ≤ _ from last), place, next, full, Nat.mod_self, drop_zero]

theorem width_pos (n : Nat) : 0 < cycle.width n := by
  have within : n % cycle.length < cycle.widths.length := Nat.mod_lt n cycle.length_pos
  rw [width, getD_eq_getElem _ _ within]
  exact cycle.positive _ (getElem_mem within)

theorem edge_strictMono : StrictMono (cycle.edge start) := by
  apply strictMono_nat_of_lt_succ
  intro n
  have := cycle.width_pos n
  simp only [edge]
  omega

theorem add_le_edge (n : Nat) : start + n ≤ cycle.edge start n := by
  induction n with
  | zero => simp [edge]
  | succ n ih =>
    have := cycle.width_pos n
    simp only [edge]
    omega

theorem existsUnique_slot {t : Int} (started : start ≤ t) :
    ∃! n, cycle.edge start n ≤ t ∧ t < cycle.edge start (n + 1) := by
  have later : ∃ n, t < cycle.edge start (n + 1) := by
    refine ⟨(t - start).toNat, ?_⟩
    have := cycle.add_le_edge start ((t - start).toNat + 1)
    omega
  refine ⟨Nat.find later, ⟨?_, Nat.find_spec later⟩, ?_⟩
  · cases found : Nat.find later with
    | zero => exact started
    | succ n =>
      have before := Nat.find_min later (m := n) (by omega)
      omega
  · rintro n ⟨from_, upTo⟩
    have bounds := Nat.find_spec later
    apply Nat.le_antisymm
    · by_contra beyond
      have := (cycle.edge_strictMono start).monotone (by omega : Nat.find later + 1 ≤ n)
      omega
    · exact Nat.find_min' later upTo

end Cycle

end TelegraphCQ.Foundation
