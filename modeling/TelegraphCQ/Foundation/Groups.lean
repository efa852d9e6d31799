import Mathlib

/-!
# Sorted keyed groups

A list of groups in strictly increasing key order, as kept by a calendar: each
group collects the items that are due at its key.  `modify` finds the group of
a key, creating it in place if there is none, and `lookup` reads one back.
-/

namespace TelegraphCQ.Foundation

open List

abbrev Groups (Key Item : Type*) := List (Key × List Item)

namespace Groups

variable {Key Item : Type*} [LinearOrder Key]

def modify (key : Key) (change : List Item → List Item) :
    Groups Key Item → Groups Key Item
  | [] => [(key, change [])]
  | (other, items) :: rest =>
    if other < key then
      (other, items) :: modify key change rest
    else if other = key then
      (other, change items) :: rest
    else
      (key, change []) :: (other, items) :: rest

def lookup (key : Key) : Groups Key Item → List Item
  | [] => []
  | (other, items) :: rest => if other = key then items else lookup key rest

def keys (groups : Groups Key Item) : List Key := groups.map Prod.fst

def Sorted (groups : Groups Key Item) : Prop := groups.keys.Pairwise (· < ·)

variable {key other : Key} {groups : Groups Key Item}

theorem mem_keys_modify {change : List Item → List Item}
    (member : other ∈ (groups.modify key change).keys) : other = key ∨ other ∈ groups.keys := by
  induction groups with
  | nil => simpa [modify, keys] using member
  | cons group groups ih =>
    simp only [modify] at member
    split at member
    · rcases mem_cons.mp member with rfl | member
      · exact .inr (by simp [keys])
      · exact (ih member).imp_right fun h => mem_cons_of_mem _ h
    · split at member
      · exact .inr member
      · rcases mem_cons.mp member with rfl | member
        · exact .inl rfl
        · exact .inr member

theorem sorted_modify (sorted : groups.Sorted) (key : Key) (change : List Item → List Item) :
    (groups.modify key change).Sorted := by
  induction groups with
  | nil => simp [modify, Sorted, keys]
  | cons group groups ih =>
    obtain ⟨above, sorted⟩ := pairwise_cons.mp sorted
    simp only [modify]
    split
    · rename_i before
      refine pairwise_cons.mpr ⟨fun other member => ?_, ih sorted⟩
      rcases mem_keys_modify member with rfl | member
      · exact before
      · exact above other member
    · split
      · exact pairwise_cons.mpr ⟨above, sorted⟩
      · rename_i notBefore notEqual
        have after : key < group.1 := lt_of_le_of_ne (not_lt.mp notBefore) (Ne.symm notEqual)
        refine pairwise_cons.mpr ⟨fun other member => ?_, pairwise_cons.mpr ⟨above, sorted⟩⟩
        rcases mem_cons.mp member with rfl | member
        · exact after
        · exact after.trans (above other member)

theorem lookup_eq_nil (missing : key ∉ groups.keys) : groups.lookup key = [] := by
  induction groups with
  | nil => rfl
  | cons group groups ih =>
    simp only [keys, map_cons, mem_cons, not_or] at missing
    simp only [lookup, Ne.symm missing.1, if_false]
    exact ih missing.2

theorem lookup_modify_self (sorted : groups.Sorted) (key : Key) (change : List Item → List Item) :
    (groups.modify key change).lookup key = change (groups.lookup key) := by
  induction groups with
  | nil => simp [modify, lookup]
  | cons group groups ih =>
    obtain ⟨above, sorted⟩ := pairwise_cons.mp sorted
    simp only [modify]
    split
    · rename_i before
      simp [lookup, before.ne, ih sorted]
    · rename_i notBefore
      split
      · rename_i equal
        simp [lookup, equal]
      · rename_i notEqual
        have missing : key ∉ keys groups := fun member =>
          notBefore (above key member)
        simp [lookup, notEqual, lookup_eq_nil missing]

theorem lookup_modify_ne (groups : Groups Key Item) (distinct : other ≠ key)
    (change : List Item → List Item) :
    (groups.modify key change).lookup other = groups.lookup other := by
  induction groups with
  | nil => simp [modify, lookup, Ne.symm distinct]
  | cons group groups ih =>
    simp only [modify]
    split
    · simp [lookup, ih]
    · split
      · rename_i equal
        simp [lookup, equal, Ne.symm distinct]
      · simp [lookup, Ne.symm distinct]

theorem lookup_tail {items : List Item} (distinct : other ≠ key) :
    lookup other ((key, items) :: groups) = lookup other groups := by
  simp [lookup, Ne.symm distinct]

end Groups

end TelegraphCQ.Foundation
