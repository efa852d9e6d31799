import Mathlib.Data.List.Basic
import Mathlib.Order.Basic

/-!
# Merging ordered streams

Streams of items with ascending keys are merged by taking a first item with the least key.
-/

namespace TelegraphCQ.Foundation

open List Function

variable {Item Key : Type*} [Preorder Key]

structure Merging (key : Item → Key) (n : Nat) (rest : Nat → List Item) (out : List Item) :
    Prop where
  ascending : ∀ i < n, (rest i).Pairwise fun x y => key x < key y
  ordered : out.Pairwise fun x y => key x ≤ key y
  below : ∀ x ∈ out, ∀ i < n, ∀ y ∈ rest i, key x ≤ key y

namespace Merging

variable {key : Item → Key} {n : Nat} {rest : Nat → List Item} {out : List Item}

theorem congr {rest' : Nat → List Item} (merging : Merging key n rest out)
    (same : ∀ i < n, rest' i = rest i) : Merging key n rest' out where
  ascending := fun i inside => by
    rw [same i inside]
    exact merging.ascending i inside
  ordered := merging.ordered
  below := fun x mem i inside => by
    rw [same i inside]
    exact merging.below x mem i inside

variable {i : Nat} {x : Item}

theorem head_le (merging : Merging key n rest out) (inside : i < n)
    (first : (rest i).head? = some x) {y : Item} (mem : y ∈ rest i) : key x ≤ key y := by
  have ascending := merging.ascending i inside
  cases isRest : rest i with
  | nil => simp [isRest] at first
  | cons z zs =>
    rw [isRest] at first mem ascending
    obtain rfl := Option.some.inj first
    rcases mem_cons.mp mem with rfl | later
    · exact le_refl _
    · exact le_of_lt ((pairwise_cons.mp ascending).1 y later)

theorem take (merging : Merging key n rest out) (inside : i < n)
    {xs : List Item} (isRest : rest i = x :: xs)
    (least : ∀ j < n, ∀ y, (rest j).head? = some y → key x ≤ key y) :
    Merging key n (update rest i xs) (out ++ [x]) := by
  have fewer : ∀ j, ∀ y ∈ update rest i xs j, y ∈ rest j := by
    intro j y mem
    by_cases here : j = i
    · rw [here, update_self] at mem
      rw [here, isRest]
      exact mem_cons_of_mem _ mem
    · rwa [update_of_ne here] at mem
  have bound : ∀ j < n, ∀ y ∈ rest j, key x ≤ key y := by
    intro j isStream y mem
    obtain ⟨first, isFirst⟩ : ∃ first, (rest j).head? = some first := by
      cases isStreamRest : rest j with
      | nil =>
        rw [isStreamRest] at mem
        cases mem
      | cons first _ => exact ⟨first, rfl⟩
    exact (least j isStream first isFirst).trans (merging.head_le isStream isFirst mem)
  refine ⟨fun j isStream => ?_, ?_, ?_⟩
  · by_cases here : j = i
    · have ascending := merging.ascending i inside
      rw [isRest] at ascending
      rw [here, update_self]
      exact (pairwise_cons.mp ascending).2
    · rw [update_of_ne here]
      exact merging.ascending j isStream
  · refine pairwise_append.mpr ⟨merging.ordered, pairwise_singleton _ _, ?_⟩
    intro y mem z isLast
    rw [mem_singleton.mp isLast]
    exact merging.below y mem i inside x (by rw [isRest]; exact mem_cons_self)
  · rw [forall_mem_append, forall_mem_singleton]
    exact ⟨fun y earlier j isStream z left => merging.below y earlier j isStream z (fewer j z left),
      fun j isStream z left => bound j isStream z (fewer j z left)⟩

end Merging

end TelegraphCQ.Foundation
