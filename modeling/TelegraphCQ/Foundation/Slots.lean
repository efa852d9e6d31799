import Mathlib.Data.List.Perm.Basic

/-!
# Slots that are used again

A value is put into the first empty slot of a list, or into a new slot at its end.
-/

namespace TelegraphCQ.Foundation

open List

variable {α β : Type*}

def firstHole (slots : List (Option α)) : Nat := slots.findIdx Option.isNone

def fillHole (value : α) (slots : List (Option α)) : List (Option α) :=
  if firstHole slots = slots.length then slots ++ [some value]
  else slots.set (firstHole slots) (some value)

theorem firstHole_le (slots : List (Option α)) : firstHole slots ≤ slots.length := findIdx_le_length

theorem firstHole_empty (slots : List (Option α)) (value : α) :
    slots[firstHole slots]? ≠ some (some value) := by
  intro filled
  obtain ⟨within, there⟩ := List.getElem?_eq_some_iff.mp filled
  have empty : slots[firstHole slots].isNone = true :=
    @List.findIdx_getElem _ Option.isNone slots within
  rw [there] at empty
  cases empty

variable {slots : List (Option α)} {Item : Type} {items : List Item} {place : Nat}

theorem getElem?_firstHole (hole : firstHole slots ≠ slots.length) :
    slots[firstHole slots]? = some none := by
  have within : firstHole slots < slots.length := Nat.lt_of_le_of_ne (firstHole_le slots) hole
  have empty : slots[firstHole slots].isNone = true :=
    @List.findIdx_getElem _ Option.isNone slots within
  rw [getElem?_eq_getElem within, Option.isNone_iff_eq_none.mp empty]

theorem filled_map (f : α → β) (slots : List (Option α)) :
    (slots.map (Option.map f)).filterMap id = (slots.filterMap id).map f := by
  induction slots with
  | nil => rfl
  | cons slot rest ih =>
    cases slot with
    | none => exact ih
    | some value => exact congrArg (f value :: ·) ih

theorem slot_unique (distinct : (slots.filterMap id).Nodup) {value : α} {j k : Nat}
    (at_j : slots[j]? = some (some value)) (at_k : slots[k]? = some (some value)) : j = k := by
  induction slots generalizing j k with
  | nil => simp at at_j
  | cons slot rest ih =>
    have within : ∀ {i}, rest[i]? = some (some value) → value ∈ rest.filterMap id :=
      fun at_i => mem_filterMap.mpr ⟨some value, mem_of_getElem? at_i, rfl⟩
    have tail : (rest.filterMap id).Nodup := by
      cases slot with
      | none => exact distinct
      | some held => exact (nodup_cons.mp distinct).2
    have first : slot = some value → value ∉ rest.filterMap id := by
      rintro rfl
      exact (nodup_cons.mp distinct).1
    cases j with
    | zero =>
      cases k with
      | zero => rfl
      | succ k => exact absurd (within at_k) (first (by simpa using at_j))
    | succ j =>
      cases k with
      | zero => exact absurd (within at_j) (first (by simpa using at_k))
      | succ k => exact congrArg _ (ih tail at_j at_k)

theorem firstHole_map (f : α → β) (slots : List (Option α)) :
    firstHole (slots.map (Option.map f)) = firstHole slots := by
  rw [firstHole, firstHole, findIdx_map]
  congr 1
  funext slot
  cases slot <;> rfl

theorem fillHole_map (f : α → β) (value : α) (slots : List (Option α)) :
    (fillHole value slots).map (Option.map f) = fillHole (f value) (slots.map (Option.map f)) := by
  rw [fillHole, fillHole, firstHole_map, length_map]
  split_ifs
  · simp
  · simp [map_set]

theorem getElem?_fillHole (value : α) (slots : List (Option α)) (k : Nat) :
    (fillHole value slots)[k]? = if k = firstHole slots then some (some value) else slots[k]? := by
  rw [fillHole]
  split_ifs with full here here
  · rw [here, full]
    simp
  · rw [full] at here
    rcases Nat.lt_or_ge k slots.length with below | above
    · rw [getElem?_append_left below]
    · rw [getElem?_eq_none (by simp; omega), getElem?_eq_none above]
  · have within : firstHole slots < slots.length := Nat.lt_of_le_of_ne (firstHole_le slots) full
    rw [here, getElem?_set_self within]
  · rw [getElem?_set_ne (Ne.symm here)]

theorem perm_fillHole (value : α) (slots : List (Option α)) :
    ((fillHole value slots).filterMap id).Perm (value :: slots.filterMap id) := by
  induction slots with
  | nil => exact List.Perm.refl _
  | cons slot rest ih =>
    cases slot with
    | none =>
      rw [fillHole, firstHole, findIdx_cons]
      simp
    | some held =>
      have later : fillHole value (some held :: rest) = some held :: fillHole value rest := by
        simp only [fillHole, firstHole, findIdx_cons, Option.isNone_some, cond_false,
          length_cons, Nat.add_right_cancel_iff, cons_append, set_cons_succ]
        by_cases full : List.findIdx Option.isNone rest = rest.length <;> simp [full]
      rw [later]
      simp only [filterMap_cons, id_eq]
      exact (ih.cons held).trans (List.Perm.swap value held _)

theorem perm_set_append {old : Item} (old_at : items[place]? = some old) (new added : Item) :
    ∃ others, items.Perm (old :: others) ∧
      (items.set place new ++ [added]).Perm ([new, added] ++ others) := by
  obtain ⟨place_lt, rfl⟩ := List.getElem?_eq_some_iff.mp old_at
  refine ⟨items.eraseIdx place, (List.getElem_cons_eraseIdx_perm place_lt).symm, ?_⟩
  have front : (items.set place new).Perm (new :: items.eraseIdx place) :=
    set_perm_cons_eraseIdx place_lt new
  exact (front.append_right [added]).trans
    (perm_append_comm.trans (List.Perm.swap new added _))

theorem perm_dropLast_set {last : Item} (within : place < items.length)
    (last_at : items.getLast? = some last) :
    (items.set place last).dropLast.Perm (items.eraseIdx place) := by
  obtain ⟨front, rfl⟩ := getLast?_eq_some_iff.mp last_at
  by_cases before : place < front.length
  · rw [set_append_left _ _ before, dropLast_concat, eraseIdx_append_of_lt_length before]
    exact (set_perm_cons_eraseIdx before last).trans (perm_append_singleton last _).symm
  · have end_eq : place = front.length := by
      rw [length_append, length_singleton] at within
      omega
    subst end_eq
    simp [eraseIdx_append_of_length_le]

end TelegraphCQ.Foundation
