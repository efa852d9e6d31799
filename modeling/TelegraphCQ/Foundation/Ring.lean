import Mathlib.Data.List.Basic
import Mathlib.Data.Nat.ModEq

/-!
# Rings of slots

A ring of `n` slots with the indices of its first and last occupied slot.  The slots
in use are those from the first to the last, cyclically; `Views` says so and names
their contents in order.
-/

namespace TelegraphCQ.Foundation

open List Function

structure Ring (n : Nat) (Item : Type*) where
  slots : Fin n → Option Item
  first : Option (Fin n)
  last : Option (Fin n)

namespace Ring

variable {n : Nat} {Item : Type*}

def shift (i : Fin n) (k : Nat) : Fin n := ⟨(i.val + k) % n, Nat.mod_lt _ i.pos⟩

def next (i : Fin n) : Fin n := shift i 1

@[simp] theorem shift_zero (i : Fin n) : shift i 0 = i := by
  apply Fin.ext
  simp [shift, Nat.mod_eq_of_lt i.isLt]

theorem shift_shift (i : Fin n) (a b : Nat) : shift (shift i a) b = shift i (a + b) := by
  apply Fin.ext
  simp [shift, Nat.add_assoc]

theorem next_shift (i : Fin n) (k : Nat) : next (shift i k) = shift i (k + 1) := shift_shift i k 1

theorem shift_next (i : Fin n) (k : Nat) : shift (next i) k = shift i (k + 1) := by
  rw [next, shift_shift, Nat.add_comm]

variable {i : Fin n} {k : Nat} {ring : Ring n Item} {items : List Item}

theorem shift_inj {a b : Nat} (ha : a < n) (hb : b < n) : shift i a = shift i b ↔ a = b := by
  constructor
  · intro same
    have congruent : i.val + a ≡ i.val + b [MOD n] := congrArg Fin.val same
    have cancelled := Nat.ModEq.add_left_cancel' i.val congruent
    unfold Nat.ModEq at cancelled
    rwa [Nat.mod_eq_of_lt ha, Nat.mod_eq_of_lt hb] at cancelled
  · intro same
    rw [same]

theorem shift_ne_self (positive : 0 < k) (hk : k < n) : shift i k ≠ i := by
  intro same
  have zero := (shift_inj hk i.pos).mp (same.trans (shift_zero i).symm)
  omega

theorem shift_full (i : Fin n) : shift i n = i := by
  apply Fin.ext
  simp [shift, Nat.mod_eq_of_lt i.isLt]

theorem exists_shift (i j : Fin n) : ∃ k, k < n ∧ shift i k = j := by
  refine ⟨(j.val + (n - i.val)) % n, Nat.mod_lt _ i.pos, ?_⟩
  apply Fin.ext
  have total : i.val + (j.val + (n - i.val)) = j.val + n := by
    have := i.isLt
    omega
  simp only [shift, Nat.add_mod_mod, total, Nat.add_mod_right]
  exact Nat.mod_eq_of_lt j.isLt

/-! ## Contents -/

inductive Views (ring : Ring n Item) : List Item → Prop
  | empty (noFirst : ring.first = none) (noLast : ring.last = none)
      (noItem : ∀ i, ring.slots i = none) : Views ring []
  | occupied {item : Item} {items : List Item} (i : Fin n)
      (first : ring.first = some i) (last : ring.last = some (shift i items.length))
      (fits : items.length < n)
      (held : ∀ k, k < n → ring.slots (shift i k) = (item :: items)[k]?) :
      Views ring (item :: items)

theorem Views.length_le (views : ring.Views items) : items.length ≤ n := by
  cases views with
  | empty => simp
  | occupied i first last fits held =>
    rw [length_cons]
    exact fits

theorem Views.first_eq_none (views : ring.Views items) : ring.first = none ↔ items = [] := by
  cases views with
  | empty noFirst => simp [noFirst]
  | occupied i first => simp [first]

theorem Views.last_eq_none (views : ring.Views items) : ring.last = none ↔ items = [] := by
  cases views with
  | empty _ noLast => simp [noLast]
  | occupied i _ last => simp [last]

/-! ## Operations -/

def dropFirst (ring : Ring n Item) : Ring n Item :=
  match ring.first with
  | none => ring
  | some i =>
    if ring.last = some i then
      ⟨update ring.slots i none, none, none⟩
    else ⟨update ring.slots i none, some (next i), ring.last⟩

theorem Views.dropFirst {item : Item} (views : ring.Views (item :: items)) :
    ring.dropFirst.Views items := by
  cases views with
  | occupied i first last fits held =>
    unfold Ring.dropFirst
    rw [first]
    cases items with
    | nil =>
      rw [length_nil, shift_zero] at last
      simp only [last, if_true]
      apply Views.empty rfl rfl
      intro j
      obtain ⟨k, hk, rfl⟩ := exists_shift i j
      by_cases atFirst : shift i k = i
      · simp [atFirst]
      · have later : k ≠ 0 := by
          rintro rfl
          exact atFirst (shift_zero i)
        simp only [update_of_ne atFirst, held k hk]
        cases k with
        | zero => exact absurd rfl later
        | succ k => simp
    | cons head tail =>
      rw [length_cons] at last fits
      have lastNe : ring.last ≠ some i := by
        rw [last]
        simpa using shift_ne_self (Nat.succ_pos _) fits
      simp only [lastNe, if_false]
      refine Views.occupied (next i) rfl ?_ (by omega) ?_
      · rw [last, shift_next]
      · intro k hk
        rw [shift_next]
        by_cases wraps : k + 1 = n
        · have back : shift i (k + 1) = i := by rw [wraps, shift_full]
          simp only [back, update_self]
          symm
          apply getElem?_eq_none
          simp only [length_cons]
          omega
        · have apart : shift i (k + 1) ≠ i := shift_ne_self (by omega) (by omega)
          simp only [update_of_ne apart]
          rw [held (k + 1) (by omega)]
          simp

def start (i : Fin n) (item : Item) (ring : Ring n Item) : Ring n Item :=
  ⟨update ring.slots i (some item), some i, some i⟩

theorem Views.start (views : ring.Views []) (i : Fin n) (item : Item) :
    (ring.start i item).Views [item] := by
  cases views with
  | empty _ _ noItem =>
    refine Views.occupied i rfl (by simp [Ring.start]) i.pos ?_
    intro k hk
    unfold Ring.start
    cases k with
    | zero => simp
    | succ k =>
      have apart : shift i (k + 1) ≠ i := shift_ne_self (by omega) hk
      simp [update_of_ne apart, noItem]

def pushNext (item : Item) (ring : Ring n Item) : Ring n Item :=
  match ring.last with
  | none => ring
  | some l =>
    if ring.first = some (next l) then ring
    else ⟨update ring.slots (next l) (some item), ring.first, some (next l)⟩

theorem Views.pushNext_full (views : ring.Views items) (full : items.length = n) (item : Item) :
    ring.pushNext item = ring := by
  cases views with
  | empty _ noLast => simp [Ring.pushNext, noLast]
  | occupied i first last fits held =>
    rw [length_cons] at full
    unfold Ring.pushNext
    rw [last]
    simp only [next_shift]
    rw [full, shift_full, if_pos first]

theorem Views.pushNext (views : ring.Views items) (some_held : items ≠ []) (room : items.length < n)
    (item : Item) : (ring.pushNext item).Views (items ++ [item]) := by
  cases views with
  | empty => exact absurd rfl some_held
  | @occupied head tail i first last fits held =>
    rw [length_cons] at room
    have apart : shift i (tail.length + 1) ≠ i := shift_ne_self (by omega) room
    have unequal : ring.first ≠ some (next (shift i tail.length)) := by
      rw [first, next_shift]
      simpa using apart.symm
    unfold Ring.pushNext
    rw [last]
    simp only [unequal, if_false, cons_append]
    refine Views.occupied i first ?_ ?_ ?_
    · simp [next_shift]
    · simpa using room
    · intro k hk
      rw [next_shift]
      by_cases atEnd : k = tail.length + 1
      · simp [atEnd]
      · have other : shift i k ≠ shift i (tail.length + 1) := by
          rw [Ne, shift_inj hk (by omega)]
          exact atEnd
        simp only [update_of_ne other]
        rw [held k hk, ← cons_append]
        by_cases inside : k < (head :: tail).length
        · rw [getElem?_append_left inside]
        · rw [length_cons] at inside
          rw [getElem?_eq_none (by simp; omega), getElem?_eq_none (by simp; omega)]

def put (i : Fin n) (item : Item) (ring : Ring n Item) : Ring n Item :=
  { ring with slots := update ring.slots i (some item) }

section

variable (views : ring.Views items) (first : ring.first = some i)
include views first

theorem Views.put (held : k < items.length) (item : Item) :
    (ring.put (shift i k) item).Views (items.set k item) := by
  cases views with
  | empty => simp at held
  | @occupied head tail j first' last fits slots =>
    have same : j = i := by
      rw [first] at first'
      exact (Option.some.inj first').symm
    subst same
    rw [length_cons] at held
    have slotsSet : ∀ m, m < n → (ring.put (shift j k) item).slots (shift j m) =
        ((head :: tail).set k item)[m]? := by
      intro m hm
      unfold Ring.put
      by_cases here : m = k
      · subst here
        simp only [update_self]
        rw [getElem?_set_self (by simpa using held)]
      · have other : shift j m ≠ shift j k := by
          rw [Ne, shift_inj hm (by omega)]
          exact here
        simp only [update_of_ne other]
        rw [slots m hm, getElem?_set_ne (Ne.symm here)]
    cases k with
    | zero => exact Views.occupied j first last fits slotsSet
    | succ k =>
      refine Views.occupied j first ?_ ?_ slotsSet
      · rw [length_set]
        exact last
      · rw [length_set]
        exact fits

theorem Views.slot (held : k < items.length) : ring.slots (shift i k) = some items[k] := by
  cases views with
  | empty => simp at held
  | occupied j first' last fits slots =>
    have same : j = i := by
      rw [first] at first'
      exact (Option.some.inj first').symm
    subst same
    rw [length_cons] at held
    rw [slots k (by omega), getElem?_eq_getElem]

theorem Views.last_eq : ring.last = some (shift i (items.length - 1)) := by
  cases views with
  | empty noFirst => simp [noFirst] at first
  | occupied j first' last fits slots =>
    have same : j = i := by
      rw [first] at first'
      exact (Option.some.inj first').symm
    subst same
    simpa using last

end

def toList (ring : Ring n Item) : List Item :=
  match ring.first with
  | none => []
  | some i => (List.range n).filterMap fun k => ring.slots (shift i k)

theorem filterMap_range (items : List Item) (m : Nat) :
    (List.range m).filterMap (fun k => items[k]?) = items.take m := by
  induction m with
  | zero => simp
  | succ m ih =>
    rw [range_succ, filterMap_append, ih, take_add_one]
    cases found : items[m]? with
    | none => simp [found]
    | some item => simp [found]

theorem Views.toList_eq (views : ring.Views items) : ring.toList = items := by
  have short := views.length_le
  cases views with
  | empty noFirst => simp [Ring.toList, noFirst]
  | @occupied head tail i first last fits held =>
    have lookups : (List.range n).filterMap (fun k => ring.slots (shift i k)) =
        (List.range n).filterMap fun k => (head :: tail)[k]? := by
      apply filterMap_congr
      intro k hk
      exact held k (mem_range.mp hk)
    simp only [Ring.toList, first, lookups, filterMap_range]
    exact take_of_length_le short

end Ring

end TelegraphCQ.Foundation
