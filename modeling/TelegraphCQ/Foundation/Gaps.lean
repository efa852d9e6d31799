import Mathlib.Algebra.Order.Group.Int
import Mathlib.Data.List.Sort

/-!
# Lists sorted by a key, and the gaps between their keys

The gaps of a list of integers are the differences of neighbours.  In an ordered list they
are not negative, and one of them is positive as soon as two elements differ.
-/

namespace TelegraphCQ.Foundation

open List

section SortedBy

variable {Item Key : Type} [LinearOrder Key]

def sortBy (key : Item → Key) (items : List Item) : List Item :=
  items.insertionSort (fun left right => key left ≤ key right)

variable {key : Item → Key} {items : List Item}

theorem perm_sortBy (key : Item → Key) (items : List Item) :
    (sortBy key items).Perm items := perm_insertionSort _ _

@[simp] theorem mem_sortBy {item : Item} : item ∈ sortBy key items ↔ item ∈ items :=
  (perm_sortBy key items).mem_iff

@[simp] theorem length_sortBy : (sortBy key items).length = items.length :=
  (perm_sortBy key items).length_eq

theorem sortBy_ordered (key : Item → Key) (items : List Item) :
    ((sortBy key items).map key).Pairwise (· ≤ ·) := by
  have total : Std.Total fun left right : Item => key left ≤ key right :=
    ⟨fun left right => le_total (key left) (key right)⟩
  have transitive : IsTrans Item fun left right => key left ≤ key right := ⟨fun _ _ _ => le_trans⟩
  exact pairwise_map.mpr (pairwise_insertionSort _ items)

variable {low high : Key} {place : Nat}

theorem le_of_getElem? {keys : List Key} (ordered : keys.Pairwise (· ≤ ·)) {i j : Nat}
    (low_at : keys[i]? = some low) (high_at : keys[j]? = some high)
    (le : i ≤ j) : low ≤ high := by
  obtain ⟨i_lt, rfl⟩ := List.getElem?_eq_some_iff.mp low_at
  obtain ⟨j_lt, rfl⟩ := List.getElem?_eq_some_iff.mp high_at
  obtain rfl | lt := le.eq_or_lt
  · exact le_rfl
  · exact pairwise_iff_getElem.mp ordered i j i_lt j_lt lt

theorem key_le_of_mem_take (ordered : (items.map key).Pairwise (· ≤ ·))
    (low_at : (items.map key)[place]? = some low) {item : Item}
    (mem : item ∈ items.take (place + 1)) : key item ≤ low := by
  obtain ⟨i, i_lt, rfl⟩ := mem_take_iff_getElem.mp mem
  refine le_of_getElem? ordered (i := i) ?_ low_at (by omega)
  simp [show i < items.length by omega]

theorem le_key_of_mem_drop (ordered : (items.map key).Pairwise (· ≤ ·))
    (high_at : (items.map key)[place]? = some high) {item : Item}
    (mem : item ∈ items.drop place) : high ≤ key item := by
  obtain ⟨i, i_lt, rfl⟩ := mem_drop_iff_getElem.mp mem
  refine le_of_getElem? ordered (j := place + i) high_at ?_ (by omega)
  simp [show place + i < items.length by omega]

end SortedBy

def gaps : List Int → List Int
  | first :: second :: rest => (second - first) :: gaps (second :: rest)
  | _ => []

theorem length_gaps (values : List Int) : (gaps values).length = values.length - 1 := by
  induction values using gaps.induct with
  | case1 first second rest ih => simp [gaps, ih]
  | case2 values short =>
    match values, short with
    | [], _ => rfl
    | [_], _ => rfl
    | _ :: _ :: _, short => exact (short _ _ _ rfl).elim

variable {values : List Int} {gap : Int}

theorem exists_of_getElem?_gaps (gap_at : (gaps values)[place]? = some gap) :
    ∃ low high, values[place]? = some low ∧ values[place + 1]? = some high ∧ gap = high - low := by
  induction values using gaps.induct generalizing place with
  | case1 first second rest ih =>
    cases place with
    | zero =>
      have gap_eq : second - first = gap := by simpa [gaps] using gap_at
      exact ⟨first, second, rfl, rfl, gap_eq.symm⟩
    | succ place =>
      obtain ⟨low, high, low_at, high_at, gap_eq⟩ := ih (by simpa [gaps] using gap_at)
      exact ⟨low, high, by simpa using low_at, by simpa using high_at, gap_eq⟩
  | case2 values short =>
    match values, short with
    | [], _ => simp [gaps] at gap_at
    | [_], _ => simp [gaps] at gap_at
    | _ :: _ :: _, short => exact (short _ _ _ rfl).elim

theorem exists_of_mem_gaps (mem : gap ∈ gaps values) :
    ∃ low ∈ values, ∃ high ∈ values, gap = high - low := by
  obtain ⟨place, gap_at⟩ := mem_iff_getElem?.mp mem
  obtain ⟨low, high, low_at, high_at, gap_eq⟩ := exists_of_getElem?_gaps gap_at
  exact ⟨low, mem_of_getElem? low_at, high, mem_of_getElem? high_at, gap_eq⟩

theorem gap_nonneg (ordered : values.Pairwise (· ≤ ·)) (mem : gap ∈ gaps values) : 0 ≤ gap := by
  obtain ⟨place, gap_at⟩ := mem_iff_getElem?.mp mem
  obtain ⟨low, high, low_at, high_at, gap_eq⟩ := exists_of_getElem?_gaps gap_at
  have le := le_of_getElem? ordered low_at high_at (Nat.le_succ place)
  omega

theorem exists_gap_pos (ordered : values.Pairwise (· ≤ ·))
    {low high : Int} (low_mem : low ∈ values) (high_mem : high ∈ values) (lt : low < high) :
    ∃ gap ∈ gaps values, 0 < gap := by
  induction values using gaps.induct generalizing low high with
  | case1 first second rest ih =>
    obtain ⟨first_le, ordered_rest⟩ := pairwise_cons.mp ordered
    by_cases apart : first < second
    · exact ⟨second - first, mem_cons_self, by omega⟩
    · have same : first = second := le_antisymm (first_le second mem_cons_self) (not_lt.mp apart)
      -- then the first value stands in the rest as well
      have in_rest : ∀ value ∈ first :: second :: rest, value ∈ second :: rest := by
        rintro value (_ | ⟨_, mem⟩)
        · exact same ▸ mem_cons_self
        · exact mem
      obtain ⟨gap, mem, pos⟩ := ih ordered_rest (in_rest low low_mem) (in_rest high high_mem) lt
      exact ⟨gap, mem_cons_of_mem _ mem, pos⟩
  | case2 values short =>
    match values, short with
    | [], _ => cases low_mem
    | [only], _ =>
      rw [mem_singleton] at low_mem high_mem
      omega
    | _ :: _ :: _, short => exact (short _ _ _ rfl).elim

end TelegraphCQ.Foundation
