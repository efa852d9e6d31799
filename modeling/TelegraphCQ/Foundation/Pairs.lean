import Mathlib.Algebra.Order.Group.Multiset
import Mathlib.Tactic.Abel

/-!
# Pairs of elements of a list

All pairs of an element and a later one that are related.
-/

namespace TelegraphCQ.Foundation

open List

variable {α : Type*} (rel : α → α → Bool)

def laterPairs : List α → List (α × α)
  | [] => []
  | first :: rest => (rest.filter (rel first)).map (Prod.mk first) ++ laterPairs rest

theorem laterPairs_concat (elements : List α) (last : α) :
    (laterPairs rel (elements ++ [last]) : Multiset (α × α)) = laterPairs rel elements +
        ((elements.filter (rel · last)).map (Prod.mk · last) : List (α × α)) := by
  induction elements with
  | nil => simp [laterPairs]
  | cons first rest ih =>
    have tail : (laterPairs rel (rest ++ [last]) : Multiset (α × α)) = _ := ih
    simp only [cons_append, laterPairs, ← Multiset.coe_add, tail, filter_append,
      map_append, filter_cons]
    cases related : rel first last with
    | false => simp
    | true =>
      simp only [if_true, filter_nil, map_cons, map_nil,
        ← Multiset.cons_coe, ← Multiset.singleton_add, Multiset.coe_nil]
      abel

end TelegraphCQ.Foundation
