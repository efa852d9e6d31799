import Mathlib.Order.Interval.Finset.Nat

/-!
# Heaps with a hole

The nodes of a heap stand at the places from 1 on, and the one at `i / 2` is above the one at
`i`.  While a node looks for its place, one place is a hole: the nodes around it are in order as
if it were not there.  The hole moves up or down until the node can fill it.  There is no hole
if it is at 0.
-/

namespace TelegraphCQ.Foundation

open Function

structure HeapAround {Node Key : Type} [LE Key] (key : Node → Key) (all : Multiset Node)
    (count hole : Nat) (nodes : Nat → Node) : Prop where
  nodes_eq : ((Finset.Icc 1 count).erase hole).val.map nodes = all
  ordered : ∀ i ≤ count, i ≠ hole → ∀ j, 0 < j →
    j = (if i / 2 = hole then hole / 2 else i / 2) → key (nodes j) ≤ key (nodes i)

section Moving

variable {Node : Type} {nodes : Nat → Node} {places : Finset Nat} {hole from_ : Nat}

theorem map_update_hole (isPlace : hole ∈ places) (node : Node) :
    places.val.map (update nodes hole node) = node ::ₘ (places.erase hole).val.map nodes := by
  conv_lhs => rw [← Finset.insert_erase isPlace]
  rw [Finset.insert_val_of_notMem (Finset.notMem_erase hole places), Multiset.map_cons, update_self]
  congr 1
  refine Multiset.map_congr rfl fun i mem => update_of_ne ?_ _ _
  exact Finset.ne_of_mem_erase mem

theorem map_move_hole (isPlace : hole ∈ places) (isFrom : from_ ∈ places) (apart : from_ ≠ hole) :
    (places.erase from_).val.map (update nodes hole (nodes from_)) =
      (places.erase hole).val.map nodes := by
  rw [map_update_hole (Finset.mem_erase.mpr ⟨apart.symm, isPlace⟩), Finset.erase_right_comm,
    ← Multiset.map_cons, ← Finset.insert_val_of_notMem (Finset.notMem_erase _ _),
    Finset.insert_erase (Finset.mem_erase.mpr ⟨apart, isFrom⟩)]

end Moving

namespace HeapAround

variable {Node Key : Type} [LinearOrder Key] {key : Node → Key} {all : Multiset Node}
  {count hole : Nat} {nodes : Nat → Node}

variable (heap : HeapAround key all count hole nodes)

section

include heap

theorem congr {other : Nat → Node} (same : ∀ i, 0 < i → i ≠ hole → other i = nodes i)
    : HeapAround key all count hole other := by
  constructor
  · rw [← heap.nodes_eq]
    refine Multiset.map_congr rfl fun i mem => ?_
    obtain ⟨apart, within⟩ := Finset.mem_erase.mp (Finset.mem_val.mp mem)
    exact same i (Finset.mem_Icc.mp within).1 apart
  · intro i within apart j positive above
    rw [same i (by grind) apart, same j positive (by grind)]
    exact heap.ordered i within apart j positive above

theorem up (within : hole ≤ count) (above : 0 < hole / 2) :
    HeapAround key all count (hole / 2) (update nodes hole (nodes (hole / 2))) := by
  constructor
  · rw [map_move_hole (by simp; omega) (by simp; omega) (by omega), heap.nodes_eq]
  · have upper (isNode : 0 < hole / 2 / 2) := heap.ordered (hole / 2) (by omega) (by omega)
      (hole / 2 / 2) isNode (by grind)
    intro i isPlace apart j positive isAbove
    have beside (isChild : i / 2 = hole / 2) (other : i ≠ hole) := heap.ordered i isPlace other
      (hole / 2) above (by grind)
    grind [heap.ordered, update_apply]

theorem down {child : Nat} (positive : 0 < hole) (within : child ≤ count)
    (isChild : child / 2 = hole)
    (least : ∀ i ≤ count, i / 2 = hole → key (nodes child) ≤ key (nodes i)) :
    HeapAround key all count child (update nodes hole (nodes child)) := by
  constructor
  · rw [map_move_hole (by simp; omega) (by simp; omega) (by omega), heap.nodes_eq]
  · intro i isPlace apart j positive isAbove
    grind [heap.ordered, update_apply]

theorem fill {node : Node} (positive : 0 < hole) (within : hole ≤ count)
    (above : 0 < hole / 2 → key (nodes (hole / 2)) ≤ key node)
    (below : ∀ i ≤ count, i / 2 = hole → key node ≤ key (nodes i)) :
    HeapAround key (node ::ₘ all) count 0 (update nodes hole node) := by
  constructor
  · rw [Finset.erase_eq_of_notMem (by simp), map_update_hole (by simp; omega), heap.nodes_eq]
  · intro i isPlace apart j positive isAbove
    grind [heap.ordered, update_apply]

end

theorem root_le (heap : HeapAround key all count 0 nodes) {i : Nat} (positive : 0 < i)
    (within : i ≤ count) : key (nodes 1) ≤ key (nodes i) := by
  induction i using Nat.strong_induction_on with
  | _ i ih =>
    by_cases isRoot : i = 1
    · rw [isRoot]
    · have above := ih (i / 2) (by omega) (by omega) (by omega)
      exact above.trans (heap.ordered i within (by omega) (i / 2) (by omega) (by grind))

theorem openLast (heap : HeapAround key all count 0 nodes) :
    HeapAround key all (count + 1) (count + 1) nodes := by
  have places : (Finset.Icc 1 (count + 1)).erase (count + 1) = (Finset.Icc 1 count).erase 0 := by
    grind
  refine ⟨by rw [places, heap.nodes_eq], fun i isPlace apart j positive isAbove => ?_⟩
  exact heap.ordered i (by omega) (by grind) j positive (by grind)

theorem openRoot (heap : HeapAround key all (count + 1) 0 nodes) (more : 0 < count) :
    ∃ rest, all = nodes 1 ::ₘ nodes (count + 1) ::ₘ rest ∧ HeapAround key rest count 1 nodes := by
  refine ⟨_, ?_, ⟨rfl, fun i isPlace apart j positive isAbove => ?_⟩⟩
  · have places : (Finset.Icc 1 (count + 1)).erase 0 =
        insert 1 (insert (count + 1) ((Finset.Icc 1 count).erase 1)) := by
      grind
    rw [← heap.nodes_eq, places, Finset.insert_val_of_notMem (by grind),
      Finset.insert_val_of_notMem (by grind), Multiset.map_cons, Multiset.map_cons]
  · exact heap.ordered i (by omega) (by grind) j positive (by grind)

end HeapAround

end TelegraphCQ.Foundation
