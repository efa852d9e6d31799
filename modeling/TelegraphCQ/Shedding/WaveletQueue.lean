import TelegraphCQ.Foundation.Heap
import TelegraphCQ.Shedding.Wavelet

/-!
# The queue of the coefficients

The queue is a heap, whatever is compared: a coefficient goes up from the place behind the last
one, and the last one goes down from the first place when the least one is removed.
-/

namespace TelegraphCQ.Shedding

open Foundation Function

def keyOf (node : Option Wc) : ℚ := (node.map Wc.vvSquared).getD 0

def Pq.nodeList (pq : Pq) : List (Option Wc) := (List.range pq.count).map fun i => pq.nodes (i + 1)

abbrev Pq.Holds (pq : Pq) (kept : Multiset Wc) : Prop :=
  HeapAround keyOf (kept.map some) pq.count 0 pq.nodes

section Sifting

variable {object : Wc} {kept : Multiset Wc} {count hole rounds : Nat} {nodes : Nat → Option Wc}

theorem wcLess_iff (left right : Wc) :
    wcLess (some left) (some right) = true ↔ keyOf (some left) < keyOf (some right) :=
  decide_eq_true_iff

variable (heap : HeapAround keyOf (kept.map some) count hole nodes)

section

include heap

theorem exists_node {i : Nat} (positive : 0 < i) (within : i ≤ count) (apart : i ≠ hole)
    : ∃ wc ∈ kept, nodes i = some wc := by
  have isNode : nodes i ∈ kept.map some := by
    rw [← heap.nodes_eq]
    exact Multiset.mem_map_of_mem nodes (Finset.mem_val.mpr
      (Finset.mem_erase.mpr ⟨apart, Finset.mem_Icc.mpr ⟨positive, within⟩⟩))
  obtain ⟨wc, mem, same⟩ := Multiset.mem_map.mp isNode
  exact ⟨wc, mem, same.symm⟩

theorem percUp_heap (positive : 0 < hole) (within : hole ≤ count) (enough : hole ≤ rounds)
    (first : nodes 0 = some object)
    (below : ∀ i ≤ count, i / 2 = hole → keyOf (some object) ≤ keyOf (nodes i)) :
    HeapAround keyOf ((object ::ₘ kept).map some) count 0 (percUp object rounds hole nodes) := by
  induction rounds generalizing hole nodes with
  | zero => omega
  | succ rounds ih =>
    rw [percUp]
    by_cases above : 0 < hole / 2
    · obtain ⟨wc, -, isNode⟩ := exists_node heap above (by omega) (by omega)
      split_ifs with less
      · rw [isNode, wcLess_iff, ← isNode] at less
        refine ih (heap.up within above) above (by omega) (by omega)
          (by rw [update_of_ne (by omega), first]) fun i isPlace isChild => ?_
        by_cases here : i = hole
        · rw [here, update_self]
          exact less.le
        · rw [update_of_ne here]
          exact less.le.trans (heap.ordered i isPlace here _ above (by grind))
      · rw [isNode, wcLess_iff, not_lt, ← isNode] at less
        rw [Multiset.map_cons]
        exact heap.fill positive within (fun _ => less) below
    · -- the node at 0 stops the object
      rw [Nat.eq_zero_of_not_pos above, first, if_neg (by simp [wcLess]), Multiset.map_cons]
      exact heap.fill positive within (fun isNode => absurd isNode above) below

theorem least_child (positive : 0 < hole) (inner : hole * 2 ≤ count) :
    ∃ child, (if hole * 2 ≠ count ∧ wcLess (nodes (hole * 2 + 1)) (nodes (hole * 2)) = true then
        hole * 2 + 1 else hole * 2) = child ∧ child ≤ count ∧ child / 2 = hole ∧
      ∀ i ≤ count, i / 2 = hole → keyOf (nodes child) ≤ keyOf (nodes i) := by
  obtain ⟨left, -, isLeft⟩ := exists_node heap (show 0 < hole * 2 by omega) inner (by omega)
  by_cases single : hole * 2 = count
  · refine ⟨hole * 2, if_neg fun both => both.1 single, by omega, by omega, ?_⟩
    intro i isPlace isChild
    rw [show i = hole * 2 by omega]
  obtain ⟨right, -, isRight⟩ := exists_node heap (show 0 < hole * 2 + 1 by omega) (by omega)
    (by omega)
  have either (i : Nat) (isChild : i / 2 = hole) : i = hole * 2 ∨ i = hole * 2 + 1 := by omega
  by_cases less : wcLess (nodes (hole * 2 + 1)) (nodes (hole * 2)) = true
  · refine ⟨hole * 2 + 1, if_pos ⟨single, less⟩, by omega, by omega, ?_⟩
    rw [isLeft, isRight, wcLess_iff, ← isLeft, ← isRight] at less
    intro i _ isChild
    rcases either i isChild with rfl | rfl
    exacts [less.le, le_refl _]
  · refine ⟨hole * 2, if_neg fun both => less both.2, by omega, by omega, ?_⟩
    rw [isLeft, isRight, wcLess_iff, not_lt, ← isLeft, ← isRight] at less
    intro i _ isChild
    rcases either i isChild with rfl | rfl
    exacts [le_refl _, less]

theorem percDown_heap (positive : 0 < hole) (within : hole ≤ count) (enough : count < hole + rounds)
    (above : 0 < hole / 2 → keyOf (nodes (hole / 2)) ≤ keyOf (some object)) :
    HeapAround keyOf ((object ::ₘ kept).map some) count 0
      (percDown count (some object) rounds hole nodes) := by
  induction rounds generalizing hole nodes with
  | zero => omega
  | succ rounds ih =>
    rw [percDown]
    by_cases inner : hole * 2 ≤ count
    · obtain ⟨child, isChosen, isPlace, isChild, least⟩ := least_child heap positive inner
      obtain ⟨wc, -, isNode⟩ := exists_node heap (show 0 < child by omega) isPlace (by omega)
      simp only [if_pos inner, isChosen]
      split_ifs with less
      · rw [isNode, wcLess_iff, ← isNode] at less
        refine ih (heap.down positive isPlace isChild least) (by omega) isPlace (by omega) ?_
        rw [isChild, update_self]
        exact fun _ => less.le
      · rw [isNode, wcLess_iff, not_lt, ← isNode] at less
        rw [Multiset.map_cons]
        exact heap.fill positive within above fun i isNode isBelow =>
          less.trans (least i isNode isBelow)
    · rw [if_neg inner, Multiset.map_cons]
      exact heap.fill positive within above fun i isNode isBelow => by omega

end

end Sifting

namespace Pq.Holds

variable {pq : Pq} {kept : Multiset Wc} {object least : Wc}

variable (holds : pq.Holds kept)

section

include holds

theorem count_eq : pq.count = kept.card := by
  have sizes := congrArg Multiset.card holds.nodes_eq
  simpa using sizes

theorem coe_nodeList : (pq.nodeList : Multiset (Option Wc)) = kept.map some := by
  rw [← holds.nodes_eq, Finset.erase_eq_of_notMem (by simp)]
  change _ = ((List.range' 1 (pq.count + 1 - 1)).map pq.nodes : Multiset (Option Wc))
  rw [List.range'_eq_map_range, List.map_map]
  simp [Pq.nodeList, comp_def, Nat.add_comm 1]

theorem filterMap_nodeList : (pq.nodeList.filterMap id : Multiset Wc) = kept := by
  induction kept using Quotient.inductionOn with
  | _ kept =>
    have nodes := (Multiset.coe_eq_coe.mp holds.coe_nodeList).filterMap id
    rw [List.filterMap_map] at nodes
    exact Multiset.coe_eq_coe.mpr (by simpa using nodes)

theorem exists_least (some_kept : kept ≠ 0) :
    ∃ least ∈ kept, pqGetMin pq = some least ∧ ∀ wc ∈ kept, least.vvSquared ≤ wc.vvSquared := by
  have positive : 0 < pq.count := by
    rw [holds.count_eq]
    exact Multiset.card_pos.mpr some_kept
  obtain ⟨least, mem, isRoot⟩ := exists_node holds Nat.one_pos positive (by omega)
  refine ⟨least, mem, isRoot, fun wc isKept => ?_⟩
  have isNode : some wc ∈ kept.map some := Multiset.mem_map_of_mem some isKept
  rw [← holds.nodes_eq] at isNode
  obtain ⟨i, isPlace, isWc⟩ := Multiset.mem_map.mp isNode
  obtain ⟨apart, inside⟩ := Finset.mem_erase.mp (Finset.mem_val.mp isPlace)
  have below := holds.root_le (Nat.pos_of_ne_zero apart) (Finset.mem_Icc.mp inside).2
  rwa [isRoot, isWc] at below

theorem pqAdd (room : pq.count ≠ pq.maxCount) :
    ∃ next, Shedding.pqAdd object pq = (true, next) ∧ next.Holds (object ::ₘ kept) ∧
      next.maxCount = pq.maxCount := by
  have heap := holds.openLast.congr fun i positive _ =>
    update_of_ne (show i ≠ 0 by omega) (some object) pq.nodes
  have added := percUp_heap heap (Nat.succ_pos _) (le_refl _) (le_refl _) (update_self _ _ _)
    fun i _ _ => by omega
  exact ⟨_, if_neg room, added, rfl⟩

theorem pqRemoveMin (isLeast : pqGetMin pq = some least) (mem : least ∈ kept)
    : (Shedding.pqRemoveMin pq).Holds (kept.erase least) := by
  have sizes := Multiset.card_erase_of_mem mem
  have count_eq := holds.count_eq
  have positive := Multiset.card_pos_iff_exists_mem.mpr ⟨least, mem⟩
  obtain ⟨count, isCount⟩ : ∃ count, pq.count = count + 1 := ⟨pq.count - 1, by omega⟩
  simp only [Pq.Holds, Shedding.pqRemoveMin, isLeast, isCount, Nat.add_sub_cancel]
  rcases Nat.eq_zero_or_pos count with none_left | more
  · have nothing : kept.erase least = 0 := Multiset.card_eq_zero.mp (by
      rw [sizes, Nat.pred_eq_sub_one]
      omega)
    rw [nothing, none_left]
    exact ⟨rfl, fun i isPlace apart => by omega⟩
  · rw [Pq.Holds, isCount] at holds
    obtain ⟨rest, isAll, heap⟩ := holds.openRoot more
    have isRoot : pq.nodes 1 = some least := isLeast
    rw [isRoot, ← Multiset.cons_erase mem, Multiset.map_cons, Multiset.cons_inj_right] at isAll
    obtain ⟨last, isLast, same, rfl⟩ := (Multiset.map_eq_cons _ _ _ _).mpr isAll
    rw [← Multiset.cons_erase isLast, update_self, ← same]
    exact percDown_heap (heap.congr fun i _ apart => update_of_ne apart _ _) Nat.one_pos more
      (by omega) (by simp)

theorem wcsAdd_room (room : pq.count ≠ pq.maxCount) :
    (wcsAdd object pq).Holds (object ::ₘ kept) ∧ (wcsAdd object pq).maxCount = pq.maxCount := by
  obtain ⟨next, added, result⟩ := @pqAdd _ _ object holds room
  rw [wcsAdd, added]
  exact result

theorem wcsAdd_full (full : pq.count = pq.maxCount) (isLeast : pqGetMin pq = some least)
    (mem : least ∈ kept) : (wcsAdd object pq).Holds (object ::ₘ kept.erase least) ∧
      (wcsAdd object pq).maxCount = pq.maxCount := by
  have removed := holds.pqRemoveMin isLeast mem
  have fewer : (Shedding.pqRemoveMin pq).count ≠ (Shedding.pqRemoveMin pq).maxCount := by
    have positive := Multiset.card_pos_iff_exists_mem.mpr ⟨least, mem⟩
    have count_eq := holds.count_eq
    simp only [Shedding.pqRemoveMin, isLeast]
    omega
  obtain ⟨next, added, result, same⟩ := @pqAdd _ _ object removed fewer
  rw [wcsAdd, Shedding.pqAdd, if_pos full]
  simp only [added]
  refine ⟨result, same.trans ?_⟩
  simp [Shedding.pqRemoveMin, isLeast]

end

end Pq.Holds

/-! ## Bounded queues -/

structure Pq.Splits (pq : Pq) (limit : Nat) (all kept dropped : Multiset Wc) : Prop where
  holds : pq.Holds kept
  maxCount : pq.maxCount = limit
  card_eq : kept.card = min limit all.card
  together : all = kept + dropped

theorem splits_init (limit : Nat) : (pqInit limit).Splits limit 0 0 0 :=
  ⟨⟨rfl, fun i isPlace => by simp_all [pqInit]⟩, rfl, by simp, rfl⟩

theorem Pq.Splits.insert {pq next : Pq} {limit : Nat} {all kept dropped : Multiset Wc} {wc : Wc}
    (splits : pq.Splits limit all kept dropped) (positive : 0 < limit) (accepts : Wc → Prop)
    (room : pqIsFull pq = false → next = wcsAdd wc pq)
    (full : pqIsFull pq = true → ∀ root, pqGetMin pq = some root →
      accepts root ∧ next = wcsAdd wc pq ∨ ¬accepts root ∧ next = pq) :
    next.Splits limit (wc ::ₘ all) (wc ::ₘ kept) dropped ∧ dropped = 0 ∧ kept.card ≠ limit ∨
      ∃ root ∈ kept, pqGetMin pq = some root ∧ (∀ other ∈ kept, root.vvSquared ≤ other.vvSquared) ∧
        (accepts root ∧ next.Splits limit (wc ::ₘ all) (wc ::ₘ kept.erase root) (root ::ₘ dropped) ∨
          ¬accepts root ∧ next = pq ∧ pq.Splits limit (wc ::ₘ all) kept (wc ::ₘ dropped)) := by
  obtain ⟨holds, isLimit, card_eq, rfl⟩ := splits
  have count_eq := holds.count_eq
  rw [Multiset.card_add] at card_eq
  by_cases isFull : pq.count = pq.maxCount
  · obtain ⟨root, mem, isRoot, isLeast⟩ := holds.exists_least (by
      rintro rfl
      rw [Multiset.card_zero] at count_eq
      omega)
    refine Or.inr ⟨root, mem, isRoot, isLeast, ?_⟩
    rcases full (by simpa [pqIsFull] using isFull) root isRoot with ⟨yes, rfl⟩ | ⟨no, rfl⟩
    · obtain ⟨added, same⟩ := @Pq.Holds.wcsAdd_full _ _ wc _ holds isFull isRoot mem
      refine Or.inl ⟨yes, added, same.trans isLimit, ?_, ?_⟩
      · rw [Multiset.card_cons, Multiset.card_cons, Multiset.card_erase_add_one mem,
          Multiset.card_add]
        omega
      · rw [Multiset.cons_add, Multiset.add_cons, ← Multiset.cons_add root, Multiset.cons_erase mem]
    · refine Or.inr ⟨no, rfl, holds, isLimit, ?_, (Multiset.add_cons _ _ _).symm⟩
      rw [Multiset.card_cons, Multiset.card_add]
      omega
  · obtain rfl := room (by simpa [pqIsFull] using isFull)
    obtain ⟨added, same⟩ := @Pq.Holds.wcsAdd_room _ _ wc holds isFull
    obtain rfl : dropped = 0 := Multiset.card_eq_zero.mp (by omega)
    refine Or.inl ⟨⟨added, same.trans isLimit, ?_, (Multiset.cons_add _ _ _).symm⟩, rfl, by omega⟩
    simp only [Multiset.card_cons, add_zero]
    omega

/-! ## Offering coefficients -/

/-- How `drecur` treats a coefficient. -/
def offer (coefs : Pq) (wc : Wc) : Pq :=
  if wc.v = 0 ∨ (pqIsFull coefs = true ∧ (pqGetMin coefs).isSome = true ∧
      wcLess (some wc) (pqGetMin coefs) = true) then coefs
  else wcsAdd wc coefs

def Pq.Keeps (pq : Pq) (limit : Nat) (all : Multiset Wc) : Prop :=
  ∃ kept dropped, pq.Splits limit all kept dropped ∧
    ∀ item ∈ kept, ∀ less ∈ dropped, less.vvSquared ≤ item.vvSquared

section Offering

variable {pq : Pq} {limit : Nat} {all : Multiset Wc}

theorem Pq.Keeps.offer (keeps : pq.Keeps limit all) (positive : 0 < limit) {wc : Wc}
    (nonzero : wc.v ≠ 0) : (offer pq wc).Keeps limit (wc ::ₘ all) := by
  obtain ⟨kept, dropped, splits, greatest⟩ := keeps
  rcases @Pq.Splits.insert _ (Shedding.offer pq wc) _ _ _ _ wc splits positive
    (fun root => root.vvSquared ≤ wc.vvSquared)
    (fun room => by simp [Shedding.offer, nonzero, room])
    (fun full root isRoot => by
      by_cases above : root.vvSquared ≤ wc.vvSquared
      · exact Or.inl ⟨above, by simp [Shedding.offer, nonzero, isRoot, wcLess, not_lt.mpr above]⟩
      · exact Or.inr ⟨above, by simp [Shedding.offer, full, isRoot, wcLess, not_le.mp above]⟩)
    with ⟨next, rfl, -⟩ | ⟨root, mem, -, isLeast, ⟨above, next⟩ | ⟨below, same, next⟩⟩
  · exact ⟨_, _, next, fun _ _ => by simp⟩
  · refine ⟨_, _, next, Multiset.forall_mem_cons.mpr ⟨?_, fun item isKept => ?_⟩⟩
    · exact Multiset.forall_mem_cons.mpr ⟨above, fun less isLess =>
        (greatest root mem less isLess).trans above⟩
    · have old := Multiset.mem_of_mem_erase isKept
      exact Multiset.forall_mem_cons.mpr ⟨isLeast item old, greatest item old⟩
  · rw [same]
    exact ⟨_, _, next, fun item isKept => Multiset.forall_mem_cons.mpr
      ⟨(not_le.mp below).le.trans (isLeast item isKept), greatest item isKept⟩⟩

theorem Pq.Keeps.foldl_offer (keeps : pq.Keeps limit all) (positive : 0 < limit)
    (wcs : List Wc) : (wcs.foldl Shedding.offer pq).Keeps limit
      (↑(wcs.filter fun wc => wc.v ≠ 0) + all) := by
  induction wcs generalizing pq all with
  | nil => simpa using keeps
  | cons wc wcs ih =>
    by_cases zero : wc.v = 0
    · have same : Shedding.offer pq wc = pq := if_pos (Or.inl zero)
      simpa [same, zero] using ih keeps
    · have next := ih (keeps.offer positive zero)
      rw [Multiset.add_cons, ← Multiset.cons_add, Multiset.cons_coe] at next
      simpa [zero] using next

theorem keeps_init (limit : Nat) : (pqInit limit).Keeps limit 0 :=
  ⟨0, 0, splits_init limit, by simp⟩

end Offering

end TelegraphCQ.Shedding
