import Mathlib.Algebra.Order.Ring.Abs
import TelegraphCQ.Shedding.WaveletQueue

/-!
# The union of two wavelet summaries

`real_wcs_union` copies the enabled coefficients of both summaries into a queue for 256 of them.
A copy has the value and the support.  Its normalized magnitude, by which the queue compares, is
never set: it is what the memory of the copy held before.  If the queue is full, a coefficient
takes the place of the one at the root if it is less.
-/

namespace TelegraphCQ.Shedding

open Foundation List Function

structure Di where
  name : String
  min : ℚ
  max : ℚ

structure Wcs where
  m : Nat
  coefs : Pq
  dims : List Di

def Wcs.nodes (wcs : Wcs) : List Wc := wcs.coefs.nodeList.filterMap id

def copyWc (leftOver : ℚ) (srcWc : Wc) : Wc := ⟨true, srcWc.v, leftOver, srcWc.dims⟩

def insertCopy (coefs : Pq) (newWc : Wc) : Pq :=
  if pqIsFull coefs then
    match pqGetMin coefs with
    | none => coefs
    | some minWc => if |newWc.v| < |minWc.v| then wcsAdd newWc coefs else coefs
  else wcsAdd newWc coefs

/-- The memory of the copies held `leftOver`. -/
def copyCoefs (leftOver : Nat → ℚ) : List Wc → Nat → Pq → Pq
  | [], _, coefs => coefs
  | srcWc :: rest, copied, coefs =>
    if srcWc.e = true then
      copyCoefs leftOver rest (copied + 1)
        (insertCopy coefs (copyWc (leftOver copied) srcWc))
    else copyCoefs leftOver rest copied coefs

def realWcsUnion (leftOver : Nat → ℚ) (wcs1 wcs2 : Wcs) : Wcs where
  m := 4
  coefs := copyCoefs leftOver (wcs1.nodes ++ wcs2.nodes) 0 (pqInit 256)
  dims := zipWith (fun di1 di2 => ⟨di1.name, min di1.min di2.min, max di1.max di2.max⟩)
    wcs1.dims wcs2.dims

def Wc.content (wc : Wc) : ℚ × List Dn := (wc.v, wc.dims)

def enabled (wcs1 wcs2 : Wcs) : List Wc := (wcs1.nodes ++ wcs2.nodes).filter (·.e)

/-- The union has all enabled coefficients or, if they are more than 256, as many of them, and
none that was dropped is greater than one that is there. -/
def UnionKeepsGreatest (leftOver : Nat → ℚ) (wcs1 wcs2 : Wcs) : Prop :=
  (realWcsUnion leftOver wcs1 wcs2).nodes.length = min 256 (enabled wcs1 wcs2).length ∧
    ∃ dropped, ((realWcsUnion leftOver wcs1 wcs2).nodes.map Wc.content ++ dropped).Perm
        ((enabled wcs1 wcs2).map Wc.content) ∧
      ∀ wc ∈ (realWcsUnion leftOver wcs1 wcs2).nodes, ∀ less ∈ dropped, |less.1| ≤ |wc.v|

/-! ## Copies -/

def copies (leftOver : Nat → ℚ) (srcs : List Wc) (start : Nat) : List Wc :=
  (srcs.zipIdx start).map fun src => copyWc (leftOver src.2) src.1

theorem copyCoefs_eq (leftOver : Nat → ℚ) (srcs : List Wc) (start : Nat) (coefs : Pq) :
    copyCoefs leftOver srcs start coefs =
      (copies leftOver (srcs.filter (·.e)) start).foldl insertCopy coefs := by
  induction srcs generalizing start coefs with
  | nil => rfl
  | cons src srcs ih =>
    rw [copyCoefs]
    by_cases isEnabled : src.e = true
    · rw [if_pos isEnabled, ih, filter_cons_of_pos isEnabled]
      rfl
    · rw [if_neg isEnabled, ih, filter_cons_of_neg isEnabled]

theorem map_content_copies (leftOver : Nat → ℚ) (srcs : List Wc) (start : Nat) :
    (copies leftOver srcs start).map Wc.content = srcs.map Wc.content := by
  have srcs_eq := congrArg (map Wc.content) (zipIdx_map_fst start srcs)
  rw [map_map] at srcs_eq
  rw [copies, map_map]
  exact srcs_eq

/-! ## What is kept and what is dropped -/

def DropsGreater (kept dropped : Multiset Wc) : Prop :=
  ∃ wc ∈ kept, ∃ greater ∈ dropped, |wc.v| < |greater.v|

/-- Once a greater coefficient is dropped, the union stays wrong.  So after the queue is full all
others must have the magnitude of its root. -/
theorem Pq.Splits.foldl {pq : Pq} {all kept dropped : Multiset Wc}
    (splits : pq.Splits 256 all kept dropped) (wcs : List Wc) :
    ∃ kept' dropped', (wcs.foldl insertCopy pq).Splits 256 (↑wcs + all) kept' dropped' ∧
      (DropsGreater kept dropped → DropsGreater kept' dropped') ∧
      (kept.card = 256 → ∀ root, pqGetMin pq = some root →
        ∀ wc ∈ wcs, |wc.v| ≠ |root.v| → DropsGreater kept' dropped') := by
  induction wcs generalizing pq all kept dropped with
  | nil => exact ⟨kept, dropped, by simpa using splits, id, fun _ _ _ => nofun⟩
  | cons wc wcs ih =>
    rw [← Multiset.cons_coe, Multiset.cons_add, ← Multiset.add_cons]
    rcases @Pq.Splits.insert _ (insertCopy pq wc) _ _ _ _ wc splits (by decide)
      (fun root => |wc.v| < |root.v|) (fun room => by simp [insertCopy, room])
      (fun full root isRoot => by
        by_cases less : |wc.v| < |root.v|
        · exact Or.inl ⟨less, by simp [insertCopy, full, isRoot, less]⟩
        · exact Or.inr ⟨less, by simp [insertCopy, full, isRoot, less]⟩)
      with ⟨next, rfl, room⟩ | ⟨least, mem, isLeast, -, ⟨less, next⟩ | ⟨above, same, next⟩⟩
    · obtain ⟨kept', dropped', splits', -⟩ := ih next
      refine ⟨kept', dropped', splits', ?_, fun full => absurd full room⟩
      rintro ⟨item, -, greater, isNone, -⟩
      exact absurd isNone (Multiset.notMem_zero greater)
    · obtain ⟨kept', dropped', splits', worse, -⟩ := ih next
      have wrong := worse ⟨wc, by simp, least, by simp, less⟩
      exact ⟨kept', dropped', splits', fun _ => wrong, fun _ _ _ _ _ _ => wrong⟩
    · obtain ⟨kept', dropped', splits', worse, others⟩ := ih next
      refine ⟨kept', dropped', by rwa [foldl_cons, same], ?_, fun full root isRoot => ?_⟩
      · rintro ⟨item, isKept, greater, isDropped, below⟩
        exact worse ⟨item, isKept, greater, Multiset.mem_cons_of_mem isDropped, below⟩
      · obtain rfl := Option.some.inj (isLeast.symm.trans isRoot)
        refine forall_mem_cons.mpr ⟨fun other => worse ?_, others full least isRoot⟩
        exact ⟨least, mem, wc, by simp, lt_of_le_of_ne (not_lt.mp above) other.symm⟩

/-! ## Unions -/

section Unions

variable {leftOver : Nat → ℚ} {wcs1 wcs2 : Wcs}

theorem unionKeepsGreatest_iff {kept dropped : Multiset Wc}
    (splits : ((copies leftOver (enabled wcs1 wcs2) 0).foldl insertCopy (pqInit 256)).Splits 256
      (copies leftOver (enabled wcs1 wcs2) 0) kept dropped) :
    UnionKeepsGreatest leftOver wcs1 wcs2 ↔ ¬DropsGreater kept dropped := by
  obtain ⟨holds, -, card_eq, together⟩ := splits
  have isUnion : (realWcsUnion leftOver wcs1 wcs2).coefs =
      (copies leftOver (enabled wcs1 wcs2) 0).foldl insertCopy (pqInit 256) :=
    copyCoefs_eq leftOver _ 0 _
  have isKept : ((realWcsUnion leftOver wcs1 wcs2).nodes : Multiset Wc) = kept := by
    rw [Wcs.nodes, isUnion]
    exact holds.filterMap_nodeList
  have contents := congrArg (Multiset.map Wc.content) together
  rw [Multiset.map_add, Multiset.map_coe, map_content_copies, ← isKept, Multiset.map_coe] at contents
  rw [← isKept] at card_eq ⊢
  constructor
  · rintro ⟨-, others, perm, less⟩ ⟨wc, isWc, greater, isDropped, below⟩
    rw [← Multiset.coe_eq_coe.mpr perm, ← Multiset.coe_add] at contents
    have isOther := Multiset.mem_map_of_mem Wc.content isDropped
    rw [← add_left_cancel contents] at isOther
    exact absurd (less wc isWc _ isOther) (not_le.mpr below)
  · intro right
    refine ⟨by simpa [copies] using card_eq, (dropped.map Wc.content).toList, ?_, ?_⟩
    · rw [← Multiset.coe_eq_coe, ← Multiset.coe_add, Multiset.coe_toList, contents]
    · intro wc isWc less isLess
      obtain ⟨greater, isDropped, rfl⟩ := Multiset.mem_map.mp (Multiset.mem_toList.mp isLess)
      exact not_lt.mp fun below => right ⟨wc, isWc, greater, isDropped, below⟩

/-- The root of the full queue is one of the first coefficients, one whose memory held the least,
and all later ones have its magnitude. -/
theorem same_as_root (right : UnionKeepsGreatest leftOver wcs1 wcs2) {early late : List Wc}
    (split : enabled wcs1 wcs2 = early ++ late) (full : early.length = 256) :
    ∃ root j, (root, j) ∈ early.zipIdx ∧ (∀ k < 256, leftOver j ≤ leftOver k) ∧
      ∀ wc ∈ late, |wc.v| = |root.v| := by
  have isAll : copies leftOver (enabled wcs1 wcs2) 0 =
      copies leftOver early 0 ++ copies leftOver late 256 := by
    rw [split, copies, zipIdx_append, map_append, Nat.zero_add, full]
    rfl
  obtain ⟨kept, dropped, splits, -⟩ := (splits_init 256).foldl (copies leftOver early 0)
  obtain ⟨kept', dropped', splits', -, others⟩ := splits.foldl (copies leftOver late 256)
  rw [add_zero] at splits splits'
  rw [← foldl_append, ← isAll, Multiset.coe_add, Multiset.coe_eq_coe.mpr perm_append_comm,
    ← isAll] at splits'
  have isRight := (unionKeepsGreatest_iff splits').mp right
  obtain ⟨holds, -, card_eq, together⟩ := splits
  have seen := congrArg Multiset.card together
  simp only [Multiset.coe_card, copies, length_map, length_zipIdx, full, Nat.min_self] at seen card_eq
  rw [Multiset.card_add] at seen
  rw [Multiset.card_eq_zero.mp (show dropped.card = 0 by omega), add_zero] at together
  obtain ⟨root, isKept, isRoot, isLeast⟩ := holds.exists_least (by
    rintro rfl
    cases card_eq)
  rw [← together] at isKept isLeast
  obtain ⟨⟨src, j⟩, isSource, rfl⟩ := mem_map.mp (Multiset.mem_coe.mp isKept)
  refine ⟨src, j, isSource, fun k k_lt => ?_, fun wc isLate => ?_⟩
  · have isFirst : (early[k], k) ∈ early.zipIdx := by simp [mem_zipIdx_iff_getElem?]
    exact isLeast _ (Multiset.mem_coe.mpr (mem_map_of_mem isFirst))
  · obtain ⟨⟨other, i⟩, isOther, rfl⟩ := mem_map.mp (by rwa [← zipIdx_map_fst 256 late] at isLate)
    exact not_not.mp fun differs =>
      isRight (others card_eq _ isRoot _ (mem_map_of_mem isOther) differs)

end Unions

/-- Whatever the memory held, the union has all coefficients or the greatest, just when they are at
most 256 or have all the same magnitude. -/
theorem union_keeps_greatest_iff (wcs1 wcs2 : Wcs) :
    (∀ leftOver, UnionKeepsGreatest leftOver wcs1 wcs2) ↔
      (enabled wcs1 wcs2).length ≤ 256 ∨
        ∀ wc ∈ enabled wcs1 wcs2, ∀ other ∈ enabled wcs1 wcs2, |wc.v| = |other.v| := by
  constructor
  · intro right
    by_cases few : (enabled wcs1 wcs2).length ≤ 256
    · exact Or.inl few
    · have split := (take_append_drop 256 (enabled wcs1 wcs2)).symm
      have full : ((enabled wcs1 wcs2).take 256).length = 256 := length_take_of_le (by omega)
      generalize (enabled wcs1 wcs2).take 256 = early at split full
      generalize (enabled wcs1 wcs2).drop 256 = late at split
      -- the memory can make any of the first ones the root
      have same : ∀ src ∈ early, ∀ wc ∈ late, |wc.v| = |src.v| := by
        intro src isEarly
        obtain ⟨i, atI⟩ := mem_iff_getElem?.mp isEarly
        obtain ⟨root, j, isRoot, least, others⟩ :=
          same_as_root (right fun n => if n = i then 0 else 1) split full
        obtain ⟨i_lt, -⟩ := List.getElem?_eq_some_iff.mp atI
        obtain rfl : j = i := by
          by_contra other
          have below := least i (full ▸ i_lt)
          rw [if_neg other, if_pos rfl] at below
          exact absurd below (by norm_num)
        rw [mem_zipIdx_iff_getElem?] at isRoot
        rwa [Option.some.inj (atI.symm.trans isRoot)]
      obtain ⟨first, isFirst⟩ : ∃ first, first ∈ early := exists_mem_of_length_pos (by omega)
      obtain ⟨last, isLast⟩ : ∃ last, last ∈ late := exists_mem_of_length_pos (by
        rw [split, length_append] at few
        omega)
      have all : ∀ wc ∈ enabled wcs1 wcs2, |wc.v| = |last.v| := by
        rw [split, forall_mem_append]
        exact ⟨fun wc isEarly => (same wc isEarly last isLast).symm, fun wc isLate =>
          (same first isFirst wc isLate).trans (same first isFirst last isLast).symm⟩
      exact Or.inr fun wc isWc other isOther => (all wc isWc).trans (all other isOther).symm
  · intro condition leftOver
    obtain ⟨kept, dropped, splits, -⟩ := (splits_init 256).foldl
      (copies leftOver (enabled wcs1 wcs2) 0)
    rw [add_zero] at splits
    rw [unionKeepsGreatest_iff splits]
    obtain ⟨-, -, card_eq, together⟩ := splits
    rintro ⟨wc, isKept, greater, isDropped, below⟩
    rcases condition with few | same
    · have dropped_pos := Multiset.card_pos_iff_exists_mem.mpr ⟨greater, isDropped⟩
      have length_eq := congrArg Multiset.card together
      simp only [Multiset.coe_card, copies, length_map, length_zipIdx] at length_eq card_eq
      rw [Multiset.card_add] at length_eq
      omega
    · have source : ∀ item ∈ kept + dropped, ∃ src ∈ enabled wcs1 wcs2, src.v = item.v := by
        intro item mem
        rw [← together, Multiset.mem_coe, copies, mem_map] at mem
        obtain ⟨⟨src, i⟩, isSource, rfl⟩ := mem
        exact ⟨src, fst_mem_of_mem_zipIdx isSource, rfl⟩
      obtain ⟨first, isFirst, first_v⟩ := source wc (Multiset.mem_add.mpr (Or.inl isKept))
      obtain ⟨second, isSecond, second_v⟩ := source greater (Multiset.mem_add.mpr (Or.inr isDropped))
      rw [← first_v, ← second_v, same first isFirst second isSecond] at below
      exact lt_irrefl _ below

def cellWc (v : ℚ) (i : Nat) : Wc :=
  ⟨true, v, v ^ 2, [⟨i / 16, i / 16, i / 16, 1, 1, i / 16⟩, ⟨i % 16, i % 16, i % 16, 1, 1, i % 16⟩]⟩

def cellsOf (count : Nat) (v : ℚ) : Wcs :=
  ⟨4, ⟨256, count, fun i => some (cellWc v (i - 1))⟩, [⟨"a", 0, 15⟩, ⟨"b", 0, 15⟩]⟩

theorem enabled_cellsOf (count more : Nat) (v w : ℚ) : enabled (cellsOf count v) (cellsOf more w) =
    (List.range count).map (cellWc v) ++ (List.range more).map (cellWc w) := by
  have cells (count : Nat) (v : ℚ) : (cellsOf count v).nodes = (List.range count).map (cellWc v) := by
    simp [Wcs.nodes, Pq.nodeList, cellsOf, filterMap_map]
  rw [enabled, cells, cells, filter_eq_self.mpr]
  simp only [forall_mem_append, forall_mem_map]
  exact ⟨fun _ _ => rfl, fun _ _ => rfl⟩

/-- The queue is full of ones when a two comes, and the two is dropped. -/
theorem greater_coefficient_dropped : ¬UnionKeepsGreatest 0 (cellsOf 256 1) (cellsOf 1 2) := by
  intro right
  obtain ⟨root, j, isRoot, -, same⟩ := same_as_root right (enabled_cellsOf 256 1 1 2) (by simp)
  obtain ⟨i, -, rfl⟩ := mem_map.mp (fst_mem_of_mem_zipIdx isRoot)
  have equal := same (cellWc 2 0) (by simp)
  simp [cellWc] at equal

end TelegraphCQ.Shedding
