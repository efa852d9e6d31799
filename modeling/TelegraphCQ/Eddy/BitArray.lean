import Mathlib.Order.Interval.Finset.Nat

/-!
# Bit arrays

The operations of `bit.c` on arrays of bits, some of which go through the bits below a number and
some through all bytes that hold them.  The latter see the unused bits of the last byte as well.
-/

namespace TelegraphCQ.Eddy

open Function Finset

abbrev BitArray := Nat → BitVec 8

/-- The macro `BASIZE`: how many bytes hold `num` bits. -/
def baSize (num : Nat) : Nat :=
  num / 8 + if num % 8 ≠ 0 then 1 else 0

/-- The first bit of a byte is its highest one. -/
def bitMask (bitIndex : Nat) : BitVec 8 :=
  1#8 <<< (7 - bitIndex % 8)

def eachByte (byte : BitVec 8 → Nat → BitVec 8) (res : BitArray) (num : Nat) : BitArray :=
  (List.range (baSize num)).foldl (fun res idx => update res idx (byte (res idx) idx)) res

def bitArrayAnd (left right res : BitArray) (num : Nat) : BitArray :=
  eachByte (fun _ idx => left idx &&& right idx) res num

def bitArrayAndSelf (left right : BitArray) (num : Nat) : BitArray :=
  eachByte (fun byte idx => byte &&& right idx) left num

def bitArrayOr (left right res : BitArray) (num : Nat) : BitArray :=
  eachByte (fun _ idx => left idx ||| right idx) res num

def bitArrayOrSelf (left right : BitArray) (num : Nat) : BitArray :=
  eachByte (fun byte idx => byte ||| right idx) left num

def bitArrayNot (target source : BitArray) (num : Nat) : BitArray :=
  eachByte (fun _ idx => ~~~source idx) target num

def bitArrayNotSelf (left : BitArray) (num : Nat) : BitArray :=
  eachByte (fun byte _ => ~~~byte) left num

def bitArrayEqual (src dest : BitArray) (num : Nat) : Bool :=
  (List.range (baSize num)).all fun idx => src idx == dest idx

def bitArrayContained (big small : BitArray) (num : Nat) : Bool :=
  (List.range (baSize num)).all fun idx => small idx &&& big idx == small idx

def bitArraySetBit (bitArray : BitArray) (bitIndex : Nat) : BitArray :=
  update bitArray (bitIndex / 8) (bitArray (bitIndex / 8) ||| bitMask bitIndex)

def bitArrayClearBit (bitArray : BitArray) (bitIndex : Nat) : BitArray :=
  update bitArray (bitIndex / 8) (bitArray (bitIndex / 8) &&& ~~~bitMask bitIndex)

def bitArrayBitIsSet (bitArray : BitArray) (bitIndex : Nat) : Bool :=
  bitArray (bitIndex / 8) &&& bitMask bitIndex != 0#8

def bitArraySetAll (bitArray : BitArray) (numElements : Nat) : BitArray :=
  (List.range numElements).foldl bitArraySetBit bitArray

def bitArrayClearAll (bitArray : BitArray) (numElements : Nat) : BitArray :=
  (List.range numElements).foldl bitArrayClearBit bitArray

def bitArrayRealClearAll (bitArray : BitArray) (numElements : Nat) : BitArray :=
  eachByte (fun _ _ => 0#8) bitArray numElements

def bitArrayIsAnySet (bitArray : BitArray) (numElements : Nat) : Bool :=
  (List.range (baSize numElements)).any fun i => bitArray i != 0#8

def bitArrayIsAnyCleared (bitArray : BitArray) (numElements : Nat) : Bool :=
  (List.range (baSize numElements)).any fun i => bitArray i != 0xFF#8

def bitArrayNumSet (bitArray : BitArray) (numElements : Nat) : Nat :=
  (List.range numElements).foldl
    (fun num i => if bitArrayBitIsSet bitArray i then num + 1 else num) 0

/-! ## Sets of bits -/

def bitsBelow (num : Nat) (bitArray : BitArray) : Finset Nat :=
  (range num).filter fun i => bitArrayBitIsSet bitArray i

def unused (num : Nat) : Finset Nat := Ico num (8 * baSize num)

def unusedBits (num : Nat) (bitArray : BitArray) : Finset Nat :=
  (unused num).filter fun i => bitArrayBitIsSet bitArray i

variable {a b : BitArray} {num i : Nat}

theorem le_baSize (num : Nat) : num ≤ 8 * baSize num := by
  unfold baSize
  split <;> omega

theorem bitIsSet_eq (a : BitArray) (i : Nat) :
    bitArrayBitIsSet a i = (a (i / 8)).getLsbD (7 - i % 8) := by
  have nonzero : BitVec.twoPow 8 (7 - i % 8) ≠ 0#8 := by
    intro zero
    have selected := congrArg (fun byte => byte.getLsbD (7 - i % 8)) zero
    simp only [BitVec.getLsbD_twoPow, BitVec.getLsbD_zero, decide_true, Bool.and_true,
      decide_eq_false_iff_not] at selected
    omega
  rw [bitArrayBitIsSet, bitMask, ← BitVec.twoPow_eq, BitVec.and_twoPow]
  cases (a (i / 8)).getLsbD (7 - i % 8) with
  | true => simpa using nonzero
  | false => rfl

theorem mem_bitsBelow : i ∈ bitsBelow num a ↔ i < num ∧ (a (i / 8)).getLsbD (7 - i % 8) = true := by
  rw [bitsBelow, mem_filter, mem_range, bitIsSet_eq]

theorem getLsbD_bitMask (i j : Nat) : (bitMask i).getLsbD (7 - j % 8) = decide (j % 8 = i % 8) := by
  rw [bitMask, ← BitVec.twoPow_eq, BitVec.getLsbD_twoPow, Bool.eq_iff_iff]
  simp only [Bool.and_eq_true, decide_eq_true_eq]
  omega

variable {byte : BitVec 8} {value : Bool}

theorem update_bit (written : ∀ j, j / 8 = i / 8 → byte.getLsbD (7 - j % 8) =
      if j % 8 = i % 8 then value else (a (i / 8)).getLsbD (7 - j % 8)) (j : Nat) :
    bitArrayBitIsSet (update a (i / 8) byte) j = if j = i then value else bitArrayBitIsSet a j := by
  rw [bitIsSet_eq, bitIsSet_eq]
  by_cases sameByte : j / 8 = i / 8
  · have same : j % 8 = i % 8 ↔ j = i := by omega
    rw [sameByte, update_self, written j sameByte]
    simp [same]
  · have other : j ≠ i := fun same => sameByte (by rw [same])
    rw [update_of_ne sameByte, if_neg other]

theorem setBit_bit (a : BitArray) (i j : Nat) :
    bitArrayBitIsSet (bitArraySetBit a i) j = if j = i then true else bitArrayBitIsSet a j := by
  refine update_bit (fun j _ => ?_) j
  rw [BitVec.getLsbD_or, getLsbD_bitMask]
  split <;> simp [*]

theorem clearBit_bit (a : BitArray) (i j : Nat) : bitArrayBitIsSet (bitArrayClearBit a i) j =
      if j = i then false else bitArrayBitIsSet a j := by
  refine update_bit (fun j _ => ?_) j
  have inByte : 7 - j % 8 < 8 := by omega
  rw [BitVec.getLsbD_and, BitVec.getLsbD_not, getLsbD_bitMask]
  split <;> simp [*]

theorem foldl_bit {write : BitArray → Nat → BitArray}
    (written : ∀ a i j, bitArrayBitIsSet (write a i) j =
      if j = i then value else bitArrayBitIsSet a j) (a : BitArray) (inside : i < num) :
    bitArrayBitIsSet ((List.range num).foldl write a) i = value := by
  induction num with
  | zero => omega
  | succ num ih =>
    rw [List.range_succ, List.foldl_append, List.foldl_cons, List.foldl_nil, written]
    split
    · rfl
    · exact ih (by omega)

theorem numSet_eq (a : BitArray) (num : Nat) : bitArrayNumSet a num = (bitsBelow num a).card := by
  induction num with
  | zero => rfl
  | succ num ih =>
    rw [bitArrayNumSet] at ih ⊢
    rw [List.range_succ, List.foldl_append, ih, bitsBelow, bitsBelow, range_add_one,
      filter_insert, List.foldl_cons, List.foldl_nil]
    split
    · rw [card_insert_of_notMem (by simp)]
    · rfl

/-! ## Bytes -/

theorem mem_eachByte (byte : BitVec 8 → Nat → BitVec 8) (res : BitArray) :
    i ∈ bitsBelow num (eachByte byte res num) ↔
      i < num ∧ (byte (res (i / 8)) (i / 8)).getLsbD (7 - i % 8) = true := by
  have written : ∀ n idx, (List.range n).foldl
      (fun res idx => update res idx (byte (res idx) idx)) res idx =
        if idx < n then byte (res idx) idx else res idx := by
    intro n
    induction n with
    | zero => exact fun idx => rfl
    | succ n ih =>
      intro idx
      rw [List.range_succ, List.foldl_append, List.foldl_cons, List.foldl_nil, update_apply, ih, ih]
      split <;> split <;> split <;> first | rfl | omega | simp [*]
  have whole := le_baSize num
  rw [bitsBelow, mem_filter, mem_range, and_congr_right_iff]
  intro inside
  rw [bitIsSet_eq, eachByte, written, if_pos (by omega)]

theorem equal_iff_bits (a b : BitArray) (num : Nat) : bitArrayEqual a b num = true ↔
      (∀ i ∈ range num, bitArrayBitIsSet a i = bitArrayBitIsSet b i) ∧
        ∀ i ∈ unused num, bitArrayBitIsSet a i = bitArrayBitIsSet b i := by
  have whole := le_baSize num
  simp only [bitArrayEqual, List.all_eq_true, List.mem_range, beq_iff_eq, mem_range, unused,
    mem_Ico]
  constructor
  · intro same
    have all : ∀ i < 8 * baSize num, bitArrayBitIsSet a i = bitArrayBitIsSet b i := by
      intro i inside
      rw [bitIsSet_eq, bitIsSet_eq, same (i / 8) (by omega)]
    exact ⟨fun i below => all i (by omega), fun i bounds => all i bounds.2⟩
  · rintro ⟨used, notUsed⟩ idx inside
    refine BitVec.eq_of_getLsbD_eq fun j small => ?_
    have bit : bitArrayBitIsSet a (8 * idx + (7 - j)) = bitArrayBitIsSet b (8 * idx + (7 - j)) := by
      by_cases below : 8 * idx + (7 - j) < num
      · exact used _ below
      · exact notUsed _ ⟨by omega, by omega⟩
    have atByte : (8 * idx + (7 - j)) / 8 = idx := by omega
    have atBit : 7 - (8 * idx + (7 - j)) % 8 = j := by omega
    rwa [bitIsSet_eq, bitIsSet_eq, atByte, atBit] at bit

theorem filter_eq_iff (s : Finset Nat) :
    (s.filter fun i => bitArrayBitIsSet a i) = s.filter (fun i => bitArrayBitIsSet b i) ↔
      ∀ i ∈ s, bitArrayBitIsSet a i = bitArrayBitIsSet b i := by
  rw [Finset.ext_iff]
  refine forall_congr' fun i => ?_
  rw [mem_filter, mem_filter, and_congr_right_iff, ← Bool.eq_iff_iff]

theorem equal_iff (a b : BitArray) (num : Nat) : bitArrayEqual a b num = true ↔
      bitsBelow num a = bitsBelow num b ∧ unusedBits num a = unusedBits num b := by
  rw [equal_iff_bits, bitsBelow, bitsBelow, unusedBits, unusedBits, filter_eq_iff, filter_eq_iff]

theorem contained_iff (a b : BitArray) (num : Nat) : bitArrayContained a b num = true ↔
      bitsBelow num b ⊆ bitsBelow num a ∧ unusedBits num b ⊆ unusedBits num a := by
  have isEqual : bitArrayContained a b num = bitArrayEqual (fun idx => b idx &&& a idx) b num := rfl
  have bit : ∀ i, bitArrayBitIsSet (fun idx => b idx &&& a idx) i = bitArrayBitIsSet b i ↔
      (bitArrayBitIsSet b i = true → bitArrayBitIsSet a i = true) := by
    intro i
    rw [bitIsSet_eq, bitIsSet_eq, bitIsSet_eq, BitVec.getLsbD_and, Bool.and_eq_left_iff_imp]
  rw [isEqual, equal_iff_bits]
  simp only [bit, bitsBelow, unusedBits, subset_iff, mem_filter]
  refine and_congr (forall_congr' fun i => ?_) (forall_congr' fun i => ?_)
  all_goals tauto

theorem any_iff (a : BitArray) (num : Nat) (constant : ∀ j < 8, byte.getLsbD j = value) :
    ((List.range (baSize num)).any fun i => a i != byte) = true ↔
      ¬(bitsBelow num a = (range num).filter (fun _ => value) ∧
        unusedBits num a = (unused num).filter fun _ => value) := by
  have bit : ∀ i, bitArrayBitIsSet (fun _ => byte) i = value := fun i => by
    rw [bitIsSet_eq, constant _ (by omega)]
  have equal := equal_iff a (fun _ => byte) num
  simp only [bitsBelow, unusedBits, bit] at equal
  rw [bitsBelow, unusedBits, ← equal, bitArrayEqual, Bool.not_eq_true, ← Bool.not_eq_true']
  simp [List.any_eq_not_all_not]

/-- An operation goes by the bits below a number: what it says about all of them is right, unless
the unused bits say something else. -/
structure BitsAgree (num : Nat) (a b : BitArray) : Prop where
  setAll : bitsBelow num (bitArraySetAll a num) = range num
  clearAll : bitsBelow num (bitArrayClearAll a num) = ∅
  realClearAll : bitsBelow num (bitArrayRealClearAll a num) = ∅
  isAnySet : bitArrayIsAnySet a num = true ↔ bitsBelow num a ≠ ∅
  isAnyCleared : bitArrayIsAnyCleared a num = true ↔ bitsBelow num a ≠ range num
  numSet : bitArrayNumSet a num = (bitsBelow num a).card
  equal : bitArrayEqual a b num = true ↔ bitsBelow num a = bitsBelow num b
  contained : bitArrayContained a b num = true ↔ bitsBelow num b ⊆ bitsBelow num a
  both : ∀ res, bitsBelow num (bitArrayAnd a b res num) = bitsBelow num a ∩ bitsBelow num b
  bothSelf : bitsBelow num (bitArrayAndSelf a b num) = bitsBelow num a ∩ bitsBelow num b
  either : ∀ res, bitsBelow num (bitArrayOr a b res num) = bitsBelow num a ∪ bitsBelow num b
  eitherSelf : bitsBelow num (bitArrayOrSelf a b num) = bitsBelow num a ∪ bitsBelow num b
  complement : ∀ target, bitsBelow num (bitArrayNot target a num) = range num \ bitsBelow num a
  complementSelf : bitsBelow num (bitArrayNotSelf a num) = range num \ bitsBelow num a

/-- Where the bits below the number have nothing to show, the unused bits have nothing to show
either. -/
structure UnusedAgree (num : Nat) (a b : BitArray) : Prop where
  isAnySet : bitsBelow num a = ∅ → unusedBits num a = ∅
  isAnyCleared : bitsBelow num a = range num → unusedBits num a = unused num
  equal : bitsBelow num a = bitsBelow num b → unusedBits num a = unusedBits num b
  contained : bitsBelow num b ⊆ bitsBelow num a → unusedBits num b ⊆ unusedBits num a

/-- The operations agree with those on the sets of bits below the number exactly when the unused
bits of the last byte agree with them. -/
theorem bits_agree_iff (num : Nat) (a b : BitArray) : BitsAgree num a b ↔ UnusedAgree num a b := by
  have anySet : bitArrayIsAnySet a num = true ↔
      ¬(bitsBelow num a = ∅ ∧ unusedBits num a = ∅) := by
    simpa [bitArrayIsAnySet] using
      any_iff a num (show ∀ j < 8, (0#8).getLsbD j = false by decide)
  have anyCleared : bitArrayIsAnyCleared a num = true ↔
      ¬(bitsBelow num a = range num ∧ unusedBits num a = unused num) := by
    simpa [bitArrayIsAnyCleared] using
      any_iff a num (show ∀ j < 8, (0xFF#8).getLsbD j = true by decide)
  have both : ∀ i, i < num ∧ (a (i / 8) &&& b (i / 8)).getLsbD (7 - i % 8) = true ↔
      i ∈ bitsBelow num a ∩ bitsBelow num b := fun i => by
    rw [mem_inter, mem_bitsBelow, mem_bitsBelow, BitVec.getLsbD_and, Bool.and_eq_true]
    tauto
  have either : ∀ i, i < num ∧ (a (i / 8) ||| b (i / 8)).getLsbD (7 - i % 8) = true ↔
      i ∈ bitsBelow num a ∪ bitsBelow num b := fun i => by
    rw [mem_union, mem_bitsBelow, mem_bitsBelow, BitVec.getLsbD_or, Bool.or_eq_true]
    tauto
  have complement : ∀ i, i < num ∧ (~~~a (i / 8)).getLsbD (7 - i % 8) = true ↔
      i ∈ range num \ bitsBelow num a := fun i => by
    have inByte : 7 - i % 8 < 8 := by omega
    rw [mem_sdiff, mem_range, mem_bitsBelow, BitVec.getLsbD_not]
    simp only [inByte, decide_true, Bool.true_and, Bool.not_eq_true', not_and, Bool.not_eq_true]
    tauto
  constructor
  · intro agrees
    refine ⟨fun none => ?_, fun all => ?_, fun same => ?_, fun subset => ?_⟩
    · by_contra some
      exact agrees.isAnySet.mp (anySet.mpr fun both => some both.2) none
    · by_contra notAll
      exact agrees.isAnyCleared.mp (anyCleared.mpr fun both => notAll both.2) all
    · exact ((equal_iff a b num).mp (agrees.equal.mpr same)).2
    · exact ((contained_iff a b num).mp (agrees.contained.mpr subset)).2
  · intro agrees
    refine ⟨?_, ?_, ?_, anySet.trans (not_congr (and_iff_left_of_imp agrees.isAnySet)),
      anyCleared.trans (not_congr (and_iff_left_of_imp agrees.isAnyCleared)), numSet_eq a num,
      (equal_iff a b num).trans (and_iff_left_of_imp agrees.equal),
      (contained_iff a b num).trans (and_iff_left_of_imp agrees.contained), ?_, ?_, ?_, ?_, ?_,
      ?_⟩
    · refine filter_true_of_mem fun i inside => ?_
      rw [bitArraySetAll, foldl_bit setBit_bit a (mem_range.mp inside)]
    · refine filter_false_of_mem fun i inside => ?_
      rw [bitArrayClearAll, foldl_bit clearBit_bit a (mem_range.mp inside)]
      simp
    · ext i
      rw [bitArrayRealClearAll, mem_eachByte]
      simp
    · exact fun res => Finset.ext fun i => (mem_eachByte ..).trans (both i)
    · exact Finset.ext fun i => (mem_eachByte ..).trans (both i)
    · exact fun res => Finset.ext fun i => (mem_eachByte ..).trans (either i)
    · exact Finset.ext fun i => (mem_eachByte ..).trans (either i)
    · exact fun target => Finset.ext fun i => (mem_eachByte ..).trans (complement i)
    · exact Finset.ext fun i => (mem_eachByte ..).trans (complement i)

/-- A single bit is set in a byte that was cleared before; the seven unused ones count as cleared. -/
theorem unused_bits_seen :
    bitsBelow 1 (bitArraySetAll (fun _ => 0#8) 1) = range 1 ∧
      bitArrayIsAnyCleared (bitArraySetAll (fun _ => 0#8) 1) 1 = true := by
  decide

end TelegraphCQ.Eddy
