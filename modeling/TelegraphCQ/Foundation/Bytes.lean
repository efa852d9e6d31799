import Mathlib.Data.List.Basic
import Mathlib.Tactic.Ring

/-!
# Byte-addressed memory and consecutive blocks

A memory is a total map from addresses to bytes.  `Holds` says which bytes are
found at an address, and `Laid` says that a list of blocks occupies an interval
without gaps; both survive a write to any other interval.  Words are stored with
the least significant byte first.
-/

namespace TelegraphCQ.Foundation

open List

abbrev Memory := Int → UInt8

namespace Memory

def write (mem : Memory) (addr : Int) (bytes : List UInt8) : Memory := fun i =>
  if addr ≤ i then (bytes[(i - addr).toNat]?).getD (mem i) else mem i

def Holds (mem : Memory) (addr : Int) (bytes : List UInt8) : Prop :=
  ∀ (i : Nat) (h : i < bytes.length), mem (addr + i) = bytes[i]

variable {mem : Memory} {addr i other first last : Int} {bytes written : List UInt8}
  {width value : Nat} {blocks : List (List UInt8)}

theorem write_before (before : i < addr) : mem.write addr bytes i = mem i := by
  simp [write, Int.not_le.mpr before]

theorem write_after (after : addr + bytes.length ≤ i) : mem.write addr bytes i = mem i := by
  unfold write
  split
  · rw [getElem?_eq_none (by omega)]
    rfl
  · rfl

theorem write_inside (mem : Memory) (addr : Int) {i : Nat} (inside : i < bytes.length) :
    mem.write addr bytes (addr + i) = bytes[i] := by
  simp [write, inside]

theorem holds_write (mem : Memory) (addr : Int) (bytes : List UInt8) :
    (mem.write addr bytes).Holds addr bytes := by
  intro i h
  exact write_inside mem addr h

theorem write_comm (mem : Memory) {others : List UInt8} (apart : addr + bytes.length ≤ other) :
    (mem.write addr bytes).write other others = (mem.write other others).write addr bytes := by
  funext i
  by_cases before : i < other
  · rw [write_before before]
    by_cases below : i < addr
    · rw [write_before below, write_before below, write_before before]
    · by_cases inside : i < addr + bytes.length
      · obtain ⟨k, rfl⟩ : ∃ k : Nat, i = addr + k := ⟨(i - addr).toNat, by omega⟩
        have small : k < bytes.length := by omega
        rw [write_inside _ _ small, write_inside _ _ small]
      · rw [write_after (by omega), write_after (by omega), write_before before]
  · have after : addr + bytes.length ≤ i := by omega
    rw [write_after after]
    by_cases inside : i < other + others.length
    · obtain ⟨k, rfl⟩ : ∃ k : Nat, i = other + k := ⟨(i - other).toNat, by omega⟩
      have small : k < others.length := by omega
      rw [write_inside _ _ small, write_inside _ _ small]
    · rw [write_after (by omega), write_after after, write_after (by omega)]

theorem Holds.write_other (holds : mem.Holds addr bytes)
    (apart : addr + bytes.length ≤ other ∨ other + written.length ≤ addr) :
    (mem.write other written).Holds addr bytes := by
  intro i h
  rw [← holds i h]
  cases apart with
  | inl left => exact write_before (by omega)
  | inr right => exact write_after (by omega)

theorem holds_append {mem : Memory} {addr : Int} {left right : List UInt8} :
    mem.Holds addr (left ++ right) ↔
      mem.Holds addr left ∧ mem.Holds (addr + left.length) right := by
  constructor
  · intro holds
    constructor
    · intro i h
      rw [holds i (by simp; omega), getElem_append_left h]
    · intro i h
      have found := holds (left.length + i) (by simp; omega)
      rw [getElem_append_right (by omega)] at found
      simpa [Int.add_assoc] using found
  · intro holds i h
    by_cases inLeft : i < left.length
    · rw [holds.1 i inLeft, getElem_append_left inLeft]
    · have found := holds.2 (i - left.length) (by simp at h; omega)
      rw [getElem_append_right (by omega), ← found]
      congr 1
      omega

theorem holds_cons {byte : UInt8} : mem.Holds addr (byte :: bytes) ↔
      mem addr = byte ∧ mem.Holds (addr + 1) bytes := by
  have split := @holds_append mem addr [byte] bytes
  simp only [singleton_append, length_singleton] at split
  rw [split]
  simp [Holds]

def view (mem : Memory) (addr : Int) : Memory := fun i => mem (addr + i)

theorem holds_view : (mem.view addr).Holds 0 bytes ↔ mem.Holds addr bytes := by
  simp [Holds, view]

/-! ## Words -/

def wordBytes : Nat → Nat → List UInt8
  | 0, _ => []
  | width + 1, value => UInt8.ofNat value :: wordBytes width (value / 256)

def readWord (mem : Memory) : Nat → Int → Nat
  | 0, _ => 0
  | width + 1, addr => (mem addr).toNat + 256 * readWord mem width (addr + 1)

@[simp] theorem length_wordBytes (width value : Nat) : (wordBytes width value).length = width := by
  induction width generalizing value with
  | zero => rfl
  | succ width ih => simp [wordBytes, ih]

theorem readWord_of_holds (holds : mem.Holds addr (wordBytes width value)) :
    mem.readWord width addr = value % 256 ^ width := by
  induction width generalizing value addr with
  | zero => simp [readWord, Nat.mod_one]
  | succ width ih =>
    obtain ⟨low, high⟩ := holds_cons.mp holds
    rw [readWord, low, ih high, Nat.pow_succ, Nat.mul_comm (256 ^ width) 256, Nat.mod_mul]
    simp

def readBytes (mem : Memory) (addr : Int) (count : Nat) : List UInt8 :=
  (List.range count).map fun i : Nat => mem (addr + (i : Int))

@[simp] theorem length_readBytes (mem : Memory) (addr : Int) (count : Nat) :
    (mem.readBytes addr count).length = count := by simp [readBytes]

theorem readBytes_of_holds (holds : mem.Holds addr bytes) :
    mem.readBytes addr bytes.length = bytes := by
  refine ext_getElem (by simp) fun i short within => ?_
  simp [readBytes, holds i within]

def ofBytes (bytes : List UInt8) : Memory := fun addr => (bytes[addr.toNat]?).getD 0

theorem holds_ofBytes (bytes : List UInt8) : (ofBytes bytes).Holds 0 bytes := by
  intro i within
  simp [ofBytes, within]

theorem holds_word {words : List Nat} (holds : mem.Holds addr (words.flatMap (wordBytes width)))
    {index : Nat} (word_at : words[index]? = some value) :
    mem.Holds (addr + (width * index : Nat)) (wordBytes width value) := by
  induction words generalizing addr index with
  | nil => simp at word_at
  | cons word words ih =>
    rw [flatMap_cons] at holds
    obtain ⟨first, rest⟩ := holds_append.mp holds
    cases index with
    | zero =>
      cases word_at
      simpa using first
    | succ index =>
      rw [length_wordBytes] at rest
      have later := ih rest word_at
      have place : addr + (width : Int) + (width * index : Nat) =
          addr + (width * (index + 1) : Nat) := by
        push_cast
        ring
      rwa [place] at later

/-! ## Blocks -/

def Laid (mem : Memory) : Int → List (List UInt8) → Int → Prop
  | first, [], last => first = last
  | first, block :: blocks, last =>
    mem.Holds first block ∧ mem.Laid (first + block.length) blocks last

theorem Laid.last_eq (laid : mem.Laid first blocks last) :
    last = first + (blocks.map List.length).sum := by
  induction blocks generalizing first with
  | nil =>
    have same : first = last := laid
    simp [same]
  | cons block blocks ih =>
    rw [ih laid.2]
    simp
    omega

theorem Laid.append {mem : Memory} {first middle last : Int}
    {left right : List (List UInt8)} (laidLeft : mem.Laid first left middle)
    (laidRight : mem.Laid middle right last) : mem.Laid first (left ++ right) last := by
  induction left generalizing first with
  | nil =>
    have same : first = middle := laidLeft
    rw [same]
    exact laidRight
  | cons block left ih => exact ⟨laidLeft.1, ih laidLeft.2⟩

theorem Laid.write_other (laid : mem.Laid first blocks last)
    (apart : last ≤ other ∨ other + written.length ≤ first) :
    (mem.write other written).Laid first blocks last := by
  induction blocks generalizing first with
  | nil => exact laid
  | cons block blocks ih =>
    have extent := laid.2.last_eq
    constructor
    · exact laid.1.write_other (by omega)
    · exact ih laid.2 (by omega)

theorem Laid.of_agree {other : Memory} (laid : mem.Laid first blocks last)
    (agree : ∀ addr, first ≤ addr → addr < last → other addr = mem addr) :
    other.Laid first blocks last := by
  induction blocks generalizing first with
  | nil => exact laid
  | cons block blocks ih =>
    have extent := laid.2.last_eq
    refine ⟨fun i within => ?_, ih laid.2 fun addr after before => agree addr (by omega) before⟩
    rw [agree _ (by omega) (by omega), laid.1 i within]

end Memory

end TelegraphCQ.Foundation
