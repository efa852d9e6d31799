import TelegraphCQ.Flux.Tsb
import TelegraphCQ.Foundation.Permute

/-!
# The partitions of a consumer

A fault-tolerant Flux consumer has one merge position and one partition of its buffer for
each producer (`fluxmerge.h`, `nodeFluxCons_FT.c`).  The state of a consumer is moved in the
order of the machines, so that both are permuted in place, before and after.
-/

namespace TelegraphCQ.Flux

open Foundation

/-- A buffer with `p_head` and `s_head`, the entries its readers are at. -/
structure HeadedTsb (Tuple : Type) extends Tsb Tuple where
  head : Client → Nat → Nat

structure CMerge (Tuple : Type) where
  cpos : Nat
  htup : Nat → Option Tuple
  snum : Nat → Int
  ready : Nat → Bool
  nfill : Int
  useBuf : Bool
  moveToBuf : Bool

section Permutation

variable {Tuple : Type}

def swapTsbPart (a b : Nat) (tsb : HeadedTsb Tuple) : HeadedTsb Tuple :=
  { tsb with
    counts := exchange a b tsb.counts
    table := exchange a b tsb.table
    ack := fun client => exchange a b (tsb.ack client)
    head := fun client => exchange a b (tsb.head client)
    lastEnts := exchange a b tsb.lastEnts }

def permuteTsbParts (permMap : Nat → Nat) (tsb : HeadedTsb Tuple) : Option (HeadedTsb Tuple) :=
  permuteInPlace swapTsbPart permMap tsb.numParts tsb

def swapMergeLoc (a b : Nat) (cmerge : CMerge Tuple) : CMerge Tuple :=
  { cmerge with
    htup := exchange a b cmerge.htup
    snum := exchange a b cmerge.snum
    ready := exchange a b cmerge.ready }

def permuteCmerge (permMap : Nat → Nat) (size : Nat) (cmerge : CMerge Tuple) :
    Option (CMerge Tuple) :=
  permuteInPlace swapMergeLoc permMap size cmerge

/-! ## All that belongs to one position -/

structure TsbPart where
  count : Int
  table : Nat
  ack : Client → Nat
  head : Client → Nat
  lastEnt : Option Nat

def HeadedTsb.partAt (tsb : HeadedTsb Tuple) (part : Nat) : TsbPart :=
  ⟨tsb.counts part, tsb.table part, fun client => tsb.ack client part,
    fun client => tsb.head client part, tsb.lastEnts part⟩

structure MergeLoc (Tuple : Type) where
  htup : Option Tuple
  snum : Int
  ready : Bool

def CMerge.locAt (cmerge : CMerge Tuple) (idx : Nat) : MergeLoc Tuple :=
  ⟨cmerge.htup idx, cmerge.snum idx, cmerge.ready idx⟩

def HeadedTsb.SharesWith (tsb other : HeadedTsb Tuple) : Prop :=
  tsb =
    { other with
      counts := tsb.counts, table := tsb.table, ack := tsb.ack, head := tsb.head
      lastEnts := tsb.lastEnts }

def CMerge.SharesWith (cmerge other : CMerge Tuple) : Prop :=
  cmerge = { other with htup := cmerge.htup, snum := cmerge.snum, ready := cmerge.ready }

theorem partAt_swapTsbPart (a b : Nat) (tsb : HeadedTsb Tuple) :
    (swapTsbPart a b tsb).partAt = exchange a b tsb.partAt := by
  funext part
  simp [HeadedTsb.partAt, swapTsbPart, exchange_eq_swap]

theorem locAt_swapMergeLoc (a b : Nat) (cmerge : CMerge Tuple) :
    (swapMergeLoc a b cmerge).locAt = exchange a b cmerge.locAt := by
  funext idx
  simp [CMerge.locAt, swapMergeLoc, exchange_eq_swap]

theorem swapTsbPart_shares (a b : Nat) (tsb other : HeadedTsb Tuple)
    (shares : tsb.SharesWith other) : (swapTsbPart a b tsb).SharesWith other := by
  rw [HeadedTsb.SharesWith] at shares ⊢
  rw [shares]
  rfl

theorem swapMergeLoc_shares (a b : Nat) (cmerge other : CMerge Tuple)
    (shares : cmerge.SharesWith other) : (swapMergeLoc a b cmerge).SharesWith other := by
  rw [CMerge.SharesWith] at shares ⊢
  rw [shares]
  rfl

/-- Whatever its cycles are, a permutation brings each partition, and each merge position, as
a whole to its destination, and leaves what is not of one position alone. -/
theorem partitions_permuted (tsb : HeadedTsb Tuple) (partMap : Nat → Nat)
    (partsPermuted : Set.BijOn partMap (Set.Iio tsb.numParts) (Set.Iio tsb.numParts))
    (cmerge : CMerge Tuple) (size : Nat) (locMap : Nat → Nat)
    (locsPermuted : Set.BijOn locMap (Set.Iio size) (Set.Iio size)) :
    (∃ tsb', permuteTsbParts partMap tsb = some tsb' ∧ tsb'.SharesWith tsb ∧
      ∀ p < tsb.numParts, tsb'.partAt (partMap p) = tsb.partAt p) ∧
    ∃ cmerge', permuteCmerge locMap size cmerge = some cmerge' ∧ cmerge'.SharesWith cmerge ∧
      ∀ p < size, cmerge'.locAt (locMap p) = cmerge.locAt p := by
  constructor
  · obtain ⟨tsb', runs, shares, moved, _⟩ :=
      permuteInPlace_spec partAt_swapTsbPart
        (fun a b state => swapTsbPart_shares a b state tsb) partsPermuted
        (show tsb.SharesWith tsb from rfl)
    exact ⟨tsb', runs, shares, moved⟩
  · obtain ⟨cmerge', runs, shares, moved, _⟩ :=
      permuteInPlace_spec locAt_swapMergeLoc
        (fun a b state => swapMergeLoc_shares a b state cmerge) locsPermuted
        (show cmerge.SharesWith cmerge from rfl)
    exact ⟨cmerge', runs, shares, moved⟩

/-- Four partitions, of which three are moved in a cycle. -/
def rotatedThree : Nat → Nat
  | 0 => 2
  | 1 => 0
  | 2 => 1
  | p => p

def fourPartitions : HeadedTsb Nat :=
  { heap := fun _ => ⟨none, none, -1, none, none⟩
    maxSize := 0, numParts := 4, size := 8, counts := fun part => part, table := fun part => part
    ack := fun _ part => part, head := fun _ part => part
    fHead := none, fTail := none, lastEnts := fun part => some (part + 4) }

def fourLocations : CMerge Nat :=
  ⟨0, some, fun idx => idx, fun idx => idx == 0, 1, false, false⟩

theorem partitions_permuted_rotated :
    (∃ tsb', permuteTsbParts rotatedThree fourPartitions = some tsb' ∧
      tsb'.SharesWith fourPartitions ∧
      ∀ p < 4, tsb'.partAt (rotatedThree p) = fourPartitions.partAt p) ∧
    ∃ cmerge', permuteCmerge rotatedThree 4 fourLocations = some cmerge' ∧
      cmerge'.SharesWith fourLocations ∧
      ∀ p < 4, cmerge'.locAt (rotatedThree p) = fourLocations.locAt p := by
  have permutes : Set.BijOn rotatedThree (Set.Iio 4) (Set.Iio 4) := by
    refine ⟨?_, ?_, ?_⟩
    · have within : ∀ p < 4, rotatedThree p < 4 := by decide
      exact fun p p_lt => within p p_lt
    · have apart : ∀ p < 4, ∀ q < 4, rotatedThree p = rotatedThree q → p = q := by decide
      exact fun p p_lt q q_lt same => apart p p_lt q q_lt same
    · have reached : ∀ p < 4, ∃ q < 4, rotatedThree q = p := by decide
      exact fun p p_lt => reached p p_lt
  exact partitions_permuted fourPartitions rotatedThree permutes fourLocations 4 rotatedThree
    permutes

end Permutation

end TelegraphCQ.Flux
