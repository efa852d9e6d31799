import Mathlib.Algebra.Order.Group.Multiset

/-!
# Allocated objects and pin counts

A heap is the list of live addresses.  Some of the objects carry a pin count, the number
of references to them; an object whose count has gone down to zero is freed by a sweep.
The allocator is any function that returns an address that is not live, so that an address
may come back after it was freed.
-/

namespace TelegraphCQ.Foundation

open List

abbrev Address := Nat

/-- The address for the `n`-th allocation, given what is live. -/
structure Allocator where
  give : Nat → List Address → Address
  fresh : ∀ n live, give n live ∉ live

structure Pinned where
  live : List Address
  pins : List (Address × Nat)
  allocations : Nat
  deriving DecidableEq, Repr

inductive PinFault where
  | notLive
  | alreadyPinned
  | outOfSlots
  | notPinned
  | pinBelowOne
  deriving DecidableEq, Repr

namespace Pinned

def keys (mem : Pinned) : List Address := mem.pins.map Prod.fst

def alloc (allocator : Allocator) (mem : Pinned) : Address × Pinned :=
  let address := allocator.give mem.allocations mem.live
  (address, { mem with live := address :: mem.live, allocations := mem.allocations + 1 })

def free (address : Address) (mem : Pinned) : Except PinFault Pinned :=
  if address ∈ mem.live then .ok { mem with live := mem.live.erase address }
  else .error .notLive

def register (slots : Nat) (address : Address) (mem : Pinned) : Except PinFault Pinned :=
  if address ∈ mem.keys then .error .alreadyPinned
  else if mem.pins.length < slots then .ok { mem with pins := mem.pins ++ [(address, 0)] }
  else .error .outOfSlots

def setPin (address : Address) (change : Nat → Nat) (mem : Pinned) : Pinned :=
  { mem with
    pins := mem.pins.map fun pin =>
      if pin.1 = address then (pin.1, change pin.2) else pin }

def pin (address : Address) (mem : Pinned) : Except PinFault Pinned :=
  if address ∈ mem.keys then .ok (mem.setPin address (· + 1)) else .error .notPinned

def unpin (address : Address) (mem : Pinned) : Except PinFault Pinned :=
  match mem.pins.lookup address with
  | none => .error .notPinned
  | some 0 => .error .pinBelowOne
  | some _ => .ok (mem.setPin address (· - 1))

def pinAll (addresses : List Address) (mem : Pinned) : Except PinFault Pinned :=
  addresses.foldlM (fun mem address => mem.pin address) mem

def unpinAll (addresses : List Address) (mem : Pinned) : Except PinFault Pinned :=
  addresses.foldlM (fun mem address => mem.unpin address) mem

def sweep (mem : Pinned) : Except PinFault Pinned := do
  let unpinned := (mem.pins.filter fun pin => pin.2 = 0).map Prod.fst
  let mem ← unpinned.foldlM (fun mem address => mem.free address) mem
  return { mem with pins := mem.pins.filter fun pin => pin.2 ≠ 0 }

/-! ## Exact counts -/

structure Counted (mem : Pinned) (objects references : Multiset Address) : Prop where
  live : (mem.live : Multiset Address) = (mem.keys : Multiset Address) + objects
  nodup : mem.live.Nodup
  count : ∀ pin ∈ mem.pins, pin.2 = references.count pin.1
  covered : ∀ address ∈ references, address ∈ mem.keys

variable {mem : Pinned} {objects references : Multiset Address} {address : Address}

section

variable (counted : Counted mem objects references)
include counted

theorem Counted.nodup_sum : ((mem.keys : Multiset Address) + objects).Nodup := by
  rw [← counted.live]
  exact Multiset.coe_nodup.mpr counted.nodup

theorem Counted.alloc (allocator : Allocator) : (mem.alloc allocator).1 ∉ mem.live ∧
      Counted (mem.alloc allocator).2 ((mem.alloc allocator).1 ::ₘ objects) references ∧
      (mem.alloc allocator).2.pins = mem.pins := by
  have fresh := allocator.fresh mem.allocations mem.live
  refine ⟨fresh, ⟨?_, nodup_cons.mpr ⟨fresh, counted.nodup⟩, counted.count, counted.covered⟩, rfl⟩
  simp only [Pinned.alloc, Pinned.keys, Multiset.add_cons, ← Multiset.cons_coe]
  exact congrArg _ counted.live

theorem Counted.free (object : address ∈ objects) : ∃ next, mem.free address = .ok next ∧
      Counted next (objects.erase address) references ∧ next.pins = mem.pins := by
  have isLive : address ∈ mem.live := by
    rw [← Multiset.mem_coe, counted.live, Multiset.mem_add]
    exact .inr object
  refine ⟨_, if_pos isLive, ⟨?_, counted.nodup.erase _, counted.count, counted.covered⟩, rfl⟩
  simp only [Pinned.keys, ← Multiset.coe_erase, counted.live]
  exact Multiset.erase_add_right_pos _ object

end

theorem keys_setPin (change : Nat → Nat) : (mem.setPin address change).keys = mem.keys := by
  simp only [keys, setPin, map_map]
  apply map_congr_left
  intro pin _
  simp only [Function.comp]
  split_ifs <;> rfl

theorem mem_setPin {change : Nat → Nat} {pin : Address × Nat}
    (mem_ : pin ∈ (mem.setPin address change).pins) :
    ∃ old ∈ mem.pins, pin = if old.1 = address then (old.1, change old.2) else old := by
  obtain ⟨old, isOld, rfl⟩ := mem_map.mp mem_
  exact ⟨old, isOld, rfl⟩

section

variable (counted : Counted mem objects references)
include counted

theorem Counted.setPin {change : Nat → Nat} {references' : Multiset Address}
    (self : change (references.count address) = references'.count address)
    (others : ∀ other, other ≠ address → references.count other = references'.count other)
    (covered : ∀ other ∈ references', other ∈ mem.keys) :
    Counted (mem.setPin address change) objects references' := by
  refine ⟨?_, counted.nodup, ?_, ?_⟩
  · rw [keys_setPin]
    exact counted.live
  · intro pin isPin
    obtain ⟨old, isOld, rfl⟩ := mem_setPin isPin
    have counts := counted.count old isOld
    by_cases isAddress : old.1 = address
    · rw [if_pos isAddress, counts, isAddress]
      exact self
    · rw [if_neg isAddress, counts]
      exact others old.1 isAddress
  · rw [keys_setPin]
    exact covered

theorem Counted.pin (isKey : address ∈ mem.keys) :
    ∃ next, mem.pin address = .ok next ∧ Counted next objects (address ::ₘ references) ∧
      next.keys = mem.keys := by
  refine ⟨_, if_pos isKey, counted.setPin ?_ ?_ ?_, keys_setPin _⟩
  · rw [Multiset.count_cons_self]
  · intro other different
    rw [Multiset.count_cons_of_ne different]
  · intro other isOther
    rcases Multiset.mem_cons.mp isOther with rfl | old
    · exact isKey
    · exact counted.covered other old

theorem Counted.lookup (isKey : address ∈ mem.keys) :
    mem.pins.lookup address = some (references.count address) := by
  obtain ⟨pin, isPin, rfl⟩ := mem_map.mp isKey
  cases found : mem.pins.lookup pin.1 with
  | none =>
    rw [lookup_eq_none_iff] at found
    simp at found
    exact absurd rfl (found pin.1 pin.2 isPin)
  | some count =>
    rw [lookup_eq_some_iff] at found
    obtain ⟨before, after, isSplit, -⟩ := found
    have isMem : (pin.1, count) ∈ mem.pins := by simp [isSplit]
    rw [← counted.count _ isMem]

theorem Counted.unpin (referred : address ∈ references) : ∃ next, mem.unpin address = .ok next ∧
      Counted next objects (references.erase address) ∧ next.keys = mem.keys := by
  have positive := Multiset.count_pos.mpr referred
  have found := counted.lookup (counted.covered address referred)
  refine ⟨mem.setPin address (· - 1), ?_, counted.setPin ?_ ?_ ?_, keys_setPin _⟩
  · simp only [Pinned.unpin, found]
    cases count : references.count address with
    | zero => omega
    | succ n => rfl
  · rw [Multiset.count_erase_self]
  · intro other different
    rw [Multiset.count_erase_of_ne different]
  · intro other isOther
    exact counted.covered other (Multiset.mem_of_mem_erase isOther)

end

theorem Counted.pinAll (addresses : List Address) (counted : Counted mem objects references)
    (areKeys : ∀ address ∈ addresses, address ∈ mem.keys) :
    ∃ next, mem.pinAll addresses = .ok next ∧
      Counted next objects (references + (addresses : Multiset Address)) ∧ next.keys = mem.keys := by
  induction addresses generalizing mem references with
  | nil => exact ⟨mem, rfl, by simpa using counted, rfl⟩
  | cons address addresses ih =>
    obtain ⟨next, pinned, countedNext, keysNext⟩ := counted.pin (areKeys address mem_cons_self)
    obtain ⟨final, pinnedAll, countedFinal, keysFinal⟩ := ih countedNext (by
      intro other isOther
      rw [keysNext]
      exact areKeys other (mem_cons_of_mem _ isOther))
    refine ⟨final, ?_, ?_, keysFinal.trans keysNext⟩
    · simp only [Pinned.pinAll, foldlM_cons, pinned, bind, Except.bind]
      exact pinnedAll
    · rw [← Multiset.cons_coe, Multiset.add_cons, ← Multiset.cons_add]
      exact countedFinal

theorem Counted.unpinAll (addresses : List Address)
    (counted : Counted mem objects (references + (addresses : Multiset Address))) :
    ∃ next, mem.unpinAll addresses = .ok next ∧ Counted next objects references ∧
      next.keys = mem.keys := by
  induction addresses generalizing mem with
  | nil => exact ⟨mem, rfl, by simpa using counted, rfl⟩
  | cons address addresses ih =>
    rw [← Multiset.cons_coe, Multiset.add_cons] at counted
    obtain ⟨next, unpinned, countedNext, keysNext⟩ := counted.unpin (Multiset.mem_cons_self _ _)
    rw [Multiset.erase_cons_head] at countedNext
    obtain ⟨final, unpinnedAll, countedFinal, keysFinal⟩ := ih countedNext
    refine ⟨final, ?_, countedFinal, keysFinal.trans keysNext⟩
    simp only [Pinned.unpinAll, foldlM_cons, unpinned, bind, Except.bind]
    exact unpinnedAll

theorem Counted.register {slots : Nat}
    (counted : Counted mem (address ::ₘ objects) references) (room : mem.pins.length < slots) :
    ∃ next, mem.register slots address = .ok next ∧ Counted next objects references ∧
      next.keys = mem.keys ++ [address] := by
  have disjoint := (Multiset.nodup_add.mp counted.nodup_sum).2.2
  have notKey : address ∉ mem.keys := fun isKey =>
    Multiset.disjoint_left.mp disjoint isKey (Multiset.mem_cons_self _ _)
  refine ⟨{ mem with pins := mem.pins ++ [(address, 0)] }, ?_, ⟨?_, counted.nodup, ?_, ?_⟩,
    by simp [keys]⟩
  · simp [Pinned.register, notKey, room]
  · have live := counted.live
    simp only [keys, map_append, map_cons, map_nil] at live ⊢
    rw [live, ← Multiset.coe_add, Multiset.coe_singleton, add_assoc, Multiset.singleton_add]
  · refine forall_mem_append.mpr ⟨counted.count, forall_mem_singleton.mpr ?_⟩
    exact (Multiset.count_eq_zero.mpr fun referred =>
      notKey (counted.covered address referred)).symm
  · intro other isOther
    simp only [keys, map_append, mem_append]
    exact .inl (counted.covered other isOther)

theorem free_all (addresses : List Address) (rest : Multiset Address) (live : mem.live.Nodup)
    (areLive : (addresses : Multiset Address) + rest = mem.live) :
    ∃ next, addresses.foldlM (fun mem address => Pinned.free address mem) mem = .ok next ∧
      (next.live : Multiset Address) = rest ∧ next.live.Nodup ∧ next.pins = mem.pins := by
  induction addresses generalizing mem with
  | nil => exact ⟨mem, rfl, by simpa using areLive.symm, live, rfl⟩
  | cons address addresses ih =>
    have isLive : address ∈ mem.live := by
      rw [← Multiset.mem_coe, ← areLive]
      simp
    have left : (addresses : Multiset Address) + rest = mem.live.erase address := by
      rw [← Multiset.coe_erase, ← areLive, ← Multiset.cons_coe, Multiset.cons_add,
        Multiset.erase_cons_head]
    obtain ⟨next, freed, isRest, nodup, pins⟩ :=
      @ih { mem with live := mem.live.erase address } (live.erase _) left
    refine ⟨next, ?_, isRest, nodup, pins⟩
    simp only [foldlM_cons, Pinned.free, isLive, if_true, bind, Except.bind]
    exact freed

theorem Counted.sweep (counted : Counted mem objects references) :
    ∃ next, mem.sweep = .ok next ∧ Counted next objects references ∧
      ∀ address ∈ next.keys, address ∈ references := by
  have split : ((mem.pins.filter fun pin => pin.2 = 0).map Prod.fst : Multiset Address) +
      ((mem.pins.filter fun pin => pin.2 ≠ 0).map Prod.fst : Multiset Address) = mem.keys := by
    rw [keys, ← Multiset.map_coe, ← Multiset.map_coe, ← Multiset.map_coe, ← Multiset.map_add]
    congr 1
    simpa using Multiset.filter_add_not (fun pin : Address × Nat => pin.2 = 0)
      (mem.pins : Multiset (Address × Nat))
  have areLive : ((mem.pins.filter fun pin => pin.2 = 0).map Prod.fst : Multiset Address) +
      (((mem.pins.filter fun pin => pin.2 ≠ 0).map Prod.fst : Multiset Address) + objects) =
        mem.live := by
    rw [counted.live, ← split, add_assoc]
  obtain ⟨next, freed, live, nodup, pins⟩ := free_all _ _ counted.nodup areLive
  refine ⟨{ next with pins := next.pins.filter fun pin => pin.2 ≠ 0 }, ?_, ⟨?_, nodup, ?_, ?_⟩, ?_⟩
  · simp only [Pinned.sweep, freed, bind, Except.bind]
    rfl
  · simp [keys, pins, live]
  · intro pin isPin
    rw [pins] at isPin
    exact counted.count pin (mem_of_mem_filter isPin)
  · intro address referred
    obtain ⟨pin, isPin, rfl⟩ := mem_map.mp (counted.covered address referred)
    simp only [keys, pins, mem_map]
    refine ⟨pin, mem_filter.mpr ⟨isPin, ?_⟩, rfl⟩
    have := Multiset.count_pos.mpr referred
    rw [counted.count pin isPin]
    simp only [decide_eq_true_eq]
    omega
  · intro address isKey
    obtain ⟨pin, isPin, rfl⟩ := mem_map.mp isKey
    simp only [pins] at isPin
    obtain ⟨isOld, positive⟩ := mem_filter.mp isPin
    rw [counted.count pin isOld] at positive
    simp only [decide_eq_true_eq] at positive
    exact Multiset.count_ne_zero.mp positive

end Pinned

theorem le_foldr_max {live : List Address} {address : Address} (isLive : address ∈ live) :
    address ≤ live.foldr max 0 := by
  induction live with
  | nil => cases isLive
  | cons first live ih =>
    rcases mem_cons.mp isLive with rfl | later
    · exact le_max_left _ _
    · exact le_max_of_le_right (ih later)

/-- An allocator that gives the address after the last one in use. -/
def stackAllocator : Allocator where
  give _ live := live.foldr max 0 + 1
  fresh _ _ isLive := Nat.not_succ_le_self _ (le_foldr_max isLive)

end TelegraphCQ.Foundation
