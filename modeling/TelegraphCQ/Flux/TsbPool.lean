import TelegraphCQ.Flux.Tsb
import TelegraphCQ.Foundation.Linked

/-!
# Entries of the skew buffer that are not in use

Who owns an entry of the heap (the free list, a partition or its reserve) is kept as a
ghost, so that a change in one place leaves the others alone.
-/

namespace TelegraphCQ.Flux

open Foundation List Function

variable {Tuple : Type}

theorem setAck_self (client : Client) (part a : Nat) (tsb : Tsb Tuple) :
    (tsb.setAck client part a).ack client part = a := by
  simp [Tsb.setAck]

theorem setAck_client {client other : Client} (unlike : other ≠ client) (part a : Nat)
    (tsb : Tsb Tuple) : (tsb.setAck client part a).ack other = tsb.ack other := by
  simp [Tsb.setAck, update_of_ne unlike]

variable {part q : Nat}

theorem setAck_part (elsewhere : q ≠ part) (client other : Client) (a : Nat)
    (tsb : Tsb Tuple) : (tsb.setAck client part a).ack other q = tsb.ack other q := by
  by_cases same : other = client
  · simp [Tsb.setAck, same, update_of_ne elsewhere]
  · rw [setAck_client same]

def Tsb.taken (tsb : Tsb Tuple) (part : Nat) : Int :=
  tsb.counts part + if tsb.lastEnts part = none then 0 else 1

structure Takes (part a : Nat) (tsb alloced : Tsb Tuple) : Prop where
  numParts : alloced.numParts = tsb.numParts
  maxSize : alloced.maxSize = tsb.maxSize
  counts : alloced.counts = tsb.counts
  table : alloced.table = tsb.table
  ack : alloced.ack = tsb.ack
  heap : alloced.heap = update tsb.heap a (tsb.heap a).invalidated
  source : alloced.lastEnts = tsb.lastEnts ∧ alloced.size = tsb.size + 1 ∨
    tsb.lastEnts part = some a ∧ alloced.lastEnts = update tsb.lastEnts part none ∧
      alloced.size = tsb.size

theorem allocEntryWLast_takes (part : Nat) (tsb : Tsb Tuple) :
    allocEntryWLast part tsb = (none, tsb) ∨
      ∃ a alloced, allocEntryWLast part tsb = (some a, alloced) ∧ Takes part a tsb alloced := by
  unfold allocEntryWLast allocEntry
  cases tsb.fTail with
  | some a => exact .inr ⟨a, _, rfl, rfl, rfl, rfl, rfl, rfl, rfl, .inl ⟨rfl, rfl⟩⟩
  | none =>
    cases isLast : tsb.lastEnts part with
    | none => simp [isLast]
    | some a =>
      simp only [isLast]
      exact .inr ⟨a, _, rfl, rfl, rfl, rfl, rfl, rfl, rfl, .inr ⟨isLast, rfl, rfl⟩⟩

variable {a : Nat}

theorem Takes.accounts {tsb alloced : Tsb Tuple} (takes : Takes part a tsb alloced) :
    (∀ q, q ≠ part → alloced.lastEnts q = tsb.lastEnts q) ∧
      alloced.taken part + 1 - alloced.size = tsb.taken part - tsb.size := by
  rcases takes.source with ⟨same, larger⟩ | ⟨isLast, used, same⟩
  · refine ⟨fun q _ => by rw [same], ?_⟩
    simp only [Tsb.taken, takes.counts, same, larger]
    omega
  · refine ⟨fun q other => by rw [used, update_of_ne other], ?_⟩
    simp [Tsb.taken, takes.counts, used, same, isLast]

inductive Owner where
  | free
  | reserved (part : Nat)
  | list (part : Nat)
  | nobody

variable {owner : Nat → Owner} {b : Nat}

theorem ne_of_listed (listed : owner a = .list q)
    (owned : owner b = .list part) (other : q ≠ part) : a ≠ b := by
  rintro rfl
  exact other (Owner.list.inj (listed.symm.trans owned))

theorem ne_of_free (isFree : owner a = .free) (owned : owner b = .list part) : a ≠ b := by
  rintro rfl
  cases isFree.symm.trans owned

structure Pool (tsb : Tsb Tuple) (owner : Nat → Owner) (free : List Nat) : Prop where
  follows : Follows (fun a => (tsb.heap a).next) free
  nodup : free.Nodup
  tail : tsb.fTail = free.head?
  head : tsb.fHead = free.getLast?
  freeOwned : ∀ a ∈ free, owner a = .free
  reservedOwned : ∀ part a, tsb.lastEnts part = some a → owner a = .reserved part

variable {tsb : Tsb Tuple} {owner : Nat → Owner} {free : List Nat} {a part : Nat}

theorem Pool.frame {next : Tsb Tuple} {owner' : Nat → Owner} (pool : Pool tsb owner free)
    (sameNext : ∀ a, owner a = .free → (next.heap a).next = (tsb.heap a).next)
    (sameTail : next.fTail = tsb.fTail) (sameHead : next.fHead = tsb.fHead)
    (sameLast : next.lastEnts = tsb.lastEnts) (sameFree : ∀ a, owner a = .free → owner' a = .free)
    (sameReserved : ∀ a q, owner a = .reserved q → owner' a = .reserved q) :
    Pool next owner' free where
  follows := pool.follows.congr fun a member => sameNext a (pool.freeOwned a member)
  nodup := pool.nodup
  tail := sameTail.trans pool.tail
  head := sameHead.trans pool.head
  freeOwned := fun a member => sameFree a (pool.freeOwned a member)
  reservedOwned := by
    rw [sameLast]
    exact fun part a reserved => sameReserved a part (pool.reservedOwned part a reserved)

theorem allocEntry_nil (pool : Pool tsb owner []) : allocEntry tsb = (none, tsb) := by
  have noTail : tsb.fTail = none := pool.tail
  simp [allocEntry, noTail]

structure Allotted (part a : Nat) (tsb : Tsb Tuple) (owner : Nat → Owner) (free : List Nat)
    (alloced : Tsb Tuple) (free' : List Nat) : Prop where
  ran : allocEntryWLast part tsb = (some a, alloced)
  pool : Pool alloced (update owner a .nobody) free'
  takes : Takes part a tsb alloced
  unlisted : ∀ q, owner a ≠ .list q
  stock : alloced.size + free'.length = tsb.size + free.length

theorem allocEntry_cons (part : Nat) (pool : Pool tsb owner (a :: free)) :
    ∃ alloced, allocEntry tsb = (some a, alloced) ∧ alloced.lastEnts = tsb.lastEnts ∧
      alloced.size = tsb.size + 1 ∧ Allotted part a tsb owner (a :: free) alloced free := by
  have tail : tsb.fTail = some a := pool.tail
  obtain ⟨unlisted, nodup⟩ := nodup_cons.mp pool.nodup
  obtain ⟨link, follows⟩ := pool.follows
  have isFree : owner a = .free := pool.freeOwned a (by simp)
  have ends : (if tsb.fHead = tsb.fTail then none else tsb.fHead) = free.getLast? ∧
      (if tsb.fHead = tsb.fTail then none else (tsb.heap a).next) = free.head? := by
    rw [pool.head, tail]
    cases free with
    | nil => simp
    | cons b free =>
      have differs : (a :: b :: free).getLast? ≠ some a := by
        intro same
        rw [getLast?_cons_cons] at same
        exact unlisted (mem_of_getLast? same)
      rw [if_neg differs, if_neg differs]
      exact ⟨getLast?_cons_cons, link⟩
  unfold allocEntry
  simp only [tail] at ends ⊢
  refine ⟨_, rfl, rfl, rfl, by simp [allocEntryWLast, allocEntry, tail], ?_,
    ⟨rfl, rfl, rfl, rfl, rfl, rfl, .inl ⟨rfl, rfl⟩⟩, by simp [isFree], ?_⟩
  rotate_left
  · rw [length_cons]
    push_cast
    omega
  refine ⟨?_, nodup, ends.2, ends.1, ?_, ?_⟩
  · apply follows.congr
    intro b member
    have other : b ≠ a := fun same => unlisted (same ▸ member)
    simp [update_of_ne other]
  · intro b member
    have other : b ≠ a := fun same => unlisted (same ▸ member)
    rw [update_of_ne other]
    exact pool.freeOwned b (mem_cons_of_mem _ member)
  · intro part b reserved
    have owned := pool.reservedOwned part b reserved
    have other : b ≠ a := by
      intro same
      rw [same, isFree] at owned
      simp at owned
    rw [update_of_ne other]
    exact owned

theorem allocEntryWLast_refused (pool : Pool tsb owner []) (noLast : tsb.lastEnts part = none) :
    allocEntryWLast part tsb = (none, tsb) := by
  simp [allocEntryWLast, allocEntry_nil pool, noLast]

theorem allocEntryWLast_reserve (pool : Pool tsb owner []) (last : tsb.lastEnts part = some a) :
    ∃ alloced, alloced.lastEnts = update tsb.lastEnts part none ∧
      Allotted part a tsb owner [] alloced [] := by
  have isReserved := pool.reservedOwned part a last
  refine ⟨{ tsb with
    heap := update tsb.heap a (tsb.heap a).invalidated
    lastEnts := update tsb.lastEnts part none }, rfl,
    by simp [allocEntryWLast, allocEntry_nil pool, last], ?_,
    ⟨rfl, rfl, rfl, rfl, rfl, rfl, .inr ⟨last, rfl, rfl⟩⟩, by simp [isReserved], rfl⟩
  refine ⟨trivial, nodup_nil, pool.tail, pool.head, by simp, ?_⟩
  intro q b reserved
  by_cases here : q = part
  · rw [here] at reserved
    simp at reserved
  · simp only [update_of_ne here] at reserved
    have owned := pool.reservedOwned q b reserved
    have other : b ≠ a := by
      intro same
      rw [same, isReserved] at owned
      exact here (Owner.reserved.inj owned).symm
    rw [update_of_ne other]
    exact owned

theorem allocEntryWLast_spec (part : Nat) (pool : Pool tsb owner free) :
    allocEntryWLast part tsb = (none, tsb) ∨
      ∃ a alloced free', Allotted part a tsb owner free alloced free' := by
  cases free with
  | cons a free =>
    obtain ⟨alloced, -, -, -, allotted⟩ := allocEntry_cons part pool
    exact .inr ⟨a, alloced, free, allotted⟩
  | nil =>
    cases last : tsb.lastEnts part with
    | none => exact .inl (allocEntryWLast_refused pool last)
    | some a =>
      obtain ⟨alloced, -, allotted⟩ := allocEntryWLast_reserve pool last
      exact .inr ⟨a, alloced, [], allotted⟩

theorem allocEntry_spec (part : Nat) (pool : Pool tsb owner free) :
    allocEntry tsb = (none, tsb) ∧ tsb.fTail = none ∨
      ∃ a alloced free', allocEntry tsb = (some a, alloced) ∧
        Allotted part a tsb owner free alloced free' := by
  cases free with
  | nil => exact .inl ⟨allocEntry_nil pool, pool.tail⟩
  | cons a free =>
    obtain ⟨alloced, taken, -, -, allotted⟩ := allocEntry_cons part pool
    exact .inr ⟨a, alloced, free, taken, allotted⟩

section Allotted

variable {alloced : Tsb Tuple} {free' : List Nat}
  (allotted : Allotted part a tsb owner free alloced free')
include allotted

variable {b : Nat}

theorem Allotted.heap_of_ne (other : b ≠ a) : alloced.heap b = tsb.heap b := by
  rw [allotted.takes.heap, update_of_ne other]

theorem Allotted.apart {q : Nat} (listed : owner b = .list q) : b ≠ a := by
  rintro rfl
  exact allotted.unlisted q listed

theorem linkRecord_heap (record : TsbRecord Tuple) (listed : owner (tsb.table part) = .list part) :
    (linkRecord record part a alloced).heap (tsb.table part) = { tsb.heap (tsb.table part) with
        rtup := record.rtup
        seqnum := record.seqnum
        dmask := some record.dmask
        next := some a } ∧ (linkRecord record part a alloced).heap a =
      { (tsb.heap a).invalidated with prev := some (tsb.table part) } ∧
    ∀ b, b ≠ a → b ≠ tsb.table part → (linkRecord record part a alloced).heap b = tsb.heap b := by
  have table : alloced.table part = tsb.table part := by rw [allotted.takes.table]
  have apart := allotted.apart listed
  refine ⟨?_, ?_, fun b notNew notSentinel => ?_⟩
  · simp [linkRecord, Tsb.setEntry, table, update_of_ne apart, allotted.heap_of_ne apart]
  · simp [linkRecord, Tsb.setEntry, table, update_of_ne apart.symm, allotted.takes.heap]
  · simp [linkRecord, Tsb.setEntry, table, update_of_ne notNew, update_of_ne notSentinel,
      allotted.heap_of_ne notNew]

end Allotted

theorem freeEntry_spec {e : Nat} (pool : Pool tsb owner free) (unlisted : e ∉ free)
    (notReserved : ∀ q, tsb.lastEnts q ≠ some e) :
    Pool (freeEntry e tsb) (update owner e .free) (e :: free) ∧
      ∀ a, a ≠ e → (freeEntry e tsb).heap a = tsb.heap a := by
  refine ⟨?_, fun a other => update_of_ne other _ _⟩
  refine ⟨⟨?_, ?_⟩, nodup_cons.mpr ⟨unlisted, pool.nodup⟩, rfl, ?_, ?_, ?_⟩
  · simp [freeEntry, pool.tail]
  · apply pool.follows.congr
    intro a member
    have other : a ≠ e := fun same => unlisted (same ▸ member)
    simp [freeEntry, update_of_ne other]
  · simp only [freeEntry, pool.head]
    cases free with
    | nil => simp
    | cons a free =>
      rw [getLast?_cons_cons, if_neg (by simp)]
  · intro a member
    cases mem_cons.mp member with
    | inl same => rw [same, update_self]
    | inr old =>
      have other : a ≠ e := fun same => unlisted (same ▸ old)
      rw [update_of_ne other]
      exact pool.freeOwned a old
  · intro q a reserved
    have other : a ≠ e := fun same => notReserved q (same ▸ reserved)
    rw [update_of_ne other]
    exact pool.reservedOwned q a reserved

structure Released (part e : Nat) (tsb : Tsb Tuple) (owner : Nat → Owner) (free : List Nat)
    (next : Tsb Tuple) (owner' : Nat → Owner) (free' : List Nat) : Prop where
  pool : Pool next owner' free'
  numParts : next.numParts = tsb.numParts
  maxSize : next.maxSize = tsb.maxSize
  counts : next.counts = tsb.counts
  table : next.table = tsb.table
  ack : next.ack = tsb.ack
  owners : ∀ a, a ≠ e → owner' a = owner a
  stock : next.size + free'.length = tsb.size + free.length
  heap : ∀ a, a ≠ e → next.heap a = tsb.heap a
  lastEnts : ∀ q, q ≠ part → next.lastEnts q = tsb.lastEnts q
  reserved : next.lastEnts part ≠ none
  taken : next.taken part - 1 - next.size = tsb.taken part - tsb.size

theorem freeEntryWLast_released (part e : Nat) (pool : Pool tsb owner free)
    (listed : owner e = .list part) :
    ∃ owner' free', Released part e tsb owner free (freeEntryWLast part e tsb) owner' free' := by
  have unlisted : e ∉ free := fun member => ne_of_free (pool.freeOwned e member) listed rfl
  have notReserved : ∀ q, tsb.lastEnts q ≠ some e := by
    intro q reserved
    have owned := pool.reservedOwned q e reserved
    rw [listed] at owned
    simp at owned
  cases last : tsb.lastEnts part with
  | none =>
    simp only [freeEntryWLast, last]
    refine ⟨update owner e (.reserved part), free, ?_, rfl, rfl, rfl, rfl, rfl,
      fun a other => update_of_ne other _ _, rfl, fun _ _ => rfl,
      fun q other => update_of_ne other _ _, by simp, by simp [Tsb.taken, last]⟩
    refine ⟨pool.follows, pool.nodup, pool.tail, pool.head, ?_, ?_⟩
    · intro a member
      have other : a ≠ e := fun same => unlisted (same ▸ member)
      rw [update_of_ne other]
      exact pool.freeOwned a member
    · intro q a reserved
      by_cases here : q = part
      · rw [here] at reserved ⊢
        have same : e = a := by simpa using reserved
        rw [← same, update_self]
      · simp only [update_of_ne here] at reserved
        have other : a ≠ e := fun same => notReserved q (same ▸ reserved)
        rw [update_of_ne other]
        exact pool.reservedOwned q a reserved
  | some spare =>
    simp only [freeEntryWLast, last]
    obtain ⟨poolNext, heap⟩ := freeEntry_spec pool unlisted notReserved
    refine ⟨update owner e .free, e :: free, poolNext, rfl, rfl, rfl, rfl, rfl,
      fun a other => update_of_ne other _ _, ?_, heap, fun _ _ => rfl, by simp [freeEntry, last],
      ?_⟩
    · rw [length_cons, freeEntry]
      push_cast
      omega
    · simp only [Tsb.taken, freeEntry, last, reduceCtorEq, if_false]
      omega

end TelegraphCQ.Flux
