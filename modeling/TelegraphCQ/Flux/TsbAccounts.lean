import Mathlib.Algebra.BigOperators.Group.Finset.Basic
import TelegraphCQ.Flux.TsbPartition

/-!
# The accounts of the skew buffer

`size` counts the entries that were taken from the free list.  A partition has as many of
them as its list and its sentinel need, but one fewer when its reserve is in the list.
-/

namespace TelegraphCQ.Flux

open Foundation List Function

variable {Tuple : Type}

def Tsb.ReserveKept (tsb : Tsb Tuple) (part : Nat) : Prop :=
  0 ≤ tsb.counts part ∧ (tsb.lastEnts part = none → 0 < tsb.counts part)

/-- No entry is lost between the free list, the lists of the partitions and the reserves. -/
structure Accounts (tsb : Tsb Tuple) (free : List Nat) : Prop where
  stock : tsb.size + free.length = tsb.maxSize
  taken : ∑ part ∈ Finset.range tsb.numParts, tsb.taken part = tsb.size
  reserves : ∀ part < tsb.numParts, tsb.ReserveKept part

theorem sum_of_one_changed {n part : Nat} {f g : Nat → Int} (inside : part < n)
    (same : ∀ q, q ≠ part → g q = f q) :
    ∑ q ∈ Finset.range n, g q = ∑ q ∈ Finset.range n, f q + (g part - f part) := by
  have member := Finset.mem_range.mpr inside
  have allOfG := Finset.add_sum_erase (Finset.range n) (fun q => g q) member
  have allOfF := Finset.add_sum_erase (Finset.range n) (fun q => f q) member
  have others : ∑ q ∈ (Finset.range n).erase part, g q = ∑ q ∈ (Finset.range n).erase part, f q :=
    Finset.sum_congr rfl fun q isOther => same q (Finset.ne_of_mem_erase isOther)
  omega

section Changes

variable {tsb next : Tsb Tuple} {owner owner' : Nat → Owner} {part a : Nat} {free free' : List Nat}

section

variable (step : PartStep part tsb owner free next owner' free') (inside : part < tsb.numParts)
include step inside

theorem PartStep.taken_eq (taken : ∑ q ∈ Finset.range tsb.numParts, tsb.taken q = tsb.size) :
    ∑ q ∈ Finset.range next.numParts, next.taken q = next.size := by
  have same : ∀ q, q ≠ part → next.taken q = tsb.taken q := fun q other => by
    rw [Tsb.taken, step.untouched.counts q other, step.lastEnts q other, Tsb.taken]
  have change := step.taken
  rw [step.numParts, sum_of_one_changed inside same, taken]
  omega

theorem Accounts.after (accounts : Accounts tsb free) (kept : next.ReserveKept part) :
    Accounts next free' where
  stock := by rw [step.stock, accounts.stock, step.maxSize]
  taken := step.taken_eq inside accounts.taken
  reserves := fun q isPart => by
    by_cases here : q = part
    · rwa [here]
    · have keptThere := accounts.reserves q (step.numParts ▸ isPart)
      rwa [Tsb.ReserveKept, step.untouched.counts q here, step.lastEnts q here]

end

theorem PartKeeps.reserveKept {work : Workload Tuple} {position : Client → Nat → Nat}
    {cells : List Nat} {low : Nat} (keeps : PartKeeps work tsb owner position part cells low) :
    tsb.ReserveKept part := by
  rw [Tsb.ReserveKept, keeps.list.count]
  refine ⟨Int.natCast_nonneg _, fun none => ?_⟩
  have some := length_pos_iff.mpr (keeps.reserve none)
  omega

/-! ## Returning a reserve -/

def returned (part a : Nat) (tsb : Tsb Tuple) : Tsb Tuple :=
  { freeEntry a tsb with lastEnts := update tsb.lastEnts part none }

theorem returned_pool (pool : Pool tsb owner free) (last : tsb.lastEnts part = some a) :
    Pool (returned part a tsb) (update owner a .free) (a :: free) ∧
      ∀ q, Untouched tsb (returned part a tsb) owner (update owner a .free) q := by
  have isReserved := pool.reservedOwned part a last
  have cleared : Pool { tsb with lastEnts := update tsb.lastEnts part none } owner
      free := by
    refine ⟨pool.follows, pool.nodup, pool.tail, pool.head, pool.freeOwned, fun q b reserved => ?_⟩
    by_cases here : q = part
    · simp [here] at reserved
    · simp only [update_of_ne here] at reserved
      exact pool.reservedOwned q b reserved
  have unlisted : a ∉ free := by
    intro member
    rw [pool.freeOwned a member] at isReserved
    simp at isReserved
  have notReserved : ∀ q, update tsb.lastEnts part none q ≠ .some a := by
    intro q reserved
    by_cases here : q = part
    · simp [here] at reserved
    · rw [update_of_ne here] at reserved
      rw [pool.reservedOwned q a reserved] at isReserved
      exact here (Owner.reserved.inj isReserved)
  obtain ⟨poolNext, heap⟩ := freeEntry_spec cleared unlisted notReserved
  have notListed : ∀ q b, owner b = .list q → b ≠ a := by
    rintro q b listed rfl
    rw [isReserved] at listed
    simp at listed
  refine ⟨poolNext, fun _ => ⟨?_, ?_, fun _ _ _ => rfl, fun _ _ => rfl, fun _ _ => rfl⟩⟩
  · intro q _ b listed
    rw [update_of_ne (notListed q b listed), listed]
  · intro q _ b listed
    exact heap b (notListed q b listed)

theorem returned_partStep (pool : Pool tsb owner free) (last : tsb.lastEnts part = some a) :
    PartStep part tsb owner free (returned part a tsb) (update owner a .free)
      (a :: free) := by
  obtain ⟨poolNext, untouched⟩ := returned_pool pool last
  refine ⟨poolNext, untouched part, rfl, rfl, fun q other => update_of_ne other _ _, ?_, ?_⟩
  · simp only [returned, freeEntry, length_cons]
    push_cast
    omega
  · simp only [returned, Tsb.taken, update_self, last, freeEntry, if_true, reduceCtorEq, if_false]
    omega

end Changes

/-! ## Initialisation -/

section Initialisation

variable {work : Workload Tuple} {tsb : Tsb Tuple} {owner : Nat → Owner} {part n nparts max : Nat}

theorem follows_emptyTsb (raw : Nat → TsbEntry Tuple) (nparts max : Nat)
    (small : n ≤ max + nparts) :
    Follows (fun a => ((emptyTsb raw nparts max).heap a).next) (List.range n).reverse := by
  induction n with
  | zero => trivial
  | succ n ih =>
    rw [range_succ, reverse_append]
    refine ⟨?_, ih (by omega)⟩
    have inside : n < max + nparts := by omega
    simp only [emptyTsb, if_pos inside]
    cases n with
    | zero => rfl
    | succ n => simp [range_succ]

def initialOwner (entries address : Nat) : Owner :=
  if address < entries then .free else .reserved (address - entries)

theorem emptyTsb_pool (raw : Nat → TsbEntry Tuple) (some : 0 < max + nparts) :
    Pool (emptyTsb raw nparts max) (initialOwner (max + nparts))
      (List.range (max + nparts)).reverse := by
  obtain ⟨n, isSucc⟩ : ∃ n, max + nparts = n + 1 := ⟨max + nparts - 1, by omega⟩
  refine ⟨follows_emptyTsb raw nparts max (Nat.le_refl _), ?_, ?_, ?_, ?_, ?_⟩
  · exact nodup_reverse.mpr nodup_range
  · rw [isSucc, range_succ, reverse_append]
    simp [emptyTsb, isSucc]
  · rw [isSucc, range_succ_eq_map, reverse_cons, getLast?_concat]
    rfl
  · intro a member
    simp only [mem_reverse, mem_range] at member
    simp [initialOwner, member]
  · intro part a reserved
    simp [emptyTsb] at reserved

structure InitTakes (part a : Nat) (tsb : Tsb Tuple) (owner : Nat → Owner) (free : List Nat)
    (next : Tsb Tuple) : Prop where
  pool : Pool next (update owner a (.list part)) free
  untouched : Untouched tsb next owner (update owner a (.list part)) part
  reserved : ∀ b q, owner b = .reserved q →
    update owner a (.list part) b = .reserved q
  sentinel : next.heap a = (tsb.heap a).invalidated
  table : next.table part = a
  ack : ∀ client, next.ack client part = a
  counts : next.counts part = 0
  lastEnts : next.lastEnts = update tsb.lastEnts part (some (tsb.maxSize + part))
  size : next.size = tsb.size + 1
  maxSize : next.maxSize = tsb.maxSize
  numParts : next.numParts = tsb.numParts

variable {free : List Nat}

theorem initPart_takes {a : Nat} (pool : Pool tsb owner (a :: free))
    (reserve : owner (tsb.maxSize + part) = .reserved part) :
    InitTakes part a tsb owner free (initPart part tsb) := by
  have isFree := pool.freeOwned a (by simp)
  obtain ⟨next, taken, lastEnts, size, -, poolNext, same, -⟩ := allocEntry_cons part pool
  have elsewhere : ∀ b, owner b ≠ .free → update owner a (.list part) b = owner b := by
    intro b notFree
    apply update_of_ne
    rintro rfl
    exact notFree isFree
  have isNext : initPart part tsb = { next with
        table := update next.table part a
        ack := fun client => update (next.ack client) part a
        lastEnts := update next.lastEnts part (some (next.maxSize + part))
        counts := update next.counts part 0 } := by
    simp [initPart, taken]
  rw [isNext]
  refine ⟨?_, ⟨?_, ?_, ?_, ?_, ?_⟩, ?_, ?_, ?_, ?_, ?_, ?_, size, same.maxSize, same.numParts⟩
  · refine ⟨poolNext.follows, poolNext.nodup, poolNext.tail, poolNext.head, ?_, ?_⟩
    · intro b member
      have owned := poolNext.freeOwned b member
      have other : b ≠ a := by
        rintro rfl
        simp at owned
      rwa [update_of_ne other] at owned ⊢
    · intro q b isReserved
      by_cases here : q = part
      · have isLast : next.maxSize + part = b := by simpa [here] using isReserved
        rw [← isLast, same.maxSize, elsewhere _ (by simp [reserve]), reserve, here]
      · simp only [update_of_ne here, lastEnts] at isReserved
        have owned := pool.reservedOwned q b isReserved
        rw [elsewhere b (by simp [owned]), owned]
  · intro r _ b listed
    rw [elsewhere b (by simp [listed]), listed]
  · intro r _ b listed
    have other : b ≠ a := by
      rintro rfl
      simp [isFree] at listed
    simp [same.heap, update_of_ne other]
  · intro r other client
    simp [update_of_ne other, same.ack]
  · intro r other
    simp [update_of_ne other, same.table]
  · intro r other
    simp [update_of_ne other, same.counts]
  · intro b q isReserved
    rw [elsewhere b (by simp [isReserved]), isReserved]
  · simp [same.heap]
  · simp
  · simp
  · simp
  · simp [lastEnts, same.maxSize]

structure Fresh (tsb : Tsb Tuple) (owner : Nat → Owner) (part : Nat) : Prop where
  sentinel : ∃ entry : TsbEntry Tuple, tsb.heap (tsb.table part) = entry.invalidated
  owned : owner (tsb.table part) = .list part
  ack : ∀ client, tsb.ack client part = tsb.table part
  counts : tsb.counts part = 0
  lastEnts : tsb.lastEnts part ≠ none

structure Inits (nparts max done : Nat) (tsb : Tsb Tuple) (owner : Nat → Owner)
    (free : List Nat) : Prop where
  pool : Pool tsb owner free
  total : free.length + done = max + nparts
  maxSize : tsb.maxSize = max + nparts
  numParts : tsb.numParts = nparts
  size : tsb.size = done
  reserved : ∀ part, owner (max + nparts + part) = .reserved part
  parts : ∀ part < done, Fresh tsb owner part

theorem initPart_inits (inside : part < nparts) (inits : Inits nparts max part tsb owner free) :
    ∃ owner free, Inits nparts max (part + 1) (initPart part tsb) owner free := by
  obtain ⟨pool, total, maxSize, numParts, size, reserved, parts⟩ := inits
  cases free with
  | nil =>
    rw [length_nil] at total
    omega
  | cons a free =>
    have takes := initPart_takes pool
      (show owner (tsb.maxSize + part) = .reserved part by rw [maxSize, reserved])
    refine ⟨_, free, takes.pool, ?_, takes.maxSize.trans maxSize, takes.numParts.trans numParts, ?_,
      fun q => takes.reserved _ _ (reserved q), ?_⟩
    · rw [length_cons] at total
      omega
    · rw [takes.size, size]
      push_cast
      rfl
    · intro q before
      by_cases here : q = part
      · subst here
        refine ⟨⟨tsb.heap a, ?_⟩, ?_, fun client => ?_, takes.counts, ?_⟩
        · rw [takes.table, takes.sentinel]
        · rw [takes.table, update_self]
        · rw [takes.ack, takes.table]
        · rw [takes.lastEnts, update_self]
          simp
      · obtain ⟨⟨entry, sentinel⟩, owned, ack, counts, lastEnts⟩ := parts q (by omega)
        have untouched := takes.untouched
        have table := untouched.table q here
        refine ⟨⟨entry, ?_⟩, ?_, fun client => ?_, ?_, ?_⟩
        · rw [table, untouched.heap q here _ owned, sentinel]
        · rw [table]
          exact untouched.owners q here _ owned
        · rw [table, untouched.ack q here, ack]
        · rw [untouched.counts q here, counts]
        · rw [takes.lastEnts, update_of_ne here]
          exact lastEnts

theorem initTsb_inits (raw : Nat → TsbEntry Tuple) (some : 0 < max + nparts) :
    ∃ owner free, Inits nparts max nparts (initTsb raw nparts max) owner free := by
  have rounds : ∀ n ≤ nparts, ∃ owner free, Inits nparts max n
      ((List.range n).foldl (fun tsb part => initPart part tsb) (emptyTsb raw nparts max))
      owner free := by
    intro n
    induction n with
    | zero =>
      intro _
      refine ⟨_, _, emptyTsb_pool raw some, by simp, rfl, rfl, rfl, ?_, by simp⟩
      simp [initialOwner]
    | succ n ih =>
      intro small
      obtain ⟨owner, free, inits⟩ := ih (by omega)
      rw [range_succ, foldl_append]
      exact initPart_inits small inits
  exact rounds nparts (Nat.le_refl nparts)

theorem Inits.accounts (inits : Inits nparts max nparts tsb owner free) : Accounts tsb free := by
  have total := inits.total
  refine ⟨?_, ?_, fun part inside => ?_⟩
  · rw [inits.size, inits.maxSize]
    omega
  · have each : ∀ part ∈ Finset.range tsb.numParts, tsb.taken part = 1 := by
      intro part isPart
      rw [Finset.mem_range, inits.numParts] at isPart
      rw [Tsb.taken, (inits.parts part isPart).counts, if_neg (inits.parts part isPart).lastEnts]
      rfl
    rw [Finset.sum_congr rfl each, inits.numParts, inits.size]
    simp
  · have fresh := inits.parts part (inits.numParts ▸ inside)
    exact ⟨fresh.counts.ge, fun none => absurd none fresh.lastEnts⟩

theorem Fresh.partList (fresh : Fresh tsb owner part) : PartList tsb owner part [] := by
  obtain ⟨⟨entry, sentinel⟩, owned, -, counts, -⟩ := fresh
  exact ⟨by simp [Linked, sentinel, TsbEntry.invalidated], by simp, by simpa using owned, by simp,
    by simp [sentinel, TsbEntry.invalidated], by simp [counts]⟩

theorem Fresh.partHolds (fresh : Fresh tsb owner part) (client : .produced ∈ work.fmasks part) :
    PartHolds work tsb owner (fun _ _ => 0) part := by
  obtain ⟨⟨entry, sentinel⟩, -, ack, -, lastEnts⟩ := id fresh
  refine ⟨[], 0, ⟨fresh.partList, fun client _ => ⟨0, rfl, by simp [ack]⟩,
    ⟨.produced, client, rfl⟩, by simp, ?_, fun none => absurd none lastEnts⟩, .produced, client,
    rfl⟩
  rw [sentinel]
  rfl

end Initialisation

/-! ## Runs -/

/-- The clients of a partition number its tuples in ascending order, and an entry is
kept for the producer and at least one consumer. -/
structure Workload.Proper (work : Workload Tuple) : Prop where
  ascending : ∀ part < work.numParts, StrictMono (work.seqnum part)
  producer : ∀ part < work.numParts, .produced ∈ work.fmasks part
  consumer : ∀ part < work.numParts, ∃ client ∈ work.fmasks part, client ≠ .produced

def Workload.Allows (work : Workload Tuple) (op : SkewOp) : Prop :=
  op.part < work.numParts ∧ op.client ∈ work.fmasks op.part

variable {work : Workload Tuple}

variable {owner : Nat → Owner} {free : List Nat}

theorem PartHolds.frame {tsb next : Tsb Tuple} {owner' : Nat → Owner}
    {position position' : Client → Nat → Nat} {part q : Nat} {free' : List Nat}
    (holds : PartHolds work tsb owner position q) (other : q ≠ part)
    (step : PartStep part tsb owner free next owner' free')
    (same : ∀ client, position' client q = position client q) :
    PartHolds work next owner' position' q := by
  obtain ⟨cells, low, keeps, client, isClient, isLow⟩ := holds
  exact ⟨cells, low, keeps.frame other step same, client, isClient, (same client).trans isLow⟩

structure BufferHolds (work : Workload Tuple) (state : SkewState Tuple) (owner : Nat → Owner)
    (free : List Nat) : Prop where
  pool : Pool state.tsb owner free
  parts : ∀ part < work.numParts, PartHolds work state.tsb owner state.position part
  accounts : Accounts state.tsb free
  numParts : state.tsb.numParts = work.numParts
  maxSize : state.tsb.maxSize = work.max + work.numParts

theorem skewInit_holds (proper : work.Proper) (raw : Nat → TsbEntry Tuple)
    (some : 0 < work.numParts) :
    ∃ owner free, BufferHolds work (skewInit work raw) owner free ∧ free.length = work.max ∧
      ∀ part < work.numParts, (skewInit work raw).tsb.lastEnts part ≠ none := by
  obtain ⟨owner, free, inits⟩ := initTsb_inits raw (show 0 < work.max + work.numParts by omega)
  have total := inits.total
  exact ⟨owner, free, ⟨inits.pool, fun part inside =>
    (inits.parts part inside).partHolds (proper.producer part inside), inits.accounts,
    inits.numParts, inits.maxSize⟩, by omega, fun part inside => (inits.parts part inside).lastEnts⟩

theorem skewStep_holds (proper : work.Proper) {state : SkewState Tuple}
    (holds : BufferHolds work state owner free) {op : SkewOp}
    (allowed : work.Allows op) : ∃ next owner' free', skewStep work state op = ([], .ok next) ∧
      BufferHolds work next owner' free' := by
  obtain ⟨inside, member⟩ := allowed
  obtain ⟨result, owner', free', ran, quiet, step, holdsNext⟩ :=
    putAckTsb_spec (holds.parts op.part inside) holds.pool (proper.ascending op.part inside)
      member (proper.producer op.part inside) (proper.consumer op.part inside)
  unfold skewStep
  simp only [ran, quiet]
  refine ⟨_, owner', free', rfl, step.pool, ?_, ?_, step.numParts.trans holds.numParts,
    step.maxSize.trans holds.maxSize⟩
  · intro q isPart
    by_cases here : q = op.part
    · rw [here]
      exact holdsNext
    · apply (holds.parts q isPart).frame here step
      intro client
      simp only
      split_ifs
      · exact advance_other (.inr here)
      · rfl
  · obtain ⟨cells, low, keeps, -⟩ := holdsNext
    exact .after step (by rw [holds.numParts]; exact inside) holds.accounts keeps.reserveKept

theorem skewRun_holds (proper : work.Proper) (raw : Nat → TsbEntry Tuple) (some : 0 < work.numParts)
    {ops : List SkewOp} (allowed : ∀ op ∈ ops, work.Allows op) :
    ∃ state owner free, (skewMachine work).run (skewInit work raw) ops = ([], .ok state) ∧
      BufferHolds work state owner free := by
  have step : ∀ (ops : List SkewOp) (op : SkewOp) (shown : List TsbWarning)
      (state : SkewState Tuple), (∀ other ∈ ops ++ [op], work.Allows other) →
      (shown = [] ∧ ∃ owner free, BufferHolds work state owner free) →
      ∃ more next, (skewMachine work).step state op = (more, .ok next) ∧
        shown ++ more = [] ∧ ∃ owner free, BufferHolds work next owner free := by
    rintro ops op shown state allowed ⟨quiet, owner, free, holds⟩
    obtain ⟨next, owner', free', stepped, holdsNext⟩ :=
      skewStep_holds proper holds (allowed op (by simp))
    exact ⟨[], next, stepped, by simp [quiet], owner', free', holdsNext⟩
  obtain ⟨owner, free, holds, -⟩ := skewInit_holds proper raw some
  obtain ⟨shown, state, ran, quiet, owner, free, holdsAfter⟩ :=
    @Machine.run_total _ _ _ _ (skewMachine work) (fun ops => ∀ op ∈ ops, work.Allows op)
      (fun _ shown state => shown = [] ∧ ∃ owner free, BufferHolds work state owner free)
      (fun ops op valid other member => valid other (List.mem_append_left _ member))
      step _ ⟨rfl, owner, free, holds⟩ ops allowed
  exact ⟨state, owner, free, by rw [ran, quiet], holdsAfter⟩

end TelegraphCQ.Flux
