import TelegraphCQ.Flux.TsbCursors

/-!
# Moving a skew buffer that was reached

The lists of a buffer are extracted from their first items on, and the copy has them with the
roles of the consumers exchanged if there is room for them.
-/

namespace TelegraphCQ.Flux

open Foundation List

variable {Tuple : Type}

/-! ## What is extracted -/

def entriesFrom (tsb : Tsb Tuple) : Nat → Nat → List Nat
  | 0, _ => []
  | count + 1, a => a :: ((tsb.heap a).next.elim [] (entriesFrom tsb count))

def Producer.entries (prod : Producer Tuple) (part : Nat) : List Nat :=
  entriesFrom prod.tsb (prod.tsb.counts part).toNat
    (firstTsbItem prod.tsb (prod.fmasks part) part)

variable {tsb : Tsb Tuple} {part : Nat}

theorem entriesFrom_eq {last : Nat} (cells : List Nat) {first : Nat}
    (links : Follows (fun a => (tsb.heap a).next) (cells ++ [last]))
    (isFirst : (cells ++ [last]).head? = some first) :
    entriesFrom tsb cells.length first = cells := by
  induction cells generalizing first with
  | nil => rfl
  | cons a cells ih =>
    obtain rfl : a = first := by simpa using isFirst
    obtain ⟨next, isNext⟩ : ∃ next, (cells ++ [last]).head? = some next := by
      cases cells with
      | nil => exact ⟨last, rfl⟩
      | cons b cells => exact ⟨b, rfl⟩
    have link : (tsb.heap a).next = some next := links.1.trans isNext
    rw [length_cons, entriesFrom, link, Option.elim_some, ih links.2 isNext]

variable {cells : List Nat}

theorem Listed.entries_eq {prod : Producer Tuple}
    (listed : Listed prod.tsb (prod.fmasks part) part cells) : prod.entries part = cells := by
  rw [Producer.entries, listed.count, Int.toNat_natCast]
  exact entriesFrom_eq cells listed.links listed.first

section Source

variable {work : Workload Tuple} {tsb : Tsb Tuple} {owner : Nat → Owner}
  {position : Client → Nat → Nat} {part : Nat} {cells : List Nat} {low : Nat}
  (keeps : PartKeeps work tsb owner position part cells low) (mono : StrictMono (work.seqnum part))
include keeps mono

theorem PartKeeps.firstOf_eq {i j a b : Nat} (isFirst : (cells ++ [tsb.table part])[i]? = some a)
    (isSecond : (cells ++ [tsb.table part])[j]? = some b) :
    (cells ++ [tsb.table part])[min i j]? = some (firstOf tsb a b) := by
  have sentinel := keeps.list.sentinel
  have marked : ∀ {i a}, cells[i]? = some a → (tsb.heap a).dmask ≠ none := fun isEntry =>
    keeps.list.marked _ (mem_of_getElem? isEntry)
  unfold firstOf
  rcases concat_cases isFirst with ⟨iInside, isEntry⟩ | ⟨iLast, rfl⟩
  · rw [if_neg (marked isEntry)]
    rcases concat_cases isSecond with ⟨-, isOther⟩ | ⟨jLast, rfl⟩
    · have order : (tsb.heap a).seqnum > (tsb.heap b).seqnum ↔ j < i := by
        rw [(keeps.entries i a isEntry).seqnum, (keeps.entries j b isOther).seqnum, gt_iff_lt,
          mono.lt_iff_lt, Nat.add_lt_add_iff_left]
      by_cases before : j < i
      · rw [if_pos ⟨marked isOther, order.mpr before⟩, Nat.min_eq_right before.le, isSecond]
      · rw [if_neg fun both => before (order.mp both.2), Nat.min_eq_left (Nat.le_of_not_lt before),
          isFirst]
    · rw [if_neg fun both => both.1 sentinel, Nat.min_eq_left (by omega), isFirst]
  · have inside := (List.getElem?_eq_some_iff.mp isSecond).1
    rw [length_append, length_singleton] at inside
    rw [if_pos sentinel, Nat.min_eq_right (by omega), isSecond]

variable (producer : .produced ∈ work.fmasks part)
  (lowest : ∃ client ∈ work.fmasks part, position client part = low)
include producer lowest

theorem PartKeeps.firstTsbItem_eq :
    (cells ++ [tsb.table part]).head? = some (firstTsbItem tsb (work.fmasks part) part) := by
  -- each client of the mask may bring the cursor down to its own position
  have step : ∀ client k a, (cells ++ [tsb.table part])[k]? = some a → ∃ k',
      (cells ++ [tsb.table part])[k']? = some (if client ∈ work.fmasks part then
        firstOf tsb a (tsb.ack client part) else a) ∧ k' ≤ k ∧
      (client ∈ work.fmasks part → low + k' ≤ position client part) := by
    intro client k a isCell
    by_cases on : client ∈ work.fmasks part
    · obtain ⟨i, isPosition, isCursor⟩ := keeps.cursor client on
      refine ⟨min k i, ?_, by omega, by omega⟩
      rw [if_pos on]
      exact keeps.firstOf_eq mono isCell isCursor
    · exact ⟨k, by rw [if_neg on, isCell], Nat.le_refl k, fun isClient => absurd isClient on⟩
  obtain ⟨i, isPosition, isCursor⟩ := keeps.cursor .produced producer
  obtain ⟨k, isPrimary, belowK, atPrimary⟩ := step .primary _ _ isCursor
  obtain ⟨k', isSecondary, belowK', atSecondary⟩ := step .secondary _ _ isPrimary
  obtain ⟨client, isClient, atLow⟩ := lowest
  have atFirst : low + k' ≤ low := by
    cases client with
    | produced => omega
    | primary => have := atPrimary isClient; omega
    | secondary => exact atLow ▸ atSecondary isClient
  obtain rfl : k' = 0 := by omega
  rw [head?_eq_getElem?, isSecondary]
  rfl

theorem PartKeeps.listed : Listed tsb (work.fmasks part) part cells :=
  ⟨keeps.list.linked.follows, keeps.list.sentinel, keeps.list.marked,
    keeps.firstTsbItem_eq mono producer lowest, keeps.list.count⟩

end Source

/-! ## Roles -/

theorem Client.other_other (client : Client) : client.other.other = client := by
  cases client with
  | produced => rfl
  | primary => rfl
  | secondary => rfl

theorem mem_flipTsbMask (client : Client) (mask : Finset Client) :
    client ∈ flipTsbMask mask ↔ client.other ∈ mask := by
  unfold flipTsbMask
  by_cases primary : .primary ∈ mask <;> by_cases secondary : .secondary ∈ mask <;>
    cases client <;> simp [primary, secondary, Client.other]

theorem flipTsbMask_eq (mask : Finset Client) : flipTsbMask mask = mask.image Client.other := by
  ext client
  rw [mem_flipTsbMask, Finset.mem_image]
  constructor
  · exact fun isOther => ⟨client.other, isOther, client.other_other⟩
  · rintro ⟨other, isOther, rfl⟩
    rwa [other.other_other]

/-! ## The records of a partition -/

theorem getElem?_concat {last i : Nat} (inside : i ≤ cells.length) :
    (cells ++ [last])[i]? = some (cells.getD i last) := by
  by_cases before : i < cells.length
  · rw [getElem?_append_left before, getD_eq_getElem _ _ before, getElem?_eq_getElem before]
  · obtain rfl : i = cells.length := by omega
    simp

section Records

variable {work : Workload Tuple} {tsb : Tsb Tuple} {owner : Nat → Owner}
  {position : Client → Nat → Nat} {part : Nat} {cells : List Nat} {low : Nat}

def Tsb.flippedRecords (tsb : Tsb Tuple) (cells : List Nat) : List (TsbRecord Tuple) :=
  (cells.map tsb.recordAt).map TsbRecord.flipped

theorem length_flippedRecords (cells : List Nat) :
    (tsb.flippedRecords cells).length = cells.length := by
  simp [Tsb.flippedRecords]

section

variable (keeps : PartKeeps work tsb owner position part cells low)
include keeps

theorem seqnumAt_flipped {i a : Nat} (isCell : (cells ++ [tsb.table part])[i]? = some a) :
    (tsb.heap a).seqnum = seqnumAt (tsb.flippedRecords cells) i := by
  rcases concat_cases isCell with ⟨-, isEntry⟩ | ⟨rfl, rfl⟩
  · have isRecord : (tsb.flippedRecords cells)[i]? = some (tsb.recordAt a).flipped := by
      simp [Tsb.flippedRecords, isEntry]
    rw [seqnumAt_eq isRecord]
    rfl
  · rw [← length_flippedRecords, seqnumAt_length, keeps.unused]

theorem PartKeeps.flipped {record : TsbRecord Tuple} (isRecord : record ∈ tsb.flippedRecords cells) :
    ∃ i < cells.length, record.seqnum = work.seqnum part (low + i) ∧
      record.dmask = (work.marks position part (low + i)).image Client.other := by
  obtain ⟨a, isMoved, rfl⟩ := mem_map.mp isRecord
  obtain ⟨b, isCell, rfl⟩ := mem_map.mp isMoved
  obtain ⟨i, isEntry⟩ := mem_iff_getElem?.mp isCell
  have cell := keeps.entries i b isEntry
  refine ⟨i, (List.getElem?_eq_some_iff.mp isEntry).1, cell.seqnum, ?_⟩
  simp [TsbRecord.flipped, Tsb.recordAt, cell.dmask, flipTsbMask_eq]

theorem findable_flipped (mono : StrictMono (work.seqnum part))
    (numbered : ∀ k, work.seqnum part k ≠ -1) : Findable (tsb.flippedRecords cells) := by
  refine ⟨?_, ?_, ?_⟩
  · rw [Tsb.flippedRecords, map_map, map_map]
    exact keeps.ascending mono
  · intro record isRecord
    obtain ⟨i, -, isSeqnum, -⟩ := keeps.flipped isRecord
    rw [isSeqnum]
    exact numbered _
  · intro record isRecord
    obtain ⟨i, below, -, isMask⟩ := keeps.flipped isRecord
    obtain ⟨client, isClient, atHigh⟩ := keeps.highest
    have marked : client ∈ work.marks position part (low + i) :=
      Finset.mem_filter.mpr ⟨isClient, by omega⟩
    rw [isMask]
    exact (Finset.Nonempty.image ⟨client, marked⟩ Client.other).ne_empty

theorem unmarked_flipped {client : Client} (off : client ∉ flipTsbMask (work.fmasks part)) :
    ∀ record ∈ tsb.flippedRecords cells, client ∉ record.dmask := by
  intro record isRecord
  obtain ⟨i, -, -, isMask⟩ := keeps.flipped isRecord
  rw [isMask, ← flipTsbMask_eq, mem_flipTsbMask]
  rw [mem_flipTsbMask] at off
  exact fun marked => off (Finset.mem_filter.mp marked).1

end

theorem BuiltPart.listing {records : List (TsbRecord Tuple)}
    (built : BuiltPart tsb owner part cells records) :
    Listing tsb.heap (fun k => cells.getD k (tsb.table part)) records := by
  obtain ⟨list, -, rfl⟩ := built
  refine ⟨fun k inside => ?_, ?_, fun k record isRecord => ?_⟩
  · rw [length_map] at inside
    have isCell := getElem?_eq_getElem inside
    obtain ⟨link, isLink, isNext⟩ := list.next_at isCell
    rw [getElem?_concat inside] at isLink
    rw [getD_eq_getElem _ _ inside, isNext, isLink]
  · rw [length_map]
    simpa using list.sentinel
  · rw [getElem?_map, Option.map_eq_some_iff] at isRecord
    obtain ⟨a, isCell, rfl⟩ := isRecord
    obtain ⟨dmask, isMask⟩ := Option.ne_none_iff_exists'.mp (list.marked a (mem_of_getElem? isCell))
    simp only [getD_eq_getElem?_getD, isCell, Option.getD_some]
    exact ⟨rfl, by rw [isMask, Tsb.recordAt, isMask]; rfl, rfl⟩

end Records

/-! ## The movement -/

/-- Every entry of a list belongs to it alone, and the accounts are balanced. -/
def Accounted (tsb : Tsb Tuple) (lists : Nat → List Nat) : Prop :=
  ∃ owner free, Pool tsb owner free ∧ Accounts tsb free ∧
    ∀ part < tsb.numParts, ∀ a ∈ lists part ++ [tsb.table part], owner a = .list part

structure Transferred (sending : Client → Nat → Bool) (source result : Producer Tuple)
    (part : Nat) (copy : List Nat) : Prop where
  forward : Follows (fun a => (result.tsb.heap a).next) (copy ++ [result.tsb.table part])
  backward : Follows (fun a => (result.tsb.heap a).prev)
    (result.tsb.table part :: copy.reverse)
  sentinel : (result.tsb.heap (result.tsb.table part)).dmask = none
  tuples : copy.map (fun a => ((result.tsb.heap a).seqnum, (result.tsb.heap a).rtup)) =
    (source.entries part).map fun a => ((source.tsb.heap a).seqnum, (source.tsb.heap a).rtup)
  marks : copy.map (fun a => (result.tsb.heap a).dmask) =
    (source.entries part).map fun a => (source.tsb.heap a).dmask.map (Finset.image Client.other)
  ack : ∀ client ∈ source.fmasks part, ∃ i : Nat,
    (source.entries part ++ [source.tsb.table part])[i]? = some (source.tsb.ack client part) ∧
    (copy ++ [result.tsb.table part])[i]? = some (result.tsb.ack client.other part)
  head : ∀ client ∈ source.fmasks part, client ≠ .produced → sending client part = true →
    ∃ i : Nat,
    (source.entries part ++ [source.tsb.table part])[i]? = some (source.head client part) ∧
    (copy ++ [result.tsb.table part])[i]? = some (result.head client.other part)

def Producer.hasRoom (tLen : Tuple → Nat) (bsize : Nat) (source : Producer Tuple) : Bool :=
  Flux.hasRoom true (source.tsb.maxSize - source.tsb.numParts)
    (moveLengths tLen bsize source source.entries)
    ((List.range source.tsb.numParts).map fun part =>
      ((source.entries part).length, (source.tsb.lastEnts part).isSome))

structure Movable (work : Workload Tuple) (state : SkewState Tuple)
    (sending : Client → Nat → Bool) (source : Producer Tuple) : Prop where
  isTsb : source.tsb = state.tsb
  isMask : source.fmasks = work.fmasks
  heads : ∀ part < work.numParts, ∀ client ∈ work.fmasks part, sending client part = true →
    source.head client part ∈ source.entries part ++ [source.tsb.table part]

theorem lt_rounds (inside : part < tsb.numParts) : (tsb.counts part).toNat < tsb.rounds := by
  have member : (tsb.counts part).toNat + 1 ∈
      (List.range tsb.numParts).map fun part => (tsb.counts part).toNat + 1 :=
    mem_map.mpr ⟨part, mem_range.mpr inside, rfl⟩
  have below := single_le_sum (fun _ _ => Nat.zero_le _) _ member
  rw [Tsb.rounds]
  omega

section Movement

variable {work : Workload Tuple} {state : SkewState Tuple} {owner : Nat → Owner}
  {free : List Nat} {sending : Client → Nat → Bool} {source : Producer Tuple}

variable {part a : Nat} {owner' : Nat → Owner} {cells : List Nat}

section

variable (proper : work.Proper) (holds : BufferHolds work state owner free)
  (movable : Movable work state sending source)
include proper holds movable

theorem listed_entries (inside : part < work.numParts) :
    Listed source.tsb (source.fmasks part) part (source.entries part) ∧
    ∃ low, PartKeeps work source.tsb owner state.position part (source.entries part) low := by
  obtain ⟨cells, low, keeps, lowest⟩ := holds.parts part inside
  rw [← movable.isTsb] at keeps
  have listed := keeps.listed (proper.ascending part inside) (proper.producer part inside) lowest
  rw [← movable.isMask] at listed
  rw [listed.entries_eq]
  exact ⟨listed, low, keeps⟩

theorem accounted_source : Accounted source.tsb source.entries := by
  refine ⟨owner, free, ?_, ?_, ?_⟩
  · rw [movable.isTsb]
    exact holds.pool
  · rw [movable.isTsb]
    exact holds.accounts
  · intro part isPart a isCell
    rw [movable.isTsb, holds.numParts] at isPart
    obtain ⟨-, low, keeps⟩ := listed_entries proper holds movable isPart
    exact keeps.list.owned a isCell

end

theorem builtPart_fresh {raw : Nat → TsbEntry Tuple}
    (holds : BufferHolds work (skewInit work raw) owner free) (proper : work.Proper)
    (inside : part < work.numParts) :
    ∃ cells, BuiltPart (skewInit work raw).tsb owner part cells [] := by
  obtain ⟨cells, low, keeps, client, -, isLow⟩ := holds.parts part inside
  obtain ⟨other, -, isHigh⟩ := keeps.highest
  obtain ⟨i, isPosition, isCursor⟩ := keeps.cursor .produced (proper.producer part inside)
  have start : ∀ client, (skewInit work raw).position client part = 0 := fun _ => rfl
  rw [start] at isLow isHigh isPosition
  obtain rfl : cells = [] := eq_nil_of_length_eq_zero (by omega)
  obtain rfl : i = 0 := by omega
  exact ⟨[], keeps.list, isCursor, rfl⟩

theorem progress_start (all : Nat → List (TsbRecord Tuple)) (q : Nat) :
    progress all 0 [] q = [] := by
  rw [progress, if_neg (Nat.not_lt_zero q), ite_self]

theorem installs_fresh {raw : Nat → TsbEntry Tuple} {fmasks : Nat → Finset Client}
    (holds : BufferHolds work (skewInit work raw) owner free) (proper : work.Proper)
    (reserved : ∀ part < work.numParts, (skewInit work raw).tsb.lastEnts part ≠ none) :
    Installs (partRecords source source.entries) []
      (startInstall sending source (freshProducer raw work.numParts work.max fmasks)) owner
      free := by
  have isParts := holds.numParts
  refine ⟨holds.pool, holds.accounts, ?_, ?_⟩
  · intro q isPart
    have isEmpty : progress (partRecords source source.entries)
        (startInstall sending source (freshProducer raw work.numParts work.max fmasks)).currPart
        [] q = [] := progress_start _ q
    rw [isEmpty]
    exact builtPart_fresh holds proper (isParts ▸ isPart)
  · intro q _ isPart
    exact reserved q (isParts ▸ isPart)

theorem idxOf_le {entries : List Nat} {last : Nat} (isCell : a ∈ entries ++ [last]) :
    (entries ++ [last]).idxOf a ≤ entries.length := by
  have inside := idxOf_lt_length_iff.mpr isCell
  rw [length_append, length_singleton] at inside
  omega

section

variable (proper : work.Proper) (holds : BufferHolds work state owner free)
  (movable : Movable work state sending source)
include proper holds movable

theorem announced_start (target : Producer Tuple) :
    Announced (partRecords source source.entries) (startInstall sending source target).metaData
      work.numParts := by
  refine ⟨fun q isPart => ?_, fun q isPart lent isEmpty => ?_⟩
  · have listed := (listed_entries proper holds movable isPart).1
    rw [partRecords, length_map]
    exact listed.count
  · have listed := (listed_entries proper holds movable isPart).1
    have count := listed.count
    rw [partRecords, map_eq_nil_iff] at isEmpty
    rw [isEmpty, movable.isTsb] at count
    have kept := holds.accounts.reserves q (by rw [holds.numParts]; exact isPart)
    have missing : state.tsb.lastEnts q = none := by
      rw [← movable.isTsb]
      simpa [startInstall] using lent
    have used := kept.2 missing
    rw [count] at used
    simp at used

theorem moveState_installs {raw' : Nat → TsbEntry Tuple} {fmasks : Nat → Finset Client}
    {tLen : Tuple → Nat} {bsize : Nat} (some : 0 < work.numParts) (space : mdSize tLen source < bsize)
    (fits : ∀ part < work.numParts, ∀ a ∈ source.entries part,
      4 + sizeAt tLen source.tsb a < bsize) : ∃ outcome, moveState tLen sending bsize source
        (freshProducer raw' work.numParts work.max fmasks) =
        outcome >>= (fun state => adjustTsbPointers state.metaData state.prod) ∧
      EndsFilled (partRecords source source.entries)
        (startInstall sending source (freshProducer raw' work.numParts work.max fmasks))
        (source.hasRoom tLen bsize) outcome := by
  obtain ⟨ownerT, freeT, holdsT, isFree, reserved⟩ := skewInit_holds proper raw' some
  have isParts : source.tsb.numParts = work.numParts := by rw [movable.isTsb, holds.numParts]
  have isMax : source.tsb.maxSize = work.max + work.numParts := by
    rw [movable.isTsb, holds.maxSize]
  have listed : ∀ part < source.tsb.numParts,
      Listed source.tsb (source.fmasks part) part (source.entries part) := by
    rw [isParts]
    exact fun part inside => (listed_entries proper holds movable inside).1
  have sameParts : source.tsb.numParts =
      (freshProducer raw' work.numParts work.max fmasks).tsb.numParts :=
    isParts.trans holdsT.numParts.symm
  obtain ⟨first, lengths, actions, isLengths, schedule, moved⟩ :=
    @moveState_eq _ tLen bsize source source.entries listed sending
      (freshProducer raw' work.numParts work.max fmasks) (by omega)
      (isMax.trans holdsT.maxSize.symm) sameParts space (by rwa [isParts])
  refine ⟨_, moved, ?_⟩
  have ends := runActions_ends schedule
    (@installs_fresh _ work ownerT freeT sending source raw' fmasks holdsT proper reserved)
    (@startInstall_awaits _ source source.entries listed sending _ (by omega) sameParts) rfl rfl
    (by rw [isParts]; exact announced_start proper holds movable _)
  have spare : ((startInstall sending source (freshProducer raw' work.numParts work.max
      fmasks)).prod.tsb.lastEnts (startInstall sending source (freshProducer raw' work.numParts
        work.max fmasks)).currPart).isSome = true := Option.isSome_iff_ne_none.mpr (reserved 0 some)
  have isRoom : source.hasRoom tLen bsize = hasRoom true freeT.length (first :: lengths)
      (((partRecords source source.entries 0).length, (source.tsb.lastEnts 0).isSome) ::
        laterParts (partRecords source source.entries)
          (fun part => (source.tsb.lastEnts part).isSome) source.tsb.numParts 1) := by
    have whole := laterParts_eq (partRecords source source.entries)
      (fun part => (source.tsb.lastEnts part).isSome) (show 0 < source.tsb.numParts by omega)
    have parts : (List.range source.tsb.numParts).map (fun part =>
        ((source.entries part).length, (source.tsb.lastEnts part).isSome)) =
        laterParts (partRecords source source.entries)
          (fun part => (source.tsb.lastEnts part).isSome) source.tsb.numParts 0 := by
      simp [laterParts, partRecords, range_eq_range']
    rw [Producer.hasRoom, isLengths, parts, whole, isFree, isMax, isParts, Nat.add_sub_cancel]
  rw [spare] at ends
  rw [isRoom]
  exact ends

def ackIndex (source : Producer Tuple) (part : Nat) (client : Client) : Nat :=
  if client.other ∈ source.fmasks part then
    (source.entries part ++ [source.tsb.table part]).idxOf (source.tsb.ack client.other part)
  else (source.entries part).length

def headIndex (sending : Client → Nat → Bool) (source : Producer Tuple) (part : Nat)
    (client : Client) : Nat :=
  if client.other ∈ source.fmasks part ∧ sending client.other part = true then
    (source.entries part ++ [source.tsb.table part]).idxOf (source.head client.other part)
  else (source.entries part).length

theorem ack_mem (inside : part < work.numParts) {client : Client}
    (isClient : client ∈ work.fmasks part) :
    source.tsb.ack client part ∈ source.entries part ++ [source.tsb.table part] := by
  obtain ⟨-, low, keeps⟩ := listed_entries proper holds movable inside
  obtain ⟨i, -, isCursor⟩ := keeps.cursor client isClient
  exact mem_of_getElem? isCursor

theorem seqnum_idxOf (inside : part < work.numParts)
    (isCell : a ∈ source.entries part ++ [source.tsb.table part]) : (source.tsb.heap a).seqnum =
      seqnumAt (source.tsb.flippedRecords (source.entries part))
        ((source.entries part ++ [source.tsb.table part]).idxOf a) := by
  obtain ⟨-, low, keeps⟩ := listed_entries proper holds movable inside
  exact seqnumAt_flipped keeps (getElem?_idxOf isCell)

theorem pointed_start (target : Producer Tuple) (inside : part < work.numParts) :
    Pointed (startInstall sending source target).metaData part
      (source.tsb.flippedRecords (source.entries part)) (ackIndex source part)
      (headIndex sending source part) := by
  have length := @length_flippedRecords _ source.tsb (source.entries part)
  have producer := proper.producer part inside
  rw [← movable.isMask] at producer
  refine ⟨?_, ?_, ?_, ?_⟩
  · intro client
    simp only [startInstall, ackIndex]
    by_cases on : client.other ∈ source.fmasks part
    · rw [if_pos (.inr on), if_pos on]
      exact seqnum_idxOf proper holds movable inside
        (ack_mem proper holds movable inside (movable.isMask ▸ on))
    · have notProduced : ¬ (client.other = .produced ∨ client.other ∈ source.fmasks part) := by
        rintro (isProduced | isOn)
        · exact on (isProduced ▸ producer)
        · exact on isOn
      rw [if_neg notProduced, if_neg on, ← length, seqnumAt_length]
  · intro client
    simp only [startInstall, headIndex]
    by_cases sent : client.other ∈ source.fmasks part ∧ sending client.other part = true
    · rw [if_pos sent, if_pos sent]
      exact seqnum_idxOf proper holds movable inside
        (movable.heads part inside _ (movable.isMask ▸ sent.1) sent.2)
    · rw [if_neg sent, if_neg sent, ← length, seqnumAt_length]
  · intro client
    rw [ackIndex, length]
    split_ifs with on
    · exact idxOf_le (ack_mem proper holds movable inside (movable.isMask ▸ on))
    · exact Nat.le_refl _
  · intro client
    rw [headIndex, length]
    split_ifs with sent
    · exact idxOf_le (movable.heads part inside _ (movable.isMask ▸ sent.1) sent.2)
    · exact Nat.le_refl _

theorem ready_filled {final : Installing Tuple} {target : Producer Tuple}
    (numbered : ∀ part < work.numParts, ∀ k, work.seqnum part k ≠ -1)
    (metaData : final.metaData = (startInstall sending source target).metaData)
    (masks : final.prod.fmasks = fun part => flipTsbMask (source.fmasks part))
    (parts : final.prod.tsb.numParts = work.numParts) (inside : part < work.numParts)
    (built : BuiltPart final.prod.tsb owner' part cells
      (source.tsb.flippedRecords (source.entries part))) :
    Ready final.metaData final.prod part (fun k => cells.getD k (final.prod.tsb.table part))
      (source.tsb.flippedRecords (source.entries part))
      (ackIndex source part) (headIndex sending source part) := by
  obtain ⟨-, low, keeps⟩ := listed_entries proper holds movable inside
  have length : cells.length = (source.tsb.flippedRecords (source.entries part)).length := by
    rw [← built.records, length_map]
  refine ⟨built.listing, findable_flipped keeps (proper.ascending part inside)
    (numbered part inside), ?_, ?_, ?_, ?_, fun client off => ?_⟩
  · simp [← length]
  · have start := built.start
    rw [head?_eq_getElem?, getElem?_concat (Nat.zero_le _), Option.some.injEq] at start
    exact start.symm
  · rw [metaData]
    exact pointed_start proper holds movable target inside
  · have enough := lt_rounds (parts.symm ▸ inside)
    rw [built.count, Int.toNat_natCast] at enough
    exact enough
  · rw [masks, movable.isMask] at off
    exact unmarked_flipped keeps off

theorem transferred_filled {prod result : Producer Tuple} (inside : part < work.numParts)
    (isTsb : result.tsb = { prod.tsb with ack := result.tsb.ack })
    (built : BuiltPart prod.tsb owner' part cells
      (source.tsb.flippedRecords (source.entries part)))
    (masks : prod.fmasks = fun part => flipTsbMask (source.fmasks part))
    (cursors : CursorsSet part (fun k => cells.getD k (prod.tsb.table part)) (ackIndex source part)
      (headIndex sending source part) prod result) :
    Transferred sending source result part cells := by
  obtain ⟨list, -, records⟩ := built
  have length : cells.length = (source.entries part).length := by
    have lengths := congrArg List.length records
    rwa [length_map, length_flippedRecords] at lengths
  have flips : ∀ client, client ∈ source.fmasks part → client.other ∈ prod.fmasks part := by
    intro client on
    rw [masks, mem_flipTsbMask, client.other_other]
    exact on
  have heap : result.tsb.heap = prod.tsb.heap := by rw [isTsb]
  have table : result.tsb.table = prod.tsb.table := by rw [isTsb]
  have index : ∀ i ≤ (source.entries part).length,
      (cells ++ [result.tsb.table part])[i]? = some (cells.getD i (prod.tsb.table part)) := by
    intro i small
    rw [table, getElem?_concat (length ▸ small)]
  refine ⟨?_, ?_, ?_, ?_, ?_, ?_, ?_⟩
  · rw [table, heap]
    exact list.linked.follows
  · rw [table, heap]
    simpa using list.linked.follows_reverse
  · rw [table, heap]
    exact list.sentinel
  · have tuples := congrArg (map fun record => (record.seqnum, record.rtup)) records
    simp only [Tsb.flippedRecords, map_map] at tuples
    rw [heap]
    exact tuples
  · have marks := congrArg (map fun record => some record.dmask) records
    simp only [Tsb.flippedRecords, map_map] at marks
    have marked : ∀ {tsb : Tsb Tuple} {a : Nat}, (tsb.heap a).dmask ≠ none →
        some (tsb.recordAt a).dmask = (tsb.heap a).dmask := by
      intro tsb a isEntry
      obtain ⟨dmask, isMask⟩ := Option.ne_none_iff_exists'.mp isEntry
      rw [Tsb.recordAt, isMask]
      rfl
    rw [heap]
    refine (map_congr_left fun a mem => (marked (list.marked a mem)).symm).trans
      (marks.trans (map_congr_left fun a mem => ?_))
    have isEntry := (listed_entries proper holds movable inside).1.entries a mem
    rw [← marked isEntry, Option.map_some, ← flipTsbMask_eq]
    rfl
  · intro client on
    have isMember := ack_mem proper holds movable inside (movable.isMask ▸ on)
    refine ⟨_, getElem?_idxOf isMember, ?_⟩
    rw [index _ (idxOf_le isMember), cursors.ack client.other (.inr (flips client on)), ackIndex,
      client.other_other, if_pos on]
  · intro client on consumer sent
    have isMember := movable.heads part inside client (movable.isMask ▸ on) sent
    have otherConsumer : client.other ≠ .produced := by
      cases client with
      | produced => exact absurd rfl consumer
      | primary => simp [Client.other]
      | secondary => simp [Client.other]
    refine ⟨_, getElem?_idxOf isMember, ?_⟩
    rw [index _ (idxOf_le isMember), cursors.head client.other (flips client on) otherConsumer,
      headIndex, client.other_other, if_pos ⟨on, sent⟩]

end

end Movement

/-- A reachable buffer without markers is moved to a fresh copy exactly when the copy has room
for the tuples as they come on the pages.  The copy then has the lists with the consumers
exchanged, the cursors at the same places and balanced accounts. -/
theorem skew_buffer_moved (work : Workload Tuple) (proper : work.Proper) (some : 0 < work.numParts)
    (numbered : ∀ part < work.numParts, ∀ k, work.seqnum part k ≠ -1)
    (raw raw' : Nat → TsbEntry Tuple) (fmasks : Nat → Finset Client) (ops : List SkewOp)
    (allowed : ∀ op ∈ ops, work.Allows op) (state : SkewState Tuple)
    (reached : (skewMachine work).run (skewInit work raw) ops = ([], .ok state))
    (sending : Client → Nat → Bool) (source : Producer Tuple)
    (movable : Movable work state sending source) (tLen : Tuple → Nat) (bsize : Nat)
    (space : mdSize tLen source < bsize) (fits : ∀ part < work.numParts, ∀ a ∈ source.entries part,
      4 + sizeAt tLen source.tsb a < bsize) :
    Accounted source.tsb source.entries ∧
    ((∃ result, moveState tLen sending bsize source
        (freshProducer raw' work.numParts work.max fmasks) = .ok result ∧
      ∃ copies, Accounted result.tsb copies ∧
        ∀ part < work.numParts, Transferred sending source result part (copies part)) ↔
    source.hasRoom tLen bsize = true) := by
  obtain ⟨state', owner, free, ran, holds⟩ := skewRun_holds proper raw some allowed
  obtain rfl : state' = state := by simpa using ran.symm.trans reached
  refine ⟨accounted_source proper holds movable, ?_⟩
  obtain ⟨outcome, moved, ends⟩ :=
    @moveState_installs _ work _ owner free sending source proper holds movable raw' fmasks tLen
      bsize some space fits
  constructor
  · rintro ⟨result, isResult, -⟩
    by_contra full
    rw [Bool.not_eq_true] at full
    rw [full] at ends
    obtain ⟨fault, failed⟩ := ends
    rw [moved, failed] at isResult
    cases isResult
  · intro room
    rw [room] at ends
    obtain ⟨final, owner', free', installed, metaData, prod, parts, filled⟩ := ends
    obtain ⟨ownerT, freeT, holdsT, -⟩ := skewInit_holds proper raw' some
    have isParts : final.prod.tsb.numParts = work.numParts := parts.trans holdsT.numParts
    have masks : final.prod.fmasks = fun part => flipTsbMask (source.fmasks part) := by
      rw [prod]
      rfl
    choose! cells built using filled.built
    have builtAt : ∀ part < work.numParts, BuiltPart final.prod.tsb owner' part (cells part)
        (source.tsb.flippedRecords (source.entries part)) :=
      fun part inside => built part (isParts.symm ▸ inside)
    obtain ⟨result, adjusted, isTsb, cursors⟩ := adjustTsbPointers_spec
      fun part inside => ready_filled proper holds movable numbered metaData masks isParts
        (isParts ▸ inside) (builtAt part (isParts ▸ inside))
    refine ⟨result, ?_, cells, ⟨owner', free', ?_, ?_, ?_⟩, ?_⟩
    · rw [moved, installed]
      exact adjusted
    · rw [isTsb]
      exact filled.pool.frame (fun _ _ => rfl) rfl rfl rfl (fun _ => id) (fun _ _ => id)
    · rw [isTsb]
      exact ⟨filled.accounts.stock, filled.accounts.taken, filled.accounts.reserves⟩
    · intro part isPart a isCell
      rw [isTsb] at isPart isCell
      exact (builtAt part (isParts ▸ isPart)).list.owned a isCell
    · intro part inside
      exact transferred_filled proper holds movable inside isTsb (builtAt part inside) masks
        (cursors part (isParts.symm ▸ inside))

/-! Two partitions whose tuples are their own numbers. -/

def twoParts (max : Nat) : Workload Nat where
  numParts := 2
  max := max
  seqnum := fun _ k => k
  tuple := fun _ k => k
  fmasks := fun _ => {.produced, .primary}

def blank : Nat → TsbEntry Nat := fun _ => ⟨none, none, 0, none, none⟩

def producedState (max : Nat) (ops : List SkewOp) : SkewState Nat :=
  match (skewMachine (twoParts max)).run (skewInit (twoParts max) blank) ops with
  | (_, .ok state) => state
  | (_, .error _) => skewInit (twoParts max) blank

def producedSource (max : Nat) (ops : List SkewOp) : Producer Nat where
  tsb := (producedState max ops).tsb
  fmasks := (twoParts max).fmasks
  head := fun _ => (producedState max ops).tsb.table
  scanslot := none

/-- With one tuple on each page, two partitions that have used their reserves are moved. -/
theorem skew_buffer_moved_single_tuples :
    ∃ result, moveState (fun _ => 30) (fun _ _ => true) 85
        (producedSource 0 [⟨.produced, 0⟩, ⟨.produced, 1⟩])
        (freshProducer blank 2 0 fun _ => ∅) = .ok result ∧
      ∃ copies, Accounted result.tsb copies ∧ ∀ part < 2, Transferred (fun _ _ => true)
        (producedSource 0 [⟨.produced, 0⟩, ⟨.produced, 1⟩]) result part (copies part) := by
  have proper : (twoParts 0).Proper := by
    refine ⟨?_, ?_, ?_⟩
    · intro part _ j k before
      simpa [twoParts] using before
    · simp [twoParts]
    · intro part _
      exact ⟨.primary, by simp [twoParts], by simp⟩
  have movable : Movable (twoParts 0) (producedState 0 [⟨.produced, 0⟩, ⟨.produced, 1⟩])
      (fun _ _ => true) (producedSource 0 [⟨.produced, 0⟩, ⟨.produced, 1⟩]) :=
    ⟨rfl, rfl, fun part _ client _ _ => by simp [producedSource]⟩
  refine (skew_buffer_moved (twoParts 0) proper (by decide) ?_ blank blank (fun _ => ∅)
    [⟨.produced, 0⟩, ⟨.produced, 1⟩] ?_ _ rfl (fun _ _ => true) _ movable (fun _ => 30) 85
    (by decide) ?_).2.mpr (by decide +kernel)
  · intro part _ k
    simp only [twoParts]
    omega
  · simp [Workload.Allows, twoParts]
  · intro part _ a _
    have small : ∀ rtup : Option Nat, 4 + recordSize (fun _ => 30) rtup < 85 := by
      intro rtup
      cases rtup with
      | none => decide
      | some tuple => simp [recordSize, resultSize, tupleSize]
    exact small _

/-- On one page, the reserve of the first partition is to be returned but has been used by its
tuple; on single pages, a reserve that is not returned is missing for a later tuple. -/
theorem moves_stopped_by_reserves :
    ((skewMachine (twoParts 0)).run (skewInit (twoParts 0) blank)
        [⟨.produced, 0⟩, ⟨.produced, 1⟩] =
        ([], .ok (producedState 0 [⟨.produced, 0⟩, ⟨.produced, 1⟩])) ∧
      moveState (fun _ => 30) (fun _ _ => true) 100
        (producedSource 0 [⟨.produced, 0⟩, ⟨.produced, 1⟩])
        (freshProducer blank 2 0 fun _ => ∅) = .error .nullEntry) ∧
    ((skewMachine (twoParts 1)).run (skewInit (twoParts 1) blank)
        [⟨.produced, 1⟩, ⟨.produced, 0⟩, ⟨.produced, 1⟩] =
        ([], .ok (producedState 1 [⟨.produced, 1⟩, ⟨.produced, 0⟩, ⟨.produced, 1⟩])) ∧
      moveState (fun _ => 30) (fun _ _ => true) 85
        (producedSource 1 [⟨.produced, 1⟩, ⟨.produced, 0⟩, ⟨.produced, 1⟩])
        (freshProducer blank 2 1 fun _ => ∅) = .error .assertion) :=
  ⟨⟨rfl, rfl⟩, rfl, rfl⟩

end TelegraphCQ.Flux
