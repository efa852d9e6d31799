import Mathlib
import TelegraphCQ.Flux.TsbLists

/-!
# One partition of the skew buffer

The numbers of a partition are counted from zero.  Its list holds the entries from the
position of its slowest client to that of its fastest, and each cursor stands at the
position of its client.
-/

namespace TelegraphCQ.Flux

open Foundation List Function

variable {Tuple : Type}

def Workload.marks (work : Workload Tuple) (position : Client → Nat → Nat) (part k : Nat) :
    Finset Client :=
  (work.fmasks part).filter fun client => k < position client part

structure Workload.Cell (work : Workload Tuple) (position : Client → Nat → Nat)
    (part k : Nat) (entry : TsbEntry Tuple) : Prop where
  seqnum : entry.seqnum = work.seqnum part k
  dmask : entry.dmask = some (work.marks position part k)
  rtup : entry.rtup =
    if k < position .produced part then some (work.tuple part k) else none

structure PartKeeps (work : Workload Tuple) (tsb : Tsb Tuple) (owner : Nat → Owner)
    (position : Client → Nat → Nat) (part : Nat) (cells : List Nat) (low : Nat) : Prop where
  list : PartList tsb owner part cells
  cursor : ∀ client ∈ work.fmasks part, ∃ i, position client part = low + i ∧
    (cells ++ [tsb.table part])[i]? = some (tsb.ack client part)
  highest : ∃ client ∈ work.fmasks part, position client part = low + cells.length
  entries : ∀ i a, cells[i]? = some a → work.Cell position part (low + i) (tsb.heap a)
  unused : (tsb.heap (tsb.table part)).seqnum = -1
  reserve : tsb.lastEnts part = none → cells ≠ []

section Partition

variable {work : Workload Tuple} {tsb next : Tsb Tuple} {owner owner' : Nat → Owner}
  {position position' : Client → Nat → Nat} {part : Nat} {cells : List Nat} {low : Nat}

variable {q i e : Nat} {op : SkewOp} {client : Client} {free free' : List Nat}
  {fmask : Finset Client}

theorem PartKeeps.frame (keeps : PartKeeps work tsb owner position q cells low)
    (other : q ≠ part) (step : PartStep part tsb owner free next owner' free')
    (same : ∀ client, position' client q = position client q) :
    PartKeeps work next owner' position' q cells low := by
  have untouched := step.untouched
  have table := untouched.table q other
  have heap : ∀ a ∈ cells ++ [tsb.table q], next.heap a = tsb.heap a :=
    fun a mem => untouched.heap q other a (keeps.list.owned a mem)
  refine ⟨keeps.list.frame other untouched, ?_, ?_, ?_, ?_, ?_⟩
  · simpa [same, table, untouched.ack q other] using keeps.cursor
  · simpa [same] using keeps.highest
  · intro i a isCell
    rw [heap a (by simp [mem_of_getElem? isCell])]
    obtain ⟨seqnum, dmask, rtup⟩ := keeps.entries i a isCell
    refine ⟨seqnum, ?_, ?_⟩
    · simpa [Workload.marks, same] using dmask
    · simpa [same] using rtup
  · rw [table, heap _ (by simp)]
    exact keeps.unused
  · rw [step.lastEnts q other]
    exact keeps.reserve

section

variable (keeps : PartKeeps work tsb owner position part cells low)
include keeps

theorem PartKeeps.reach (member : client ∈ work.fmasks part) :
    low ≤ position client part ∧ position client part ≤ low + cells.length := by
  obtain ⟨i, isPosition, isCursor⟩ := keeps.cursor client member
  have inside := (List.getElem?_eq_some_iff.mp isCursor).1
  rw [length_append, length_singleton] at inside
  omega

theorem PartKeeps.cursor_cases (member : client ∈ work.fmasks part) :
    position client part = low + cells.length ∧ tsb.ack client part = tsb.table part ∨
      ∃ i < cells.length, position client part = low + i ∧
        cells[i]? = some (tsb.ack client part) := by
  obtain ⟨i, isPosition, isCursor⟩ := keeps.cursor client member
  rcases concat_cases isCursor with ⟨inside, isEntry⟩ | ⟨rfl, atSentinel⟩
  · exact .inr ⟨i, inside, isPosition, isEntry⟩
  · exact .inl ⟨isPosition, atSentinel⟩

theorem PartKeeps.ascending (mono : StrictMono (work.seqnum part)) :
    (cells.map fun a => (tsb.heap a).seqnum).Pairwise (· < ·) := by
  rw [pairwise_map, pairwise_iff_getElem]
  intro i j iInside jInside before
  rw [(keeps.entries i _ (getElem?_eq_getElem iInside)).seqnum,
    (keeps.entries j _ (getElem?_eq_getElem jInside)).seqnum]
  exact mono (Nat.add_lt_add_left before low)

end

theorem advance_self (op : SkewOp) :
    advance position op op.client op.part = position op.client op.part + 1 := by
  simp [advance]

theorem advance_other (other : client ≠ op.client ∨ q ≠ op.part) :
    advance position op client q = position client q := by
  unfold advance
  cases other with
  | inl unlike => rw [update_of_ne unlike]
  | inr elsewhere =>
    by_cases same : client = op.client
    · rw [same, update_self, update_of_ne elsewhere]
    · rw [update_of_ne same]

theorem marks_advance (member : op.client ∈ work.fmasks op.part) (k : Nat) :
    work.marks (advance position op) op.part k = if k = position op.client op.part then
        insert op.client (work.marks position op.part k)
      else work.marks position op.part k := by
  ext client
  by_cases same : client = op.client
  · subst same
    split_ifs with here
    · simp [Workload.marks, advance_self, member, here]
    · simp only [Workload.marks, Finset.mem_filter, advance_self]
      constructor
      · exact fun marked => ⟨marked.1, by omega⟩
      · exact fun marked => ⟨marked.1, by omega⟩
  · have still : advance position op client op.part = position client op.part :=
      advance_other (.inl same)
    split_ifs with here
    · simp [Workload.marks, still, same]
    · simp [Workload.marks, still]

def Workload.markedBy (work : Workload Tuple) (op : SkewOp) (k : Nat)
    (marks : Finset Client) (entry : TsbEntry Tuple) : TsbEntry Tuple :=
  { entry with
    rtup := if (work.slot op k).isSome then work.slot op k else entry.rtup
    dmask := some (insert op.client marks) }

theorem Workload.Cell.advance {op : SkewOp} {k : Nat} {entry : TsbEntry Tuple}
    (cell : work.Cell position op.part k entry) (member : op.client ∈ work.fmasks op.part)
    (other : k ≠ position op.client op.part) :
    work.Cell (Flux.advance position op) op.part k entry := by
  refine ⟨cell.seqnum, ?_, ?_⟩
  · rw [marks_advance member, if_neg other, cell.dmask]
  · rw [cell.rtup]
    by_cases producer : Client.produced = op.client
    · rw [producer, advance_self]
      exact if_congr (by omega) rfl rfl
    · rw [advance_other (.inl producer)]

theorem Workload.Cell.mark {entry : TsbEntry Tuple}
    (cell : work.Cell position op.part (position op.client op.part) entry)
    (member : op.client ∈ work.fmasks op.part) :
    work.Cell (Flux.advance position op) op.part (position op.client op.part)
      (work.markedBy op (position op.client op.part)
        (work.marks position op.part (position op.client op.part)) entry) := by
  refine ⟨cell.seqnum, ?_, ?_⟩
  · rw [marks_advance member, if_pos rfl]
    rfl
  · unfold Workload.markedBy Workload.slot
    by_cases producer : op.client = .produced
    · simp [← producer, advance_self]
    · rw [advance_other (.inl (Ne.symm producer))]
      simpa [producer] using cell.rtup

def markEntry (work : Workload Tuple) (op : SkewOp) (position : Client → Nat → Nat) (next : Nat)
    (tsb : Tsb Tuple) : Tsb Tuple :=
  (tsb.setEntry (tsb.ack op.client op.part)
    (work.markedBy op (position op.client op.part)
      (work.marks position op.part (position op.client op.part))
      (tsb.heap (tsb.ack op.client op.part)))).setAck op.client op.part next

theorem PartKeeps.mark {next : Nat} (keeps : PartKeeps work tsb owner position op.part cells low)
    (pool : Pool tsb owner free) (member : op.client ∈ work.fmasks op.part)
    (isPosition : position op.client op.part = low + i)
    (isEntry : cells[i]? = some (tsb.ack op.client op.part))
    (isNext : (cells ++ [tsb.table op.part])[i + 1]? = some next) :
    PartStep op.part tsb owner free (markEntry work op position next tsb) owner free ∧
      PartKeeps work (markEntry work op position next tsb) owner (advance position op) op.part
        cells low := by
  have mem := mem_of_getElem? isEntry
  have inside := (List.getElem?_eq_some_iff.mp isEntry).1
  obtain ⟨step, list⟩ := @PartList.mark _ _ _ _ _ _ _ next op.client
    (work.markedBy op (position op.client op.part)
      (work.marks position op.part (position op.client op.part))
      (tsb.heap (tsb.ack op.client op.part))) keeps.list pool mem rfl rfl
    (by simp [Workload.markedBy])
  refine ⟨step, list, ?_, ?_, ?_, ?_, keeps.reserve⟩
  · intro client isClient
    by_cases same : client = op.client
    · refine ⟨i + 1, ?_, ?_⟩
      · rw [same, advance_self, isPosition]
        rfl
      · rw [same, markEntry, setAck_self]
        exact isNext
    · rw [advance_other (.inl same), markEntry, setAck_client same]
      exact keeps.cursor client isClient
  · obtain ⟨client, isClient, isHigh⟩ := keeps.highest
    refine ⟨client, isClient, ?_⟩
    have other : client ≠ op.client := by
      rintro rfl
      omega
    rw [advance_other (.inl other), isHigh]
  · intro j a isCell
    simp only [markEntry, Tsb.setAck, Tsb.setEntry]
    by_cases here : j = i
    · rw [here, isEntry, Option.some.injEq] at isCell
      rw [← isCell, update_self, here, ← isPosition]
      refine Workload.Cell.mark ?_ member
      rw [isPosition]
      exact keeps.entries i _ isEntry
    · have apart : a ≠ tsb.ack op.client op.part := by
        rintro rfl
        have nodup := (nodup_append.mp keeps.list.nodup).1
        exact here ((getElem?_inj inside nodup).mp (isEntry.trans isCell.symm)).symm
      rw [update_of_ne apart]
      exact (keeps.entries j a isCell).advance member (by omega)
  · have apart : tsb.table op.part ≠ tsb.ack op.client op.part := by
      intro same
      exact keeps.list.marked _ mem (same ▸ keeps.list.sentinel)
    simp only [markEntry, Tsb.setAck, Tsb.setEntry, update_of_ne apart]
    exact keeps.unused

theorem PartKeeps.drop (keeps : PartKeeps work tsb owner position part (e :: cells) low)
    (pool : Pool tsb owner free)
    (passed : ∀ client ∈ work.fmasks part, low < position client part) :
    ∃ next owner' free', Deleted part e tsb owner free next owner' free' ∧
      PartKeeps work next owner' position part cells (low + 1) := by
  obtain ⟨next, owner', free', deleted, list⟩ := @delEntry_spec _ _ _ _ _ [] cells e pool keeps.list
  have stays : ∀ a ∈ cells ++ [tsb.table part], a ≠ e := by
    rintro a mem rfl
    exact (nodup_cons.mp keeps.list.nodup).1 mem
  refine ⟨next, owner', free', deleted, list, ?_, ?_, ?_, ?_, fun none => absurd none
    deleted.reserved⟩
  · intro client isClient
    obtain ⟨i, isPosition, isCursor⟩ := keeps.cursor client isClient
    obtain ⟨j, rfl⟩ : ∃ j, i = j + 1 := ⟨i - 1, by have := passed client isClient; omega⟩
    rw [deleted.table, deleted.ack]
    exact ⟨j, by omega, by simpa using isCursor⟩
  · obtain ⟨client, isClient, isHigh⟩ := keeps.highest
    rw [length_cons] at isHigh
    exact ⟨client, isClient, by omega⟩
  · intro i a isCell
    obtain ⟨seqnum, dmask, rtup⟩ := keeps.entries (i + 1) a (by simpa using isCell)
    have index : low + 1 + i = low + (i + 1) := by omega
    rw [deleted.heap a (stays a (by simp [mem_of_getElem? isCell])), index]
    exact ⟨seqnum, dmask, rtup⟩
  · rw [deleted.table, deleted.heap _ (stays _ (by simp))]
    exact keeps.unused

theorem PartKeeps.newCell (keeps : PartKeeps work tsb owner position op.part cells low)
    (member : op.client ∈ work.fmasks op.part) (producer : .produced ∈ work.fmasks op.part)
    (atEnd : position op.client op.part = low + cells.length) (entry : TsbEntry Tuple) :
    work.Cell (advance position op) op.part (low + cells.length)
      { entry with
        rtup := work.slot op (low + cells.length)
        seqnum := work.seqnum op.part (low + cells.length)
        dmask := some {op.client} } := by
  have unmarked : work.marks position op.part (low + cells.length) = ∅ := by
    apply Finset.filter_eq_empty_iff.mpr
    intro client isClient
    have := (keeps.reach isClient).2
    omega
  refine ⟨rfl, ?_, ?_⟩
  · rw [marks_advance member, if_pos atEnd.symm, unmarked]
    rfl
  · unfold Workload.slot
    by_cases isProducer : op.client = .produced
    · rw [if_pos isProducer, ← isProducer, advance_self, if_pos (by omega)]
    · have notYet := (keeps.reach producer).2
      rw [if_neg isProducer, advance_other (.inl (Ne.symm isProducer)), if_neg (by omega)]

theorem PartKeeps.append {a : Nat} {alloced : Tsb Tuple}
    (keeps : PartKeeps work tsb owner position op.part cells low)
    (allotted : Allotted op.part a tsb owner free alloced free')
    (member : op.client ∈ work.fmasks op.part) (producer : .produced ∈ work.fmasks op.part)
    (atEnd : position op.client op.part = low + cells.length) {record : TsbRecord Tuple}
    (isRecord : record = ⟨work.seqnum op.part (low + cells.length), {op.client},
      work.slot op (low + cells.length)⟩) : PartStep op.part tsb owner free
        ((linkRecord record op.part a alloced).setAck op.client op.part a)
        (update owner a (.list op.part)) free' ∧
      PartKeeps work ((linkRecord record op.part a alloced).setAck op.client op.part a)
        (update owner a (.list op.part)) (advance position op) op.part
        (cells ++ [tsb.table op.part]) low := by
  obtain ⟨step, list, table, ack⟩ := linkRecord_spec record allotted keeps.list
  obtain ⟨sentinel, new, others⟩ := linkRecord_heap allotted record (keeps.list.owned _ (by simp))
  have apart : ∀ a' ∈ cells, a' ≠ a ∧ a' ≠ tsb.table op.part := by
    intro a' mem
    refine ⟨?_, ?_⟩
    · rintro rfl
      exact allotted.fresh keeps.list (by simp [mem])
    · rintro rfl
      exact keeps.list.marked _ mem keeps.list.sentinel
  refine ⟨step.trans (setAck_partStep step.pool), list.setAck, ?_, ?_, ?_, ?_, by simp⟩
  · intro client isClient
    change ∃ i, _ ∧ (cells ++ [tsb.table op.part] ++
      [(linkRecord record op.part a alloced).table op.part])[i]? = _
    by_cases self : client = op.client
    · refine ⟨cells.length + 1, by rw [self, advance_self, atEnd]; rfl, ?_⟩
      have length : cells.length + 1 = (cells ++ [tsb.table op.part]).length := by simp
      rw [self, setAck_self, length, getElem?_concat_length, table]
    · obtain ⟨i, isPosition, isCursor⟩ := keeps.cursor client isClient
      have inside := (List.getElem?_eq_some_iff.mp isCursor).1
      refine ⟨i, by rw [advance_other (.inl self), isPosition], ?_⟩
      rw [getElem?_append_left inside, setAck_client self, ack, isCursor]
  · exact ⟨op.client, member, by rw [advance_self, atEnd, length_append, length_singleton]; rfl⟩
  · intro i a' isCell
    change work.Cell _ _ _ ((linkRecord record op.part a alloced).heap a')
    rcases concat_cases isCell with ⟨inside, isEntry⟩ | ⟨rfl, rfl⟩
    · obtain ⟨notNew, notSentinel⟩ := apart a' (mem_of_getElem? isEntry)
      rw [others a' notNew notSentinel]
      exact (keeps.entries i a' isEntry).advance member (by omega)
    · rw [sentinel, isRecord]
      exact keeps.newCell member producer atEnd
        { tsb.heap (tsb.table op.part) with next := some a }
  · change ((linkRecord record op.part a alloced).heap
      ((linkRecord record op.part a alloced).table op.part)).seqnum = -1
    rw [table, new]
    rfl

theorem PartKeeps.stops {seqno : Int} (keeps : PartKeeps work tsb owner position part cells low)
    (member : client ∈ work.fmasks part) (past : seqno < work.seqnum part (position client part)) :
    (tsb.heap (tsb.ack client part)).dmask = none ∨
      seqno < (tsb.heap (tsb.ack client part)).seqnum := by
  rcases keeps.cursor_cases member with ⟨-, atSentinel⟩ | ⟨i, -, isPosition, isEntry⟩
  · exact .inl (atSentinel ▸ keeps.list.sentinel)
  · rw [(keeps.entries i _ isEntry).seqnum, ← isPosition]
    exact .inr past

/-- The positions of a partition are spread from its slowest client to its fastest. -/
def PartHolds (work : Workload Tuple) (tsb : Tsb Tuple) (owner : Nat → Owner)
    (position : Client → Nat → Nat) (part : Nat) : Prop :=
  ∃ cells low, PartKeeps work tsb owner position part cells low ∧
    ∃ client ∈ work.fmasks part, position client part = low

theorem putAckScan_found (rounds : Nat)
    (keeps : PartKeeps work tsb owner position op.part cells low) (pool : Pool tsb owner free)
    (lowest : ∃ client ∈ work.fmasks op.part, position client op.part = low)
    (mono : StrictMono (work.seqnum op.part)) (member : op.client ∈ work.fmasks op.part)
    (isPosition : position op.client op.part = low + i)
    (isEntry : cells[i]? = some (tsb.ack op.client op.part)) : ∃ slot next owner' free',
      putAckScan (work.seqnum op.part (position op.client op.part)) op.part op.client
        (work.fmasks op.part) (rounds + 2)
        ⟨false, work.slot op (position op.client op.part), [], tsb⟩ = .ok ⟨true, slot, [], next⟩ ∧
      PartStep op.part tsb owner free next owner' free' ∧
      PartHolds work next owner' (advance position op) op.part := by
  have past : work.seqnum op.part (position op.client op.part) <
      work.seqnum op.part (advance position op op.client op.part) := by
    rw [advance_self]
    exact mono (Nat.lt_succ_self _)
  obtain ⟨link, isLink, isNext⟩ := keeps.list.next_at isEntry
  obtain ⟨step, marked⟩ := keeps.mark pool member isPosition isEntry isLink
  have cell := keeps.entries i _ isEntry
  rw [← isPosition] at cell
  obtain ⟨slowest, isSlowest, slowestAt⟩ := lowest
  by_cases full : work.fmasks op.part ⊆ insert op.client
      (work.marks position op.part (position op.client op.part))
  · -- all other clients are past the number, so that it is the first of the list
    have passed : ∀ client ∈ work.fmasks op.part, client ≠ op.client →
        position op.client op.part < position client op.part := by
      intro client isClient other
      have inMarks := Finset.mem_of_mem_insert_of_ne (full isClient) other
      exact (Finset.mem_filter.mp inMarks).2
    obtain rfl : i = 0 := by
      by_cases self : slowest = op.client
      · rw [self] at slowestAt
        omega
      · have := passed slowest isSlowest self
        omega
    obtain ⟨rest, rfl⟩ : ∃ rest, cells = tsb.ack op.client op.part :: rest := by
      cases cells with
      | nil => simp at isEntry
      | cons first rest => exact ⟨rest, by simpa using isEntry⟩
    have allPassed : ∀ client ∈ work.fmasks op.part, low < advance position op client op.part := by
      intro client isClient
      by_cases self : client = op.client
      · rw [self, advance_self]
        omega
      · rw [advance_other (.inl self)]
        have := passed client isClient self
        omega
    obtain ⟨next, owner', free', deleted, keepsNext⟩ := marked.drop step.pool allPassed
    have scanned := putAckScan_once rounds cell.dmask cell.seqnum isNext
      ((if_pos full).trans deleted.ran) (keepsNext.stops member past)
    exact ⟨_, next, owner', free', scanned, step.trans deleted.step, rest, low + 1, keepsNext,
      op.client, member, by rw [advance_self, isPosition]⟩
  · have scanned := putAckScan_once rounds cell.dmask cell.seqnum isNext (if_neg full)
      (marked.stops member past)
    refine ⟨_, _, owner, free, scanned, step, cells, low, marked, ?_⟩
    -- another client still stands at the first entry
    obtain ⟨client, isClient, unmarked⟩ := Finset.not_subset.mp full
    simp only [Finset.mem_insert, not_or, Workload.marks, Finset.mem_filter, not_and] at unmarked
    by_cases self : slowest = op.client
    · refine ⟨client, isClient, ?_⟩
      have behind := unmarked.2 isClient
      have reached := (keeps.reach isClient).1
      rw [advance_other (.inl unmarked.1)]
      rw [self] at slowestAt
      omega
    · exact ⟨slowest, isSlowest, by rw [advance_other (.inl self), slowestAt]⟩

theorem exists_other_client (producer : .produced ∈ fmask)
    (consumer : ∃ client ∈ fmask, client ≠ .produced) (client : Client) :
    ∃ other ∈ fmask, other ≠ client := by
  by_cases isProducer : client = .produced
  · rw [isProducer]
    exact consumer
  · exact ⟨.produced, producer, Ne.symm isProducer⟩

theorem putAckTsb_spec (holds : PartHolds work tsb owner position op.part)
    (pool : Pool tsb owner free) (mono : StrictMono (work.seqnum op.part))
    (member : op.client ∈ work.fmasks op.part) (producer : .produced ∈ work.fmasks op.part)
    (consumer : ∃ client ∈ work.fmasks op.part, client ≠ .produced) : ∃ result owner' free',
      putAckTsb (work.slot op (position op.client op.part))
        (work.seqnum op.part (position op.client op.part)) op.part op.client
        (work.fmasks op.part) tsb = .ok result ∧
      result.warnings = [] ∧ PartStep op.part tsb owner free result.tsb owner' free' ∧
      PartHolds work result.tsb owner'
        (if result.accepted then advance position op else position) op.part := by
  obtain ⟨cells, low, keeps, lowest⟩ := holds
  unfold putAckTsb
  rcases keeps.cursor_cases member with ⟨atEnd, cursor⟩ | ⟨i, inside, isPosition, isEntry⟩
  · have stopped : putAckScan (work.seqnum op.part (low + cells.length)) op.part op.client
        (work.fmasks op.part) (tsb.maxSize + tsb.numParts + 2)
        ⟨false, work.slot op (low + cells.length), [], tsb⟩ =
          .ok ⟨false, work.slot op (low + cells.length), [], tsb⟩ :=
      putAckScan_stop _ (.inl (cursor ▸ keeps.list.sentinel))
    simp only [atEnd, stopped, bind, Except.bind, cursor, keeps.list.sentinel, and_self, if_true]
    cases allocEntryWLast_spec op.part pool with
    | inl refused =>
      simp only [refused]
      exact ⟨_, owner, free, rfl, rfl, .refl pool, cells, low, keeps, lowest⟩
    | inr alloced =>
      obtain ⟨a, alloc, free', allotted⟩ := alloced
      obtain ⟨record, isRecord⟩ : ∃ record : TsbRecord Tuple, record =
          ⟨work.seqnum op.part (low + cells.length), {op.client},
            work.slot op (low + cells.length)⟩ := ⟨_, rfl⟩
      have isLink : appendEntry (work.slot op (low + cells.length))
          (work.seqnum op.part (low + cells.length)) op.part op.client a alloc =
          linkRecord record op.part a alloc := by
        rw [isRecord]
        rfl
      obtain ⟨step, keepsNext⟩ := keeps.append allotted member producer atEnd isRecord
      obtain ⟨-, -, -, ack⟩ := linkRecord_spec record allotted keeps.list
      have sentinel := (linkRecord_heap allotted record (keeps.list.owned _ (by simp))).1
      simp only [allotted.ran, isLink, ack, cursor, sentinel]
      refine ⟨_, _, free', rfl, rfl, step, _, low, keepsNext, ?_⟩
      obtain ⟨slowest, isSlowest, slowestAt⟩ := lowest
      by_cases self : slowest = op.client
      · -- all clients stand at the sentinel, and the others stay there
        obtain ⟨other, isOther, unlike⟩ := exists_other_client producer consumer op.client
        have reached := keeps.reach isOther
        have still : advance position op other op.part = position other op.part :=
          advance_other (.inl unlike)
        rw [self] at slowestAt
        exact ⟨other, isOther, still.trans (by omega)⟩
      · have still : advance position op slowest op.part = position slowest op.part :=
          advance_other (.inl self)
        exact ⟨slowest, isSlowest, still.trans slowestAt⟩
  · obtain ⟨slot, next, owner', free', scanned, step, holdsNext⟩ :=
      putAckScan_found (tsb.maxSize + tsb.numParts) keeps pool lowest mono member isPosition isEntry
    rw [scanned]
    refine ⟨⟨true, slot, [], next⟩, owner', free', ?_, rfl, step, ?_⟩
    · simp [bind, Except.bind]
    · simpa using holdsNext

end Partition

end TelegraphCQ.Flux
