import TelegraphCQ.Flux.TsbAccounts

/-!
# The skew buffer over all interleavings

An operation of a client changes one partition; from the initial state on, every
partition holds exactly the numbers that some but not all of its clients have marked.
-/

namespace TelegraphCQ.Flux

open Foundation List Function

variable {Tuple : Type}

/-! ## What a client can rely on -/

def TsbEntry.MarkedBy (client : Client) (entry : TsbEntry Tuple) : Prop :=
  ∃ dmask, entry.dmask = some dmask ∧ client ∈ dmask

def Workload.Pending (work : Workload Tuple) (position : Client → Nat → Nat)
    (part k : Nat) : Prop :=
  (∃ client ∈ work.fmasks part, k < position client part) ∧
    ∃ client ∈ work.fmasks part, position client part ≤ k

structure ListCorrect (work : Workload Tuple) (state : SkewState Tuple) (part : Nat)
    (entries : List Nat) : Prop where
  forward : Follows (fun a => (state.tsb.heap a).next) (entries ++ [state.tsb.table part])
  backward : Follows (fun a => (state.tsb.heap a).prev)
    (state.tsb.table part :: entries.reverse)
  sentinel : (state.tsb.heap (state.tsb.table part)).dmask = none
  ascending : (entries.map fun a => (state.tsb.heap a).seqnum).Pairwise (· < ·)
  pending : ∀ seqno, (∃ a ∈ entries, (state.tsb.heap a).seqnum = seqno) ↔
    ∃ k, work.seqnum part k = seqno ∧ work.Pending state.position part k
  marks : ∀ a ∈ entries, ∀ k, (state.tsb.heap a).seqnum = work.seqnum part k →
    (state.tsb.heap a).dmask = some (work.marks state.position part k)
  tuples : ∀ a ∈ entries, ∀ k, (state.tsb.heap a).seqnum = work.seqnum part k →
    k < state.position .produced part →
    (state.tsb.heap a).rtup = some (work.tuple part k)
  cursors : ∀ client ∈ work.fmasks part, ∃ front back,
    entries ++ [state.tsb.table part] = front ++ state.tsb.ack client part :: back ∧
    (∀ a ∈ front, (state.tsb.heap a).MarkedBy client) ∧
    ∀ a ∈ state.tsb.ack client part :: back, ¬ (state.tsb.heap a).MarkedBy client

section Lists

variable {work : Workload Tuple} {tsb : Tsb Tuple} {owner : Nat → Owner}
  {position : Client → Nat → Nat} {part : Nat} {cells : List Nat} {low : Nat}
  (keeps : PartKeeps work tsb owner position part cells low)
include keeps

theorem PartKeeps.markedBy_iff {client : Client} (member : client ∈ work.fmasks part) {i a : Nat}
    (isCell : (cells ++ [tsb.table part])[i]? = some a) :
    (tsb.heap a).MarkedBy client ↔ low + i < position client part := by
  rcases concat_cases isCell with ⟨-, isEntry⟩ | ⟨rfl, rfl⟩
  · rw [TsbEntry.MarkedBy, (keeps.entries i a isEntry).dmask]
    simp [Workload.marks, member]
  · have reach := (keeps.reach member).2
    rw [TsbEntry.MarkedBy, keeps.list.sentinel]
    constructor
    · rintro ⟨dmask, impossible, -⟩
      simp at impossible
    · intro impossible
      omega

theorem PartKeeps.pending_iff (lowest : ∃ client ∈ work.fmasks part, position client part = low)
    {k : Nat} : work.Pending position part k ↔ ∃ i < cells.length, k = low + i := by
  constructor
  · rintro ⟨⟨ahead, isAhead, marked⟩, behind, isBehind, unmarked⟩
    have aheadReach := keeps.reach isAhead
    have behindReach := keeps.reach isBehind
    exact ⟨k - low, by omega, by omega⟩
  · rintro ⟨i, inside, rfl⟩
    obtain ⟨fastest, isFastest, atHigh⟩ := keeps.highest
    obtain ⟨slowest, isSlowest, atLow⟩ := lowest
    exact ⟨⟨fastest, isFastest, by omega⟩, slowest, isSlowest, by omega⟩

theorem PartKeeps.listCorrect (lowest : ∃ client ∈ work.fmasks part, position client part = low)
    (mono : StrictMono (work.seqnum part)) : ListCorrect work ⟨tsb, position⟩ part cells := by
  have holds : ∀ a ∈ cells, ∃ i < cells.length, work.Cell position part (low + i) (tsb.heap a) := by
    intro a member
    obtain ⟨i, isCell⟩ := mem_iff_getElem?.mp member
    exact ⟨i, (List.getElem?_eq_some_iff.mp isCell).1, keeps.entries i a isCell⟩
  refine ⟨keeps.list.linked.follows, ?_, keeps.list.sentinel, keeps.ascending mono, ?_, ?_, ?_, ?_⟩
  · simpa using keeps.list.linked.follows_reverse
  · intro seqno
    constructor
    · rintro ⟨a, member, isSeqno⟩
      obtain ⟨i, inside, cell⟩ := holds a member
      exact ⟨low + i, cell.seqnum.symm.trans isSeqno,
        (keeps.pending_iff lowest).mpr ⟨i, inside, rfl⟩⟩
    · rintro ⟨k, isSeqno, pending⟩
      obtain ⟨i, inside, rfl⟩ := (keeps.pending_iff lowest).mp pending
      have isCell := getElem?_eq_getElem inside
      exact ⟨_, mem_of_getElem? isCell, (keeps.entries i _ isCell).seqnum.trans isSeqno⟩
  · intro a member k isNumber
    obtain ⟨i, -, cell⟩ := holds a member
    rw [← mono.injective (cell.seqnum.symm.trans isNumber)]
    exact cell.dmask
  · intro a member k isNumber produced
    obtain ⟨i, -, cell⟩ := holds a member
    rw [← mono.injective (cell.seqnum.symm.trans isNumber)] at produced ⊢
    rw [cell.rtup, if_pos produced]
  · intro client isClient
    obtain ⟨i, isPosition, isCursor⟩ := keeps.cursor client isClient
    obtain ⟨inside, atCursor⟩ := List.getElem?_eq_some_iff.mp isCursor
    refine ⟨(cells ++ [tsb.table part]).take i, (cells ++ [tsb.table part]).drop (i + 1), ?_, ?_, ?_⟩
    · rw [← atCursor, getElem_cons_drop, take_append_drop]
    · intro a member
      obtain ⟨j, isCell⟩ := mem_iff_getElem?.mp member
      rw [getElem?_take] at isCell
      split_ifs at isCell with before
      exact (keeps.markedBy_iff isClient isCell).mpr (by omega)
    · rw [← atCursor, getElem_cons_drop]
      intro a member
      obtain ⟨j, isCell⟩ := mem_iff_getElem?.mp member
      rw [getElem?_drop] at isCell
      rw [keeps.markedBy_iff isClient isCell]
      omega

end Lists

/-- The skew buffer over all interleavings of its clients, from memory with any contents:
no operation fails or warns, and every partition's list is linked in both directions in
ascending order, holds exactly the numbers that some but not all clients of the mask have
marked, and has the cursor of each client at its first unmarked entry. -/
theorem skew_buffer_correct (work : Workload Tuple) (proper : work.Proper)
    (raw : Nat → TsbEntry Tuple) (ops : List SkewOp) (allowed : ∀ op ∈ ops, work.Allows op) :
    ∃ state, (skewMachine work).run (skewInit work raw) ops = ([], .ok state) ∧
      ∀ part < work.numParts, ∃ entries, ListCorrect work state part entries := by
  by_cases noParts : work.numParts = 0
  · have noOps : ops = [] := by
      apply eq_nil_iff_forall_not_mem.mpr
      intro op member
      have inside := (allowed op member).1
      omega
    subst noOps
    exact ⟨_, rfl, fun part inside => absurd inside (by omega)⟩
  · obtain ⟨state, owner, free, ran, holds⟩ :=
      skewRun_holds proper raw (Nat.pos_of_ne_zero noParts) allowed
    refine ⟨state, ran, fun part inside => ?_⟩
    obtain ⟨cells, low, keeps, lowest⟩ := holds.parts part inside
    exact ⟨_, keeps.listCorrect lowest (proper.ascending part inside)⟩

/-- One partition with one spare entry, whose tuples are their own numbers. -/
def pairWork : Workload Nat where
  numParts := 1
  max := 1
  seqnum := fun _ k => k
  tuple := fun _ k => k
  fmasks := fun _ => {.produced, .primary}

theorem skew_buffer_correct_early_ack :
    ∃ state, (skewMachine pairWork).run
        (skewInit pairWork fun _ => ⟨none, none, 0, none, none⟩)
        [⟨.primary, 0⟩, ⟨.primary, 0⟩, ⟨.primary, 0⟩, ⟨.produced, 0⟩] = ([], .ok state) ∧
      ∀ part < 1, ∃ entries, ListCorrect pairWork state part entries := by
  apply skew_buffer_correct pairWork
  · refine ⟨?_, ?_, ?_⟩
    · intro part _ j k before
      simpa [pairWork] using before
    · simp [pairWork]
    · intro part _
      exact ⟨.primary, by simp [pairWork], by simp⟩
  · simp [Workload.Allows, pairWork]

end TelegraphCQ.Flux
