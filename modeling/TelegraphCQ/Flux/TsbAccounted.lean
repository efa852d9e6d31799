import Mathlib.Algebra.BigOperators.Ring.Finset
import Mathlib.Algebra.Order.BigOperators.Group.Finset
import TelegraphCQ.Flux.TsbAccounts
import TelegraphCQ.Flux.TsbMarkers

/-!
# No entry of the skew buffer is lost

The operations of the buffer in any order.  As long as no client works through a cursor whose
entry has been deleted, every entry stays in one place and the counters agree with the lists.
-/

namespace TelegraphCQ.Flux

open Foundation List Function

variable {Tuple : Type}

/-! ## Linking a marker before an entry -/

section Markers

variable {part a : Nat} {tsb alloced : Tsb Tuple} {owner : Nat → Owner}
  {free free' cells front back : List Nat}

theorem heap_linkBefore {r : Option Tuple} {mask : Finset Client} {place : Nat} {bumped : Tsb Tuple}
    (apart : place ≠ a) (notPrev : (bumped.heap place).prev ≠ some a) :
    ((linkBefore r mask a place bumped).heap a).next = some place ∧
    ((linkBefore r mask a place bumped).heap a).prev = (bumped.heap place).prev ∧
    ((linkBefore r mask a place bumped).heap a).dmask ≠ none ∧
    ∀ c, c ≠ a → (linkBefore r mask a place bumped).heap c = { bumped.heap c with
        next := if (bumped.heap place).prev = some c then some a else (bumped.heap c).next
        prev := if place = c then some a else (bumped.heap c).prev } := by
  simp only [linkBefore, setNextOf_eq, setPrevOf_eq, Tsb.setEntry, update_self,
    Option.some.injEq, if_neg apart, if_neg notPrev, true_and]
  refine ⟨by simp, fun c other => ?_⟩
  simp only [update_of_ne other]
  split <;> split <;> rfl

theorem linkBefore_frame {r : Option Tuple} {mask : Finset Client} {place : Nat}
    {bumped : Tsb Tuple} : linkBefore r mask a place bumped =
      { bumped with heap := (linkBefore r mask a place bumped).heap } := by
  simp [linkBefore, setNextOf_eq, setPrevOf_eq, Tsb.setEntry]

theorem split_at_sentinel {sentinel c : Nat} (split : cells ++ [sentinel] = front ++ c :: back) :
    ∃ mid, c :: back = mid ++ [sentinel] ∧ cells = front ++ mid := by
  obtain ⟨mid, last, isConcat⟩ : ∃ mid last, c :: back = mid ++ [last] :=
    (eq_nil_or_concat' (c :: back)).resolve_left (by simp)
  rw [isConcat, ← append_assoc] at split
  obtain ⟨isCells, isLast⟩ := append_inj' split rfl
  rw [singleton_inj.mp isLast]
  exact ⟨mid, isConcat, isCells⟩

theorem linkBefore_spec (r : Option Tuple) (mask : Finset Client) {place : Nat} {bumped : Tsb Tuple}
    (allotted : Allotted part a tsb owner free alloced free')
    (list : PartList tsb owner part cells) (mem : place ∈ cells ++ [tsb.table part])
    (isBumped : bumped = { alloced with
      ack := bumped.ack
      counts := update alloced.counts part (alloced.counts part + 1) })
    (acks : ∀ q, q ≠ part → ∀ client, bumped.ack client q = tsb.ack client q) :
    ∃ cells', PartStep part tsb owner free (linkBefore r mask a place bumped)
        (update owner a (.list part)) free' ∧
      PartList (linkBefore r mask a place bumped) (update owner a (.list part)) part
        cells' := by
  have fresh := allotted.fresh list
  obtain ⟨front, back, split⟩ := append_of_mem mem
  obtain ⟨mid, isMid, isCells⟩ := split_at_sentinel split
  have linked := list.linked
  have nodup := list.nodup
  rw [split] at linked nodup
  have apart : place ≠ a := fun same => fresh (same ▸ mem)
  have heap : bumped.heap = alloced.heap := by rw [isBumped]
  have old : ∀ {c}, c ≠ a → bumped.heap c = tsb.heap c := fun {c} other => by
    rw [heap, allotted.heap_of_ne other]
  have isPrev : (bumped.heap place).prev = front.getLast? := by
    rw [old apart]
    exact linked.pointers.2
  have notPrev : (bumped.heap place).prev ≠ some a := by
    rw [isPrev]
    intro isLast
    exact fresh (split ▸ mem_append_left _ (mem_of_getLast? isLast))
  obtain ⟨newNext, newPrev, newMask, others⟩ :=
    @heap_linkBefore Tuple a r mask place bumped apart notPrev
  have frame := @linkBefore_frame Tuple a r mask place bumped
  have table : (linkBefore r mask a place bumped).table = tsb.table := by
    rw [frame, ← allotted.takes.table, isBumped]
  have counts : (linkBefore r mask a place bumped).counts =
      update alloced.counts part (alloced.counts part + 1) := by
    rw [frame, isBumped]
  have stays : ∀ c ∈ front ++ place :: back, c ≠ a := by
    rintro c isCell rfl
    exact fresh (split ▸ isCell)
  have newNodup : (front ++ a :: place :: back).Nodup := by
    rw [nodup_middle, nodup_cons]
    exact ⟨fun isCell => stays a isCell rfl, nodup⟩
  have acksNext : (linkBefore r mask a place bumped).ack = bumped.ack := by rw [frame]
  refine ⟨front ++ a :: mid, ?_, ?_⟩
  · refine allotted.partStep (by rw [frame, isBumped]) (fun b other unlisted => ?_)
      (acksNext ▸ acks) fun q _ => congrFun table q
    rw [others b other, if_neg, if_neg, old other]
    · exact fun same => unlisted (same ▸ list.owned _ mem)
    · rw [isPrev]
      intro isLast
      exact unlisted (list.owned b (split ▸ mem_append_left _ (mem_of_getLast? isLast)))
  · refine ⟨?_, ?_, ?_, ?_, ?_, ?_⟩
    · rw [table, append_assoc, cons_append, ← isMid]
      refine linked.insert newNodup (fun c isCell notLast => ?_) (fun c isCell notFirst => ?_)
        (fun c isLast => ?_) (fun c isFirst => ?_) newNext (newPrev.trans isPrev)
      · rw [others c (stays c isCell), isPrev, if_neg notLast, old (stays c isCell)]
      · rw [others c (stays c isCell), if_neg fun same => notFirst (congrArg some same),
          old (stays c isCell)]
      · have isCell := mem_append_left (place :: back) (mem_of_getLast? isLast)
        rw [others c (stays c isCell), isPrev, if_pos isLast]
      · have same : place = c := by simpa using isFirst
        rw [others c (same ▸ apart), if_pos same]
    · rw [table, append_assoc, cons_append, ← isMid]
      exact newNodup
    · rw [table, append_assoc, cons_append, ← isMid]
      intro c isCell
      refine owned_of_allotted list ?_
      rw [split]
      simp only [mem_append, mem_cons] at isCell ⊢
      rcases isCell with inFront | rfl | inBack
      · exact .inr (.inl inFront)
      · exact .inl rfl
      · exact .inr (.inr inBack)
    · intro c isCell
      by_cases same : c = a
      · rw [same]
        exact newMask
      · rw [others c same, old same]
        refine list.marked c ?_
        rw [isCells]
        simpa [same] using isCell
    · rw [table]
      have notNew : tsb.table part ≠ a := fun same => fresh (by simp [same])
      rw [others _ notNew, old notNew]
      exact list.sentinel
    · rw [counts, update_self, allotted.takes.counts, list.count, isCells]
      simp only [length_append, length_cons]
      push_cast
      omega

end Markers

/-! ## Acknowledgements -/

section Scan

variable {part : Nat} {tsb : Tsb Tuple} {owner : Nat → Owner} {free cells back : List Nat}
  {mask : Client} {fmask : Finset Client} {seqno : Int}

def CursorAt (tsb : Tsb Tuple) (part : Nat) (client : Client) (cells back : List Nat) : Prop :=
  ∃ front, cells ++ [tsb.table part] = front ++ tsb.ack client part :: back

def Leaves (part : Nat) (client : Client) (tsb : Tsb Tuple) (owner : Nat → Owner)
    (free : List Nat) (left : Nat) (next : Tsb Tuple) : Prop :=
  ∃ owner' free' cells' back', PartStep part tsb owner free next owner' free' ∧
    PartList next owner' part cells' ∧ CursorAt next part client cells' back' ∧
    back'.length ≤ left

variable {client : Client}

theorem Leaves.after {next final : Tsb Tuple} {owner' : Nat → Owner} {free' : List Nat}
    {left left' : Nat} (first : PartStep part tsb owner free next owner' free')
    (leaves : Leaves part client next owner' free' left final) (fewer : left ≤ left') :
    Leaves part client tsb owner free left' final := by
  obtain ⟨owner'', free'', cells', back', second, list, cursor, length_le⟩ := leaves
  exact ⟨owner'', free'', cells', back', first.trans second, list, cursor, length_le.trans fewer⟩

theorem CursorAt.mem (cursor : CursorAt tsb part client cells back) :
    tsb.ack client part ∈ cells ++ [tsb.table part] := by
  obtain ⟨front, split⟩ := cursor
  simp [split]

theorem PartList.eq_sentinel {a : Nat} (list : PartList tsb owner part cells)
    (mem : a ∈ cells ++ [tsb.table part]) (unmarked : (tsb.heap a).dmask = none) :
    a = tsb.table part := by
  rcases mem_append.mp mem with isCell | isLast
  · exact absurd unmarked (list.marked _ isCell)
  · exact mem_singleton.mp isLast

theorem PartList.exists_next {a : Nat} (list : PartList tsb owner part cells)
    (mem : a ∈ cells ++ [tsb.table part]) (marked : (tsb.heap a).dmask ≠ none) :
    ∃ next, (tsb.heap a).next = some next := by
  rcases mem_append.mp mem with isCell | isLast
  · obtain ⟨front, back, split⟩ := append_of_mem isCell
    rw [split] at list
    rw [list.links.1]
    cases back <;> exact ⟨_, rfl⟩
  · rw [mem_singleton.mp isLast] at marked
    exact absurd list.sentinel marked

theorem CursorAt.split (cursor : CursorAt tsb part client cells back)
    (list : PartList tsb owner part cells)
    (marked : (tsb.heap (tsb.ack client part)).dmask ≠ none) :
    ∃ front mid, cells = front ++ tsb.ack client part :: mid ∧ back = mid ++ [tsb.table part] := by
  obtain ⟨front, split⟩ := cursor
  obtain ⟨mid, isMid, isCells⟩ := split_at_sentinel split
  cases mid with
  | nil =>
    have atSentinel : tsb.ack client part = tsb.table part := by
      simpa using (List.cons.inj isMid).1
    rw [atSentinel] at marked
    exact absurd list.sentinel marked
  | cons first mid =>
    obtain ⟨rfl, isBack⟩ := List.cons.inj isMid
    exact ⟨front, mid, isCells, isBack⟩

theorem delIfMarked_spec {next : Nat} (rtup : Option Tuple) (dmask : Finset Client)
    (pool : Pool tsb owner free) (list : PartList tsb owner part cells)
    (cursor : CursorAt tsb part mask cells back)
    (isMarked : (tsb.heap (tsb.ack mask part)).dmask ≠ none)
    (isNext : (tsb.heap (tsb.ack mask part)).next = some next) :
    ∃ left final, delIfMarked fmask dmask part (tsb.ack mask part)
        ((tsb.setEntry (tsb.ack mask part)
          { tsb.heap (tsb.ack mask part) with rtup := rtup, dmask := some dmask }).setAck mask part
            next) = .ok final ∧
      back = next :: left ∧ Leaves part mask tsb owner free left.length final := by
  generalize isMarkedEntry : ({ tsb.heap (tsb.ack mask part) with
    rtup := rtup, dmask := some dmask } : TsbEntry Tuple) = marked
  obtain ⟨front, mid, isCells, isBack⟩ := cursor.split list isMarked
  have mem : tsb.ack mask part ∈ cells := by simp [isCells]
  have head : back.head? = some next := by
    rw [isCells] at list
    rw [isBack, ← list.links.1, isNext]
  obtain ⟨left, isLeft⟩ : ∃ left, back = next :: left := by
    cases back with
    | nil => simp at head
    | cons first left => exact ⟨left, by rw [Option.some.inj head]⟩
  obtain ⟨stepped, listNext⟩ := @PartList.mark _ _ _ _ _ _ _ next mask marked list pool mem
    (by rw [← isMarkedEntry]) (by rw [← isMarkedEntry]) (by simp [← isMarkedEntry])
  generalize isNow : (tsb.setEntry (tsb.ack mask part) marked).setAck mask part next = now
    at stepped listNext
  have ackNow : now.ack mask part = next := by simp [← isNow, Tsb.setAck]
  have tableNow : now.table = tsb.table := by simp [← isNow, Tsb.setAck, Tsb.setEntry]
  rw [delIfMarked]
  by_cases all : fmask ⊆ dmask
  · rw [isCells] at listNext
    obtain ⟨final, owner', free', deleted, listFinal⟩ := delEntry_spec stepped.pool listNext
    rw [if_pos all]
    refine ⟨left, final, deleted.ran, isLeft, owner', free', _, left,
      stepped.trans deleted.step, listFinal, ⟨front, ?_⟩, le_refl _⟩
    rw [deleted.table, deleted.ack, tableNow, ackNow, ← isLeft, isBack, append_assoc]
  · rw [if_neg all]
    refine ⟨left, now, rfl, isLeft, owner, free, cells, left, stepped, listNext,
      ⟨front ++ [tsb.ack mask part], ?_⟩, le_refl _⟩
    rw [tableNow, ackNow, ← isLeft, isBack, isCells]
    simp

theorem putAckScan_spec (rounds : Nat) {scan : AckScan Tuple} (pool : Pool scan.tsb owner free)
    (list : PartList scan.tsb owner part cells) (cursor : CursorAt scan.tsb part mask cells back)
    (enough : back.length < rounds) :
    ∃ after, putAckScan seqno part mask fmask rounds scan = .ok after ∧
      Leaves part mask scan.tsb owner free back.length after.tsb ∧
      (scan.found = true → after.found = true) ∧
      ((scan.tsb.heap (scan.tsb.ack mask part)).dmask ≠ none →
        (scan.tsb.heap (scan.tsb.ack mask part)).seqnum = seqno →
        after.found = true ∧ Leaves part mask scan.tsb owner free (back.length - 1) after.tsb) := by
  induction rounds generalizing scan owner free cells back with
  | zero => simp at enough
  | succ rounds ih =>
    have stays : Leaves part mask scan.tsb owner free back.length scan.tsb :=
      ⟨owner, free, cells, back, .refl pool, list, cursor, le_refl _⟩
    rw [putAckScan]
    dsimp only
    cases isMask : (scan.tsb.heap (scan.tsb.ack mask part)).dmask with
    | none => exact ⟨scan, rfl, stays, id, fun marked => absurd rfl marked⟩
    | some dmask =>
      have isMarked : (scan.tsb.heap (scan.tsb.ack mask part)).dmask ≠ none := by
        rw [isMask]
        simp
      dsimp only
      by_cases reached : (scan.tsb.heap (scan.tsb.ack mask part)).seqnum ≤ seqno
      · rw [if_pos reached]
        obtain ⟨next, isNext⟩ := list.exists_next cursor.mem isMarked
        obtain ⟨left, now, ran, isLeft, owner', free', cells', back', stepped, listNow,
          cursorNow, fewer⟩ := @delIfMarked_spec Tuple part scan.tsb owner free cells back mask
            fmask next
            (if (decide ((scan.tsb.heap (scan.tsb.ack mask part)).seqnum = seqno) &&
              scan.slot.isSome) = true then scan.slot
            else (scan.tsb.heap (scan.tsb.ack mask part)).rtup)
            (insert mask dmask) pool list cursor isMarked isNext
        rw [isLeft, length_cons] at enough
        simp only [isNext] at ran ⊢
        rw [ran]
        have shortened : back'.length < rounds := by omega
        obtain ⟨after, scanned, leaves, keeps, -⟩ := @ih owner' free' cells' back'
          { found := scan.found ||
              decide ((scan.tsb.heap (scan.tsb.ack mask part)).seqnum = seqno)
            slot := if (decide ((scan.tsb.heap (scan.tsb.ack mask part)).seqnum = seqno) &&
              scan.slot.isSome) = true then none else scan.slot
            warnings := if (scan.found ||
                decide ((scan.tsb.heap (scan.tsb.ack mask part)).seqnum = seqno)) = true then
              scan.warnings
            else scan.warnings ++
              [.skipping (scan.tsb.heap (scan.tsb.ack mask part)).seqnum seqno]
            tsb := now } stepped.pool listNow cursorNow shortened
        have shorter : Leaves part mask scan.tsb owner free (back.length - 1) after.tsb := by
          refine leaves.after stepped ?_
          rw [isLeft, length_cons]
          omega
        refine ⟨after, scanned, leaves.after stepped ?_, fun found => keeps ?_,
          fun _ same => ⟨keeps ?_, shorter⟩⟩
        · rw [isLeft, length_cons]
          omega
        · simp [found]
        · simp [same]
      · rw [if_neg reached]
        exact ⟨scan, rfl, stays, id, fun _ same => absurd (le_of_eq same) reached⟩

theorem putAckTsb_leaves (slot : Option Tuple) (pool : Pool tsb owner free)
    (list : PartList tsb owner part cells) (cursor : CursorAt tsb part mask cells back)
    (enough : back.length < tsb.maxSize + tsb.numParts + 2) :
    ∃ result, putAckTsb slot seqno part mask fmask tsb = .ok result ∧
      (∃ left, Leaves part mask tsb owner free left result.tsb) ∧
      ((tsb.heap (tsb.ack mask part)).dmask ≠ none → (tsb.heap (tsb.ack mask part)).seqnum = seqno →
        Leaves part mask tsb owner free (back.length - 1) result.tsb) := by
  obtain ⟨scan, scanned, leaves, -, passes⟩ := @putAckScan_spec Tuple part owner free cells back
    mask fmask seqno _ ⟨false, slot, [], tsb⟩ pool list cursor enough
  simp only [putAckTsb, scanned, bind, Except.bind]
  by_cases missing : (scan.tsb.heap (scan.tsb.ack mask part)).dmask = none ∧ scan.found = false
  · rw [if_pos missing]
    have notPassed : ¬ ((tsb.heap (tsb.ack mask part)).dmask ≠ none ∧
        (tsb.heap (tsb.ack mask part)).seqnum = seqno) := by
      rintro ⟨marked, same⟩
      rw [(passes marked same).1] at missing
      exact Bool.noConfusion missing.2
    obtain ⟨owner', free', cells', back', stepped, listScan, cursorScan, -⟩ := leaves
    rcases allocEntryWLast_spec part stepped.pool with
      refused | ⟨a, alloced, free'', allotted⟩
    · rw [refused]
      exact ⟨_, rfl, ⟨_, owner', free', cells', back', stepped, listScan, cursorScan, le_refl _⟩,
        fun marked same => absurd ⟨marked, same⟩ notPassed⟩
    · rw [allotted.ran]
      obtain ⟨linked, listLinked, table, ack⟩ :=
        linkRecord_spec ⟨seqno, {mask}, scan.slot⟩ allotted listScan
      have sentinel := (linkRecord_heap allotted ⟨seqno, {mask}, scan.slot⟩
        (listScan.owned _ (by simp))).1
      have isLink : appendEntry scan.slot seqno part mask a alloced =
          linkRecord ⟨seqno, {mask}, scan.slot⟩ part a alloced := rfl
      have atSentinel := listScan.eq_sentinel cursorScan.mem missing.1
      simp only [isLink]
      rw [ack, atSentinel, sentinel]
      refine ⟨_, rfl, ⟨0, _, free'', _, [], (stepped.trans linked).trans (setAck_partStep linked.pool),
        listLinked.setAck, ⟨cells' ++ [scan.tsb.table part], ?_⟩, le_refl _⟩,
        fun marked same => absurd ⟨marked, same⟩ notPassed⟩
      simp only [Tsb.setAck, update_self]
      rw [table]
  · rw [if_neg missing]
    exact ⟨_, rfl, ⟨_, leaves⟩, fun marked same => (passes marked same).2⟩

theorem ackLoop_leaves {client : Client} {delMask : Finset Client} {toMarker : Bool}
    (rounds : Nat) (crossed : Bool) {tsb : HeadedTsb Tuple} (pool : Pool tsb.toTsb owner free)
    (list : PartList tsb.toTsb owner part cells)
    (cursor : CursorAt tsb.toTsb part client cells back) (enough : back.length < rounds)
    (bounded : back.length < tsb.maxSize + tsb.numParts + 2) : ∃ warnings next,
      ackLoop part client delMask toMarker rounds crossed tsb = .ok (warnings, next) ∧
      ∃ left, Leaves part client tsb.toTsb owner free left next.toTsb := by
  induction rounds generalizing crossed tsb owner free cells back with
  | zero => simp at enough
  | succ rounds ih =>
    rw [ackLoop]
    dsimp only
    split
    · exact ⟨[], tsb, rfl, back.length, owner, free, cells, back, .refl pool, list, cursor,
        le_refl _⟩
    · next goesOn =>
        have marked : (tsb.heap (tsb.ack client part)).dmask ≠ none := by
          intro isNone
          exact goesOn (.inl (by simp [getUnackSeqnoTsb, isNone]))
        obtain ⟨front, mid, -, isBack⟩ := cursor.split list marked
        obtain ⟨result, ran, -, passes⟩ := @putAckTsb_leaves Tuple part tsb.toTsb owner free cells
          back client delMask (getUnackSeqnoTsb part client tsb.toTsb) none pool list cursor bounded
        obtain ⟨owner', free', cells', back', stepped, listNext, cursorNext, fewer⟩ :=
          passes marked (by simp [getUnackSeqnoTsb, marked])
        have some_left : 0 < back.length := by simp [isBack]
        rw [ran]
        have sizes : back'.length < ({ tsb with toTsb := result.tsb } : HeadedTsb Tuple).maxSize +
              ({ tsb with toTsb := result.tsb } : HeadedTsb Tuple).numParts + 2 := by
          simp only [stepped.maxSize, stepped.numParts]
          omega
        obtain ⟨warnings, next, looped, left, leaves⟩ := @ih owner' free' cells' back'
          (crossed || decide (tsb.ack client part = tsb.head client part))
          { tsb with toTsb := result.tsb } stepped.pool listNext cursorNext (by omega) sizes
        refine ⟨result.warnings ++ warnings, next, ?_, left, leaves.after stepped (le_refl _)⟩
        simp [bind, Except.bind, looped]

end Scan

/-! ## The whole buffer -/

/-- All lists with their entries, and the counters that agree with them. -/
structure TsbKept (tsb : Tsb Tuple) (owner : Nat → Owner) (free : List Nat)
    (cells : Nat → List Nat) : Prop where
  pool : Pool tsb owner free
  parts : ∀ part < tsb.numParts, PartList tsb owner part (cells part)
  stock : tsb.size + free.length = tsb.maxSize
  taken : ∑ part ∈ Finset.range tsb.numParts, tsb.taken part = tsb.size

section Kept

variable {tsb next : Tsb Tuple} {owner owner' : Nat → Owner} {free free' : List Nat}
  {cells : Nat → List Nat} {part : Nat}

variable (kept : TsbKept tsb owner free cells)

include kept in
theorem TsbKept.step (inside : part < tsb.numParts)
    (step : PartStep part tsb owner free next owner' free') {cells' : List Nat}
    (list : PartList next owner' part cells') :
    TsbKept next owner' free' (update cells part cells') where
  pool := step.pool
  parts := by
    rw [step.numParts]
    intro q isPart
    by_cases here : q = part
    · rw [here, update_self]
      exact list
    · rw [update_of_ne here]
      exact (kept.parts q isPart).frame here step.untouched
  stock := by rw [step.stock, kept.stock, step.maxSize]
  taken := step.taken_eq inside kept.taken

include kept in
theorem TsbKept.leaves {client : Client} {left : Nat} (inside : part < tsb.numParts)
    (leaves : Leaves part client tsb owner free left next) :
    ∃ owner' free' cells', TsbKept next owner' free' cells' := by
  obtain ⟨owner', free', cells', -, step, list, -⟩ := leaves
  exact ⟨owner', free', _, kept.step inside step list⟩

section

variable (kept : TsbKept tsb owner free cells)
include kept

theorem TsbKept.taken_nonneg : ∀ q ∈ Finset.range tsb.numParts, 0 ≤ tsb.taken q := by
  intro q isPart
  rw [Tsb.taken, (kept.parts q (Finset.mem_range.mp isPart)).count]
  split <;> omega

theorem TsbKept.length_le (inside : part < tsb.numParts) : (cells part).length ≤ tsb.maxSize := by
  have most := Finset.single_le_sum kept.taken_nonneg (Finset.mem_range.mpr inside)
  have stock := kept.stock
  have count := (kept.parts part inside).count
  rw [kept.taken, Tsb.taken, count] at most
  split at most <;> omega

theorem TsbKept.partCells (inside : part < tsb.numParts) :
    tsb.partCells part = (cells part ++ [tsb.table part]).reverse := by
  have short := kept.length_le inside
  have follows := (kept.parts part inside).linked.follows_reverse
  have walked := @Follows.walk _ _ _ follows (tsb.maxSize + tsb.numParts + 1) (by simp; omega)
  rw [head?_reverse, getLast?_concat] at walked
  exact walked

theorem TsbKept.freeCells : tsb.freeCells = free := by
  have stock := kept.stock
  have some := Finset.sum_nonneg kept.taken_nonneg
  rw [kept.taken] at some
  rw [Tsb.freeCells, kept.pool.tail]
  exact kept.pool.follows.walk (by omega)

end

section

include kept

theorem TsbKept.cursorAt {client : Client} (inside : part < tsb.numParts)
    (mem : tsb.ack client part ∈ tsb.partCells part) :
    ∃ back, CursorAt tsb part client (cells part) back ∧
      back.length < tsb.maxSize + tsb.numParts + 2 := by
  rw [kept.partCells inside, mem_reverse] at mem
  obtain ⟨front, back, split⟩ := append_of_mem mem
  have short := kept.length_le inside
  have length_eq := congrArg List.length split
  simp only [length_append, length_cons, length_nil] at length_eq
  exact ⟨back, ⟨front, split⟩, by omega⟩

theorem TsbKept.apart : (tsb.freeCells ++ (List.range tsb.numParts).flatMap
      fun part => (tsb.lastEnts part).toList ++ tsb.partCells part).Nodup := by
  have owned : ∀ part < tsb.numParts, ∀ a ∈ (tsb.lastEnts part).toList ++ tsb.partCells part,
        owner a = .reserved part ∨ owner a = .list part := by
    intro part inside a mem
    rw [kept.partCells inside] at mem
    rcases mem_append.mp mem with reserved | listed
    · exact .inl (kept.pool.reservedOwned part a (Option.mem_toList.mp reserved))
    · exact .inr ((kept.parts part inside).owned a (mem_reverse.mp listed))
  rw [kept.freeCells]
  refine nodup_append.mpr ⟨kept.pool.nodup, nodup_flatMap.mpr ⟨?_, ?_⟩, ?_⟩
  · intro part mem
    have inside := mem_range.mp mem
    rw [kept.partCells inside]
    refine nodup_append.mpr ⟨?_, nodup_reverse.mpr (kept.parts part inside).nodup, ?_⟩
    · cases tsb.lastEnts part <;> simp
    · rintro a reserved b listed rfl
      have isReserved := kept.pool.reservedOwned part a (Option.mem_toList.mp reserved)
      rw [(kept.parts part inside).owned a (mem_reverse.mp listed)] at isReserved
      cases isReserved
  · refine List.Pairwise.imp_of_mem ?_ nodup_range
    intro p q pMem qMem different a inP inQ
    have ofP := owned p (mem_range.mp pMem) a inP
    have ofQ := owned q (mem_range.mp qMem) a inQ
    rcases ofP with ofP | ofP <;> rcases ofQ with ofQ | ofQ <;> rw [ofP] at ofQ <;>
      cases ofQ <;> exact different rfl
  · rintro a isFree b mem rfl
    obtain ⟨part, isPart, inPart⟩ := mem_flatMap.mp mem
    have ofPart := owned part (mem_range.mp isPart) a inPart
    rw [kept.pool.freeOwned a isFree] at ofPart
    rcases ofPart with ofPart | ofPart <;> cases ofPart

theorem TsbKept.accounted : tsb.Accounted := by
  refine ⟨?_, ?_, ?_, kept.apart⟩
  · rw [kept.freeCells, Int.add_comm]
    exact kept.stock
  · have taken := kept.taken
    simp only [Tsb.taken, Finset.sum_add_distrib] at taken
    rw [Tsb.heldReserves, Finset.sum_add_distrib]
    simp only [Finset.sum_const, Finset.card_range, nsmul_eq_mul, mul_one]
    omega
  · intro part mem
    have inside := Finset.mem_range.mp mem
    rw [kept.partCells inside, (kept.parts part inside).count]
    simp

end

end Kept

/-! ## Initialisation -/

variable {part : Nat} {tsb : HeadedTsb Tuple} {client : Client}

theorem initTsb_kept (raw : Nat → TsbEntry Tuple) {nparts max : Nat} (some : 0 < max + nparts) :
    (initTsb raw nparts max).numParts = nparts ∧
      (∃ owner free, TsbKept (initTsb raw nparts max) owner free fun _ => []) ∧
      ∀ part < nparts, ∀ client,
        (initTsb raw nparts max).ack client part = (initTsb raw nparts max).table part := by
  obtain ⟨owner, free, inits⟩ := initTsb_inits raw some
  exact ⟨inits.numParts, ⟨owner, free, inits.pool, fun part inside =>
    (inits.parts part (inits.numParts ▸ inside)).partList, inits.accounts.stock,
    inits.accounts.taken⟩, fun part inside => (inits.parts part inside).ack⟩

/-! ## Runs -/

def Kept (tsb : HeadedTsb Tuple) : Prop := ∃ owner free cells, TsbKept tsb.toTsb owner free cells

theorem appendResultTsb_kept (kept : Kept tsb) (record : TsbRecord Tuple)
    (inside : part < tsb.numParts) :
    Kept { tsb with toTsb := (appendResultTsb record part tsb.toTsb).2 } := by
  obtain ⟨owner, free, cells, kept⟩ := kept
  rcases allocEntryWLast_spec part kept.pool with
    refused | ⟨a, alloced, free', allotted⟩
  · rw [appendResultTsb, refused]
    exact ⟨owner, free, cells, kept⟩
  · obtain ⟨step, list, -⟩ := linkRecord_spec record allotted (kept.parts part inside)
    rw [appendResultTsb, allotted.ran]
    exact ⟨_, free', _, kept.step inside step list⟩

theorem insertMarkerEndTsb_kept (kept : Kept tsb) (r : Option Tuple)
    (inside : part < tsb.numParts) :
    Kept { tsb with toTsb := (insertMarkerEndTsb r part tsb.toTsb).2 } := by
  obtain ⟨owner, free, cells, kept⟩ := kept
  rcases allocEntry_spec part kept.pool with
    ⟨refused, -⟩ | ⟨a, alloced, free', taken, allotted⟩
  · rw [insertMarkerEndTsb, refused]
    exact ⟨owner, free, cells, kept⟩
  · obtain ⟨step, list, -⟩ :=
      linkRecord_spec ⟨punctuation, {.produced}, r⟩ allotted (kept.parts part inside)
    rw [insertMarkerEndTsb, taken]
    exact ⟨_, free', _, kept.step inside step list⟩

theorem bumpBack_toTsb (client : Client) (part tentry : Nat) (tsb : HeadedTsb Tuple) :
    (bumpBack client part tentry tsb).toTsb = { tsb.toTsb with
          ack := (bumpBack client part tentry tsb).ack
          counts := update tsb.counts part (tsb.counts part + 1) } ∧
      ∀ q, q ≠ part → ∀ other, (bumpBack client part tentry tsb).ack other q = tsb.ack other q := by
  simp only [bumpBack]
  split
  · exact ⟨rfl, fun q elsewhere other => setAck_part elsewhere ..⟩
  · exact ⟨rfl, fun _ _ _ => rfl⟩

section

variable (kept : Kept tsb)
include kept

theorem insertMarkerStartTsb_kept (r : Option Tuple) {mask : Finset Client}
    (inside : part < tsb.numParts) (placed : tsb.fTail = none ∨ (markerReaders mask).length = 1 ∧
      ∀ client ∈ markerReaders mask, tsb.head client part ∈ tsb.partCells part) :
    ∃ inserted next, insertMarkerStartTsb r part mask tsb = .ok (inserted, next) ∧ Kept next := by
  obtain ⟨owner, free, cells, kept⟩ := kept
  rcases allocEntry_spec part kept.pool with
    ⟨refused, -⟩ | ⟨a, alloced, free', taken, allotted⟩
  · rw [insertMarkerStartTsb, refused]
    exact ⟨false, tsb, rfl, owner, free, cells, kept⟩
  · have available : tsb.fTail ≠ none := by
      intro noTail
      simp [allocEntry, noTail] at taken
    obtain ⟨one, heads⟩ := placed.resolve_left available
    obtain ⟨reader, isReader⟩ := length_eq_one_iff.mp one
    have mem := heads reader (by simp [isReader])
    rw [kept.partCells inside, mem_reverse] at mem
    obtain ⟨isBumped, acks⟩ := bumpBack_toTsb reader part a { tsb with toTsb := alloced }
    obtain ⟨cells', step, list⟩ := linkBefore_spec r mask allotted (kept.parts part inside) mem
      isBumped fun q other client => by rw [acks q other client, allotted.takes.ack]
    simp only [insertMarkerStartTsb, taken, isReader, getLast?_singleton, foldl_cons, foldl_nil]
    exact ⟨true, _, rfl, _, free', _, kept.step inside step list⟩

theorem returnLastEntTsb_kept (inside : part < tsb.numParts) (held : tsb.lastEnts part ≠ none) :
    ∃ next, returnLastEntTsb part tsb.toTsb = .ok next ∧ Kept { tsb with toTsb := next } := by
  obtain ⟨owner, free, cells, kept⟩ := kept
  obtain ⟨e, isLast⟩ := Option.ne_none_iff_exists'.mp held
  obtain ⟨-, untouched⟩ := returned_pool kept.pool isLast
  have ran : returnLastEntTsb part tsb.toTsb = .ok (returned part e tsb.toTsb) := by
    rw [returnLastEntTsb, isLast]
    rfl
  -- no list changes, so that the step may be taken for one at any partition
  have list := (kept.parts part inside).frame (Nat.ne_of_lt (Nat.lt_succ_self part))
    (untouched (part + 1))
  exact ⟨_, ran, _, _, _, kept.step inside (returned_partStep kept.pool isLast) list⟩

theorem ackLoop_kept (inside : part < tsb.numParts)
    (placed : tsb.ack client part ∈ tsb.partCells part) (delMask : Finset Client) (toMarker : Bool)
    : ∃ warnings next, ackLoop part client delMask toMarker (tsb.maxSize + tsb.numParts + 2) false
        tsb = .ok (warnings, next) ∧ Kept (resetHeadTsb part client next) := by
  obtain ⟨owner, free, cells, kept⟩ := kept
  obtain ⟨back, cursor, bounded⟩ := kept.cursorAt inside placed
  obtain ⟨warnings, next, ran, left, leaves⟩ := @ackLoop_leaves Tuple part owner free (cells part)
    back client delMask toMarker _ false tsb kept.pool (kept.parts part inside) cursor bounded
    bounded
  obtain ⟨owner', free', cells', keptNext⟩ := kept.leaves inside leaves
  refine ⟨warnings, next, ran, owner', free', cells', ?_⟩
  cases client <;> exact keptNext

theorem advanceHeadTsb_kept (inside : part < tsb.numParts)
    (placed : client = .produced ∨ tsb.head client part ∈ tsb.partCells part) :
    ∃ next, advanceHeadTsb part client tsb = .ok next ∧ Kept next := by
  have isKept := kept
  obtain ⟨owner, free, cells, kept⟩ := kept
  cases client with
  | produced => exact ⟨tsb, rfl, isKept⟩
  | primary | secondary =>
    have mem := placed.resolve_left (by simp)
    simp only [advanceHeadTsb]
    split
    · exact ⟨tsb, rfl, isKept⟩
    · next marked =>
        rw [kept.partCells inside, mem_reverse] at mem
        obtain ⟨next, isNext⟩ := (kept.parts part inside).exists_next mem marked
        rw [isNext]
        exact ⟨_, rfl, isKept⟩

theorem tsbStep_kept {op : TsbOp Tuple} (safe : op.Safe tsb) :
    ∃ emitted next, tsbStep tsb op = (emitted, .ok next) ∧ Kept next := by
  cases op with
  | putAck slot seqno part client fmask =>
    obtain ⟨inside, placed⟩ := safe
    obtain ⟨owner, free, cells, kept⟩ := kept
    obtain ⟨back, cursor, bounded⟩ := kept.cursorAt inside placed
    obtain ⟨result, ran, ⟨left, leaves⟩, -⟩ := @putAckTsb_leaves Tuple part tsb.toTsb owner free
      (cells part) back client fmask seqno slot kept.pool (kept.parts part inside) cursor bounded
    rw [tsbStep, ran]
    exact ⟨_, _, rfl, kept.leaves inside leaves⟩
  | appendResult record part => exact ⟨_, _, rfl, appendResultTsb_kept kept record safe⟩
  | insertMarkerEnd r part => exact ⟨_, _, rfl, insertMarkerEndTsb_kept kept r safe⟩
  | insertMarkerStart r part mask =>
    obtain ⟨inserted, next, ran, keptNext⟩ := insertMarkerStartTsb_kept kept r safe.1 safe.2
    rw [tsbStep, ran]
    exact ⟨_, _, rfl, keptNext⟩
  | advanceHead part client =>
    obtain ⟨next, ran, keptNext⟩ := advanceHeadTsb_kept kept safe.1 safe.2
    rw [tsbStep, ran]
    exact ⟨_, _, rfl, keptNext⟩
  | ackAll part client delMask =>
    obtain ⟨warnings, next, ran, keptNext⟩ := ackLoop_kept kept safe.1 safe.2 delMask false
    rw [tsbStep, ackAllTsb, ran]
    exact ⟨_, _, rfl, keptNext⟩
  | ackToMarker part client delMask =>
    obtain ⟨inside, consumer, placed⟩ := safe
    obtain ⟨warnings, next, ran, keptNext⟩ := ackLoop_kept kept inside placed delMask true
    rw [tsbStep, if_neg consumer, ackToMarkerTsb, ran]
    exact ⟨_, _, rfl, keptNext⟩
  | returnLastEnt part =>
    obtain ⟨next, ran, keptNext⟩ := returnLastEntTsb_kept kept safe.1 safe.2
    rw [tsbStep, ran]
    exact ⟨_, _, rfl, keptNext⟩

end

/-- In a run whose operations are all safe no operation fails, and after each of them the free
entries and the entries in use make up the buffer, the partitions and the reserves account for
the entries in use, and no entry is in two places. -/
theorem entries_accounted (raw : Nat → TsbEntry Tuple) (nparts max : Nat)
    (some : 0 < max + nparts) (ops : List (TsbOp Tuple))
    (safe : tsbMachine.Guarded (fun tsb op => op.Safe tsb) (initHeadedTsb raw nparts max) ops) :
    (∃ warnings tsb, tsbMachine.run (initHeadedTsb raw nparts max) ops = (warnings, .ok tsb)) ∧
      tsbMachine.Throughout (fun tsb => tsb.Accounted) (initHeadedTsb raw nparts max) ops := by
  have start : Kept (initHeadedTsb raw nparts max) := by
    obtain ⟨-, ⟨owner, free, kept⟩, -⟩ := initTsb_kept raw some
    exact ⟨owner, free, _, kept⟩
  refine tsbMachine.throughout_of_guarded (fun tsb kept => ?_)
    (fun tsb op kept safe => tsbStep_kept kept safe) start safe
  obtain ⟨owner, free, cells, kept⟩ := kept
  exact kept.accounted

def clearedMemory : Nat → TsbEntry Nat := fun _ => ⟨none, none, 0, none, none⟩

/-- Two partitions; a marker goes to the primary reader and is acknowledged, and a reserve is
given back. -/
def markedRun : List (TsbOp Nat) :=
  [.putAck (some 7) 1 0 .produced {.produced, .primary, .secondary},
    .insertMarkerStart none 0 {.primary},
    .appendResult ⟨2, {.produced}, some 8⟩ 0,
    .ackToMarker 0 .secondary {.produced, .primary, .secondary},
    .ackAll 0 .primary {.produced, .primary, .secondary},
    .returnLastEnt 1]

theorem entries_accounted_marked :
    tsbMachine.Guarded (fun tsb op => op.Safe tsb) (initHeadedTsb clearedMemory 2 3) markedRun ∧
      (∃ warnings tsb,
        tsbMachine.run (initHeadedTsb clearedMemory 2 3) markedRun = (warnings, .ok tsb)) ∧
      tsbMachine.Throughout (fun tsb => tsb.Accounted) (initHeadedTsb clearedMemory 2 3)
        markedRun :=
  have safe : tsbMachine.Guarded (fun tsb op => op.Safe tsb) (initHeadedTsb clearedMemory 2 3)
      markedRun := by decide +kernel
  ⟨safe, entries_accounted clearedMemory 2 3 (by decide) markedRun safe⟩

/-- A marker for both readers is counted twice.  And when both readers have acknowledged a marker
at the end, it is freed although the producer's cursor is still there, and the next tuple frees it
once more. -/
theorem marker_breaks_accounts :
    (∃ tsb, (tsbMachine.run (initHeadedTsb clearedMemory 1 2)
        [.insertMarkerStart none 0 {.primary, .secondary}]).2 = .ok tsb ∧ ¬ tsb.Accounted) ∧
      ∃ warnings, tsbMachine.run (initHeadedTsb clearedMemory 1 2)
        [.insertMarkerEnd none 0, .ackAll 0 .primary {.produced, .primary, .secondary},
          .ackAll 0 .secondary {.produced, .primary, .secondary},
          .putAck (some 7) 1 0 .produced {.produced, .primary, .secondary}] =
        (warnings, .error (.tsb .negativeCount)) := by
  constructor
  · refine ⟨_, rfl, ?_⟩
    decide +kernel
  · exact ⟨_, rfl⟩

end TelegraphCQ.Flux
