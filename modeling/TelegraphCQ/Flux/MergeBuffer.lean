import TelegraphCQ.Flux.OrderedMerge
import TelegraphCQ.Flux.TsbAccounted
import TelegraphCQ.Foundation.Merging

/-!
# The buffer of the ordered merge

The consumer puts the tuples of a producer at the end of its partition and takes them from the
front.  The cursor for new tuples stands at the sentinel, the other one at the first entry.
-/

namespace TelegraphCQ.Flux

open Foundation List Function

variable {Tuple : Type}

def EntryHolds (seqOf : Tuple → Int) (tsb : Tsb Tuple) (a : Nat) (tuple : Tuple) : Prop :=
  (tsb.heap a).rtup = some tuple ∧ (tsb.heap a).seqnum = seqOf tuple ∧
    (tsb.heap a).dmask = some {.produced}

structure Holds (seqOf : Tuple → Int) (tsb : Tsb Tuple) (part : Nat) (cells : List Nat)
    (tuples : List Tuple) : Prop where
  entries : List.Forall₂ (EntryHolds seqOf tsb) cells tuples
  produced : tsb.ack .produced part = tsb.table part
  primary : (cells ++ [tsb.table part]).head? = some (tsb.ack .primary part)

section Buffer

variable {seqOf : Tuple → Int} {tsb : Tsb Tuple} {owner : Nat → Owner} {free : List Nat}
  {cells : List Nat} {tuples : List Tuple} {part : Nat}

variable {next : Tsb Tuple}

theorem entries_congr (entries : List.Forall₂ (EntryHolds seqOf tsb) cells tuples)
    (same : ∀ a ∈ cells, (next.heap a).rtup = (tsb.heap a).rtup ∧
      (next.heap a).seqnum = (tsb.heap a).seqnum ∧ (next.heap a).dmask = (tsb.heap a).dmask) :
    List.Forall₂ (EntryHolds seqOf next) cells tuples := by
  induction entries with
  | nil => exact .nil
  | cons entry entries ih =>
    obtain ⟨sameTuple, sameSeqnum, sameMask⟩ := same _ mem_cons_self
    refine .cons ⟨sameTuple.trans entry.1, sameSeqnum.trans entry.2.1, sameMask.trans entry.2.2⟩
      (ih fun a mem => same a (mem_cons_of_mem _ mem))

theorem entries_rtup (entries : List.Forall₂ (EntryHolds seqOf tsb) cells tuples) :
    cells.filterMap (fun a => (tsb.heap a).rtup) = tuples := by
  induction entries with
  | nil => rfl
  | cons entry entries ih => rw [filterMap_cons, entry.1, ih]

theorem Holds.frame {owner' : Nat → Owner} {other : Nat}
    (holds : Holds seqOf tsb part cells tuples) (list : PartList tsb owner part cells)
    (elsewhere : part ≠ other) (untouched : Untouched tsb next owner owner' other) :
    Holds seqOf next part cells tuples := by
  have heap : ∀ a ∈ cells, next.heap a = tsb.heap a := fun a mem =>
    untouched.heap part elsewhere a (list.owned a (by simp [mem]))
  refine ⟨entries_congr holds.entries fun a mem => ?_, ?_, ?_⟩
  · rw [heap a mem]
    exact ⟨rfl, rfl, rfl⟩
  · rw [untouched.ack part elsewhere, untouched.table part elsewhere]
    exact holds.produced
  · rw [untouched.ack part elsewhere, untouched.table part elsewhere]
    exact holds.primary

theorem putProduced_spec (pool : Pool tsb owner free) (list : PartList tsb owner part cells)
    (holds : Holds seqOf tsb part cells tuples) (tuple : Tuple) (fmask : Finset Client) :
    ∃ result, putAckTsb (some tuple) (seqOf tuple) part .produced fmask tsb = .ok result ∧
      (result.slot = none → ∃ owner' free', PartStep part tsb owner free result.tsb owner' free' ∧
          PartList result.tsb owner' part (cells ++ [tsb.table part]) ∧
          Holds seqOf result.tsb part (cells ++ [tsb.table part]) (tuples ++ [tuple])) := by
  have sentinel : (tsb.heap (tsb.ack .produced part)).dmask = none := by
    rw [holds.produced]
    exact list.sentinel
  have scanned : putAckScan (seqOf tuple) part .produced fmask (tsb.maxSize + tsb.numParts + 2)
      ⟨false, some tuple, [], tsb⟩ = .ok ⟨false, some tuple, [], tsb⟩ :=
    putAckScan_stop _ (.inl sentinel)
  simp only [putAckTsb, scanned, bind, Except.bind, sentinel, and_self, if_true]
  rcases allocEntryWLast_spec part pool with
    refused | ⟨a, alloced, free', allotted⟩
  · rw [refused]
    exact ⟨_, rfl, fun taken => by cases taken⟩
  · obtain ⟨linked, listLinked, table, ack⟩ :=
      linkRecord_spec ⟨seqOf tuple, {.produced}, some tuple⟩ allotted list
    obtain ⟨last, -, others⟩ :=
      linkRecord_heap allotted ⟨seqOf tuple, {.produced}, some tuple⟩
        (list.owned _ (by simp))
    have isLink : appendEntry (some tuple) (seqOf tuple) part .produced a alloced =
        linkRecord ⟨seqOf tuple, {.produced}, some tuple⟩ part a alloced := rfl
    simp only [allotted.ran, isLink]
    rw [ack, holds.produced, last]
    refine ⟨_, rfl, fun _ => ⟨_, free', linked.trans (setAck_partStep linked.pool),
      listLinked.setAck, ?_⟩⟩
    refine ⟨?_, ?_, ?_⟩
    · refine rel_append (R := EntryHolds seqOf _) ?_ (.cons ?_ .nil)
      · refine entries_congr holds.entries fun b mem => ?_
        have notNew : b ≠ a := fun same => allotted.fresh list (by simp [← same, mem])
        have notLast : b ≠ tsb.table part := by
          rintro rfl
          exact list.marked _ mem list.sentinel
        simp [Tsb.setAck, others b notNew notLast]
      · simp only [EntryHolds, Tsb.setAck, last]
        trivial
    · simp [Tsb.setAck, table]
    · simp only [Tsb.setAck, table]
      rw [update_of_ne (by simp), ack, append_assoc]
      have first := holds.primary
      cases cells <;> simpa using first

theorem takePrimary_spec {c : Nat} {tuple : Tuple} (pool : Pool tsb owner free)
    (list : PartList tsb owner part (c :: cells))
    (holds : Holds seqOf tsb part (c :: cells) (tuple :: tuples))
    (ascending : (tuple :: tuples).Pairwise fun x y => seqOf x < seqOf y) :
    ∃ result, putAckTsb none (seqOf tuple) part .primary bufferMask tsb = .ok result ∧
      result.accepted = true ∧ (tsb.heap c).next = some (result.tsb.ack .primary part) ∧
      ∃ owner' free', PartStep part tsb owner free result.tsb owner' free' ∧
        PartList result.tsb owner' part cells ∧ Holds seqOf result.tsb part cells tuples := by
  obtain ⟨⟨isTuple, isSeqnum, isMask⟩, rest⟩ := List.forall₂_cons.mp holds.entries
  have cursor : tsb.ack .primary part = c := (Option.some.inj holds.primary).symm
  have isNext := (@PartList.links Tuple part tsb owner [] cells c list).1
  obtain ⟨d, isFirst⟩ : ∃ d, (cells ++ [tsb.table part]).head? = some d := by
    cases cells <;> exact ⟨_, rfl⟩
  rw [isFirst] at isNext
  have later : c ∉ cells ++ [tsb.table part] := (nodup_cons.mp list.nodup).1
  have marked : ∀ a ∈ cells ++ [tsb.table part], a ≠ c := fun a mem same => later (same ▸ mem)
  -- the entry is marked and the cursor goes on; then all of the mask have marked it
  set now := (tsb.setEntry c { tsb.heap c with dmask := some {.primary, .produced} }).setAck
    .primary part d with isNow
  obtain ⟨stepped, listNow⟩ :
      PartStep part tsb owner free now owner free ∧ PartList now owner part (c :: cells) :=
    list.mark pool mem_cons_self rfl rfl (by simp)
  obtain ⟨final, owner', free', deleted, listFinal⟩ :=
    @delEntry_spec Tuple part now owner free [] cells c stepped.pool listNow
  have tableFinal : final.table = tsb.table := deleted.table
  have primary : final.ack .primary part = d := by
    rw [deleted.ack, isNow]
    simp [Tsb.setAck]
  have entries : ∀ a ∈ cells ++ [tsb.table part], (final.heap a).rtup = (tsb.heap a).rtup ∧
      (final.heap a).seqnum = (tsb.heap a).seqnum ∧ (final.heap a).dmask = (tsb.heap a).dmask := by
    intro a mem
    have heap : now.heap a = tsb.heap a := by
      simp [isNow, Tsb.setAck, Tsb.setEntry, update_of_ne (marked a mem)]
    rw [deleted.heap a (marked a mem), heap]
    exact ⟨rfl, rfl, rfl⟩
  -- the next entry has a larger number or is the sentinel
  have stops : (final.heap d).dmask = none ∨ seqOf tuple < (final.heap d).seqnum := by
    have mem : d ∈ cells ++ [tsb.table part] := mem_of_mem_head? isFirst
    obtain ⟨-, sameSeqnum, sameMask⟩ := entries d mem
    rw [sameSeqnum, sameMask]
    cases rest with
    | nil =>
      obtain rfl : tsb.table part = d := by simpa using isFirst
      exact .inl list.sentinel
    | @cons d' tuple' cells tuples entry rest =>
      obtain rfl : d' = d := by simpa using isFirst
      rw [entry.2.1]
      exact .inr ((pairwise_cons.mp ascending).1 tuple' mem_cons_self)
  have scanned : putAckScan (seqOf tuple) part .primary bufferMask
      (tsb.maxSize + tsb.numParts + 2) ⟨false, none, [], tsb⟩ = .ok ⟨true, none, [], final⟩ := by
    have masks : bufferMask ⊆ insert Client.primary {.produced} := by decide
    rw [← cursor] at isMask isSeqnum isNext
    refine putAckScan_once _ isMask isSeqnum isNext ?_ (primary.symm ▸ stops)
    rw [delIfMarked, if_pos masks, cursor]
    exact deleted.ran
  refine ⟨⟨true, none, [], final⟩, ?_, rfl, ?_, owner', free', stepped.trans deleted.step, listFinal,
    entries_congr rest fun a mem => entries a (by simp [mem]), ?_, ?_⟩
  · rw [putAckTsb, scanned]
    simp [bind, Except.bind]
  · rw [isNext]
    exact congrArg some primary.symm
  · show final.ack .produced part = final.table part
    rw [deleted.ack, tableFinal, isNow]
    simp only [Tsb.setAck, update_of_ne (show Client.produced ≠ .primary by decide)]
    exact holds.produced
  · show (cells ++ [final.table part]).head? = some (final.ack .primary part)
    rw [tableFinal, isFirst, primary]

end Buffer

/-! ## The buffer as one list for each producer -/

/-- The buffer holds `buf idx` of each producer, and its readers have acknowledged all they have
taken. -/
structure MergeHolds (seqOf : Tuple → Int) (nProd : Nat) (tsb : HeadedTsb Tuple)
    (buf : Nat → List Tuple) : Prop where
  numParts : tsb.numParts = nProd
  kept : ∃ owner free cells, TsbKept tsb.toTsb owner free cells ∧
    ∀ idx < nProd, Holds seqOf tsb.toTsb idx (cells idx) (buf idx)
  head : ∀ idx < nProd, tsb.head .primary idx = tsb.ack .primary idx

namespace MergeHolds

variable {seqOf : Tuple → Int} {nProd idx : Nat} {tsb : HeadedTsb Tuple}
  {buf : Nat → List Tuple}

theorem congr {buf' : Nat → List Tuple} (holds : MergeHolds seqOf nProd tsb buf)
    (same : ∀ idx < nProd, buf' idx = buf idx) : MergeHolds seqOf nProd tsb buf' := by
  obtain ⟨owner, free, cells, kept, parts⟩ := holds.kept
  refine ⟨holds.numParts, ⟨owner, free, cells, kept, fun idx inside => ?_⟩, holds.head⟩
  rw [same idx inside]
  exact parts idx inside

theorem counts (holds : MergeHolds seqOf nProd tsb buf) (inside : idx < nProd) :
    tsb.counts idx = (buf idx).length := by
  obtain ⟨owner, free, cells, kept, parts⟩ := holds.kept
  rw [(kept.parts idx (holds.numParts ▸ inside)).count, (parts idx inside).entries.length_eq]

theorem buffered {s : MergeState Tuple} (holds : MergeHolds seqOf nProd s.tsb buf)
    (inside : idx < nProd) : s.buffered idx = buf idx := by
  obtain ⟨owner, free, cells, kept, parts⟩ := holds.kept
  rw [MergeState.buffered, kept.partCells (holds.numParts ▸ inside), reverse_reverse,
    dropLast_concat]
  exact entries_rtup (parts idx inside).entries

theorem primPartEmpty_eq (holds : MergeHolds seqOf nProd tsb buf) (inside : idx < nProd) :
    primPartEmpty idx tsb = (buf idx).isEmpty ∧ ∀ tuple, (buf idx).head? = some tuple →
        (tsb.heap (tsb.head .primary idx)).rtup = some tuple ∧
        getUnackSeqnoTsb idx .primary tsb.toTsb = seqOf tuple := by
  obtain ⟨owner, free, cells, kept, parts⟩ := holds.kept
  have part := parts idx inside
  have entries := part.entries
  have first := part.primary
  rw [primPartEmpty, getUnackSeqnoTsb, holds.head idx inside]
  revert entries first
  cases cells idx with
  | nil =>
    intro entries first
    have atSentinel : tsb.table idx = tsb.ack .primary idx := Option.some.inj first
    have sentinel := (kept.parts idx (holds.numParts ▸ inside)).sentinel
    rw [List.forall₂_nil_left_iff.mp entries, ← atSentinel, sentinel]
    simp
  | cons c cells =>
    intro entries first
    obtain ⟨tuple, tuples, entry, -, isBuf⟩ := List.forall₂_cons_left_iff.mp entries
    have atFirst : c = tsb.ack .primary idx := Option.some.inj first
    obtain ⟨isTuple, isSeqnum, isMask⟩ := entry
    rw [isBuf, ← atFirst, isTuple, isSeqnum, isMask]
    simp

theorem put (holds : MergeHolds seqOf nProd tsb buf) (inside : idx < nProd) (tuple : Tuple) :
    ∃ result, putAckTsb (some tuple) (seqOf tuple) idx .produced bufferMask tsb.toTsb = .ok result ∧
      (result.slot = none → MergeHolds seqOf nProd { tsb with toTsb := result.tsb }
        (update buf idx (buf idx ++ [tuple]))) := by
  obtain ⟨owner, free, cells, kept, parts⟩ := holds.kept
  have isPart : idx < tsb.numParts := holds.numParts ▸ inside
  obtain ⟨result, ran, puts⟩ := putProduced_spec kept.pool (kept.parts idx isPart)
    (parts idx inside) tuple bufferMask
  refine ⟨result, ran, fun taken => ?_⟩
  obtain ⟨owner', free', step, list, now⟩ := puts taken
  refine ⟨step.numParts.trans holds.numParts,
    ⟨owner', free', _, kept.step isPart step list, fun q isProd => ?_⟩, fun q isProd => ?_⟩
  · by_cases here : q = idx
    · rw [here, update_self, update_self]
      exact now
    · rw [update_of_ne here, update_of_ne here]
      exact (parts q isProd).frame (kept.parts q (holds.numParts ▸ isProd)) here step.untouched
  · refine (holds.head q isProd).trans ?_
    by_cases here : q = idx
    · -- the first entry is the old one, or the sentinel that the tuple was put in
      have before := (parts idx inside).primary
      have after := now.primary
      rw [here]
      refine Option.some.inj (before.symm.trans (Eq.trans ?_ after))
      cases cells idx <;> simp
    · exact (step.untouched.ack q here _).symm

theorem take {s : MergeState Tuple} {tuple : Tuple} {tuples : List Tuple}
    (holds : MergeHolds seqOf nProd s.tsb buf) (inside : idx < nProd)
    (isBuf : buf idx = tuple :: tuples)
    (ascending : (buf idx).Pairwise fun x y => seqOf x < seqOf y) :
    ∃ tsb, takeBuffered (seqOf tuple) idx s = .ok (some (idx, tuple), { s with tsb := tsb }) ∧
      MergeHolds seqOf nProd tsb (update buf idx tuples) := by
  obtain ⟨owner, free, cells, kept, parts⟩ := holds.kept
  have isPart : idx < s.tsb.numParts := holds.numParts ▸ inside
  have now := parts idx inside
  have list := kept.parts idx isPart
  rw [isBuf] at now ascending
  obtain ⟨c, cells', -, -, isCells⟩ := List.forall₂_cons_right_iff.mp now.entries
  rw [isCells] at now list
  obtain ⟨result, ran, accepted, isNext, owner', free', step, listNext, left⟩ :=
    takePrimary_spec kept.pool list now ascending
  have atFirst : s.tsb.head .primary idx = c :=
    (holds.head idx inside).trans (Option.some.inj now.primary).symm
  have isTuple : (s.tsb.heap c).rtup = some tuple := (List.forall₂_cons.mp now.entries).1.1
  have isMarked : (s.tsb.heap c).dmask ≠ none := list.marked c mem_cons_self
  have advanced : advanceHeadTsb idx .primary s.tsb =
      .ok (s.tsb.setHead .primary idx (result.tsb.ack .primary idx)) := by
    simp [advanceHeadTsb, atFirst, if_neg isMarked, isNext]
  refine ⟨{ s.tsb.setHead .primary idx (result.tsb.ack .primary idx) with toTsb := result.tsb },
    ?_, step.numParts.trans holds.numParts,
    ⟨owner', free', _, kept.step isPart step listNext, fun q isProd => ?_⟩, fun q isProd => ?_⟩
  · simp only [takeBuffered, atFirst, isTuple, advanced]
    rw [show (s.tsb.setHead .primary idx (result.tsb.ack .primary idx)).toTsb = s.tsb.toTsb from rfl,
      ran]
    simp [accepted]
  · by_cases here : q = idx
    · rw [here, update_self, update_self]
      exact left
    · rw [update_of_ne here, update_of_ne here]
      exact (parts q isProd).frame (kept.parts q (holds.numParts ▸ isProd)) here step.untouched
  · by_cases here : q = idx
    · simp [HeadedTsb.setHead, here]
    · rw [step.untouched.ack q here]
      simp only [HeadedTsb.setHead, update_self, update_of_ne here]
      exact holds.head q isProd

end MergeHolds

theorem initHeadedTsb_holds (seqOf : Tuple → Int) (raw : Nat → TsbEntry Tuple) {nProd : Nat}
    (tsbSize : Nat) (some : 0 < nProd) :
    MergeHolds seqOf nProd (initHeadedTsb raw nProd tsbSize) fun _ => [] := by
  obtain ⟨numParts, ⟨owner, free, kept⟩, acks⟩ := @initTsb_kept Tuple raw nProd tsbSize (by omega)
  refine ⟨numParts, ⟨owner, free, _, kept, fun idx inside => ⟨.nil, acks idx inside _, ?_⟩⟩,
    fun _ _ => rfl⟩
  exact congrArg Option.some (acks idx inside .primary).symm

end TelegraphCQ.Flux
