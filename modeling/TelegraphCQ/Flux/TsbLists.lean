import TelegraphCQ.Flux.TsbPool

/-!
# The lists of the skew buffer

A partition is a doubly linked list in front of its sentinel.  Nothing is assumed here about the
order of the sequence numbers or about who marks an entry.
-/

namespace TelegraphCQ.Flux

open Foundation List Function

variable {Tuple : Type}

structure Untouched (tsb next : Tsb Tuple) (owner owner' : Nat → Owner) (part : Nat) :
    Prop where
  owners : ∀ q, q ≠ part → ∀ a, owner a = .list q → owner' a = .list q
  heap : ∀ q, q ≠ part → ∀ a, owner a = .list q → next.heap a = tsb.heap a
  ack : ∀ q, q ≠ part → ∀ client, next.ack client q = tsb.ack client q
  table : ∀ q, q ≠ part → next.table q = tsb.table q
  counts : ∀ q, q ≠ part → next.counts q = tsb.counts q

theorem Untouched.trans {tsb next final : Tsb Tuple} {owner owner' owner'' : Nat → Owner}
    {part : Nat} (first : Untouched tsb next owner owner' part)
    (second : Untouched next final owner' owner'' part) :
    Untouched tsb final owner owner'' part where
  owners := fun q other a owned =>
    second.owners q other a (first.owners q other a owned)
  heap := fun q other a owned =>
    (second.heap q other a (first.owners q other a owned)).trans
      (first.heap q other a owned)
  ack := fun q other client => (second.ack q other client).trans (first.ack q other client)
  table := fun q other => (second.table q other).trans (first.table q other)
  counts := fun q other => (second.counts q other).trans (first.counts q other)

structure PartList (tsb : Tsb Tuple) (owner : Nat → Owner) (part : Nat) (cells : List Nat) :
    Prop where
  linked : Linked (fun a => (tsb.heap a).next) (fun a => (tsb.heap a).prev) none
    (cells ++ [tsb.table part]) none
  nodup : (cells ++ [tsb.table part]).Nodup
  owned : ∀ a ∈ cells ++ [tsb.table part], owner a = .list part
  marked : ∀ a ∈ cells, (tsb.heap a).dmask ≠ none
  sentinel : (tsb.heap (tsb.table part)).dmask = none
  count : tsb.counts part = cells.length

theorem concat_cases {cells : List Nat} {last i a : Nat} (isCell : (cells ++ [last])[i]? = some a) :
    i < cells.length ∧ cells[i]? = some a ∨ i = cells.length ∧ a = last := by
  by_cases before : i < cells.length
  · rw [getElem?_append_left before] at isCell
    exact .inl ⟨before, isCell⟩
  · have inside := (List.getElem?_eq_some_iff.mp isCell).1
    rw [length_append, length_singleton] at inside
    obtain rfl : i = cells.length := by omega
    rw [getElem?_concat_length, Option.some.injEq] at isCell
    exact .inr ⟨rfl, isCell.symm⟩

structure PartStep (part : Nat) (tsb : Tsb Tuple) (owner : Nat → Owner) (free : List Nat)
    (next : Tsb Tuple) (owner' : Nat → Owner) (free' : List Nat) : Prop where
  pool : Pool next owner' free'
  untouched : Untouched tsb next owner owner' part
  numParts : next.numParts = tsb.numParts
  maxSize : next.maxSize = tsb.maxSize
  lastEnts : ∀ q, q ≠ part → next.lastEnts q = tsb.lastEnts q
  stock : next.size + free'.length = tsb.size + free.length
  taken : next.taken part - next.size = tsb.taken part - tsb.size

section Steps

variable {part : Nat} {tsb next final : Tsb Tuple} {owner owner' owner'' : Nat → Owner}
  {free free' free'' : List Nat} {cells front back : List Nat} {e : Nat}

theorem PartStep.refl (pool : Pool tsb owner free) : PartStep part tsb owner free tsb owner free :=
  ⟨pool, ⟨fun _ _ _ => id, fun _ _ _ _ => rfl, fun _ _ _ => rfl, fun _ _ => rfl, fun _ _ => rfl⟩,
    rfl, rfl, fun _ _ => rfl, rfl, rfl⟩

theorem PartStep.trans (first : PartStep part tsb owner free next owner' free')
    (second : PartStep part next owner' free' final owner'' free'') :
    PartStep part tsb owner free final owner'' free'' where
  pool := second.pool
  untouched := first.untouched.trans second.untouched
  numParts := second.numParts.trans first.numParts
  maxSize := second.maxSize.trans first.maxSize
  lastEnts := fun q other => (second.lastEnts q other).trans (first.lastEnts q other)
  stock := second.stock.trans first.stock
  taken := second.taken.trans first.taken

variable {q address : Nat} {client : Client}

theorem PartList.frame (list : PartList tsb owner q cells) (other : q ≠ part)
    (untouched : Untouched tsb next owner owner' part) : PartList next owner' q cells := by
  have table := untouched.table q other
  have heap : ∀ a ∈ cells ++ [tsb.table q], next.heap a = tsb.heap a :=
    fun a mem => untouched.heap q other a (list.owned a mem)
  constructor
  · rw [table]
    refine list.linked.congr (fun a mem => ?_) fun a mem => ?_
    · simp only [heap a mem]
    · simp only [heap a mem]
  · rw [table]
    exact list.nodup
  · rw [table]
    exact fun a mem => untouched.owners q other a (list.owned a mem)
  · intro a mem
    rw [heap a (by simp [mem])]
    exact list.marked a mem
  · rw [table, heap _ (by simp)]
    exact list.sentinel
  · rw [untouched.counts q other]
    exact list.count

/-! ## Marking an entry -/

theorem setAck_partStep (pool : Pool tsb owner free) :
    PartStep part tsb owner free (tsb.setAck client part address) owner free :=
  ⟨pool.frame (fun _ _ => rfl) rfl rfl rfl (fun _ => id) fun _ _ => id,
    ⟨fun _ _ _ => id, fun _ _ _ _ => rfl, fun _ other _ => setAck_part other .., fun _ _ => rfl,
      fun _ _ => rfl⟩, rfl, rfl, fun _ _ => rfl, rfl, rfl⟩

theorem setEntry_partStep {entry : TsbEntry Tuple} (pool : Pool tsb owner free)
    (listed : owner e = .list part) :
    PartStep part tsb owner free (tsb.setEntry e entry) owner free :=
  ⟨pool.frame (fun _ isFree => congrArg _ (update_of_ne (ne_of_free isFree listed) _ _)) rfl rfl
      rfl (fun _ => id) fun _ _ => id,
    ⟨fun _ _ _ => id, fun _ other _ owned => update_of_ne (ne_of_listed owned listed other) _ _,
      fun _ _ _ => rfl, fun _ _ => rfl, fun _ _ => rfl⟩, rfl, rfl, fun _ _ => rfl, rfl, rfl⟩

theorem PartList.setEntry {entry : TsbEntry Tuple} (list : PartList tsb owner part cells)
    (mem : e ∈ cells) (sameNext : entry.next = (tsb.heap e).next)
    (samePrev : entry.prev = (tsb.heap e).prev) (marked : entry.dmask ≠ none) :
    PartList (tsb.setEntry e entry) owner part cells := by
  have notSentinel : tsb.table part ≠ e := by
    rintro rfl
    exact list.marked _ mem list.sentinel
  refine ⟨list.linked.congr (fun a _ => ?_) (fun a _ => ?_), list.nodup, list.owned,
    fun a isCell => ?_, ?_, list.count⟩
  · simp only [Tsb.setEntry, update_apply]
    split
    · next same => rw [same, sameNext]
    · rfl
  · simp only [Tsb.setEntry, update_apply]
    split
    · next same => rw [same, samePrev]
    · rfl
  · simp only [Tsb.setEntry, update_apply]
    split
    · exact marked
    · exact list.marked a isCell
  · change ((update tsb.heap e entry) (tsb.table part)).dmask = none
    rw [update_of_ne notSentinel]
    exact list.sentinel

theorem PartList.setAck (list : PartList tsb owner part cells) :
    PartList (tsb.setAck client q address) owner part cells :=
  ⟨list.linked, list.nodup, list.owned, list.marked, list.sentinel, list.count⟩

theorem PartList.mark {entry : TsbEntry Tuple} (list : PartList tsb owner part cells)
    (pool : Pool tsb owner free) (mem : e ∈ cells) (sameNext : entry.next = (tsb.heap e).next)
    (samePrev : entry.prev = (tsb.heap e).prev) (marked : entry.dmask ≠ none) :
    PartStep part tsb owner free ((tsb.setEntry e entry).setAck client part address) owner free ∧
      PartList ((tsb.setEntry e entry).setAck client part address) owner part cells := by
  have stepped := @setEntry_partStep _ _ _ _ _ _ entry pool (list.owned e (mem_append_left _ mem))
  exact ⟨stepped.trans (setAck_partStep stepped.pool),
    (list.setEntry mem sameNext samePrev marked).setAck⟩

/-! ## The scan at an entry -/

section Scan

variable {mask : Client} {fmask dmask : Finset Client} {seqno : Int} {slot : Option Tuple}

theorem putAckScan_stop {scan : AckScan Tuple} (rounds : Nat)
    (stops : (scan.tsb.heap (scan.tsb.ack mask part)).dmask = none ∨
      seqno < (scan.tsb.heap (scan.tsb.ack mask part)).seqnum) :
    putAckScan seqno part mask fmask (rounds + 1) scan = .ok scan := by
  rw [putAckScan]
  dsimp only
  revert stops
  cases (scan.tsb.heap (scan.tsb.ack mask part)).dmask with
  | none => exact fun _ => rfl
  | some dmask => exact fun stops => if_neg (not_le.mpr (stops.resolve_left (by simp)))

theorem putAckScan_once {link : Nat} (rounds : Nat)
    (isMask : (tsb.heap (tsb.ack mask part)).dmask = some dmask)
    (isSeqnum : (tsb.heap (tsb.ack mask part)).seqnum = seqno)
    (isNext : (tsb.heap (tsb.ack mask part)).next = some link)
    (passed : delIfMarked fmask (insert mask dmask) part (tsb.ack mask part)
      ((tsb.setEntry (tsb.ack mask part) { tsb.heap (tsb.ack mask part) with
        rtup := if slot.isSome then slot else (tsb.heap (tsb.ack mask part)).rtup
        dmask := some (insert mask dmask) }).setAck mask part link) = .ok next)
    (stops : (next.heap (next.ack mask part)).dmask = none ∨
      seqno < (next.heap (next.ack mask part)).seqnum) :
    putAckScan seqno part mask fmask (rounds + 2) ⟨false, slot, [], tsb⟩ =
      .ok ⟨true, if slot.isSome then none else slot, [], next⟩ := by
  rw [putAckScan]
  simp only [isNext, isSeqnum] at passed
  simp only [isMask, isSeqnum, le_refl, if_true, isNext, decide_true, Bool.or_true, Bool.true_and,
    passed]
  exact putAckScan_stop rounds stops

end Scan

/-! ## Deleting an entry -/

theorem setEntry_eq (b : Nat) (change : TsbEntry Tuple → TsbEntry Tuple) :
    tsb.setEntry b (change (tsb.heap b)) =
      { tsb with heap := fun a => if some b = some a then change (tsb.heap a) else tsb.heap a } := by
  simp only [Tsb.setEntry, Option.some.injEq]
  congr 1
  funext a
  by_cases same : a = b
  · rw [same, update_self, if_pos rfl]
  · rw [update_of_ne same, if_neg fun other => same other.symm]

theorem setNextOf_eq (address link : Option Nat) (tsb : Tsb Tuple) : tsb.setNextOf address link =
      { tsb with
        heap := fun a => if address = some a then { tsb.heap a with next := link }
          else tsb.heap a } := by
  cases address with
  | none => simp [Tsb.setNextOf]
  | some b => exact setEntry_eq b fun entry => { entry with next := link }

theorem setPrevOf_eq (address link : Option Nat) (tsb : Tsb Tuple) : tsb.setPrevOf address link =
      { tsb with
        heap := fun a => if address = some a then { tsb.heap a with prev := link }
          else tsb.heap a } := by
  cases address with
  | none => simp [Tsb.setPrevOf]
  | some b => exact setEntry_eq b fun entry => { entry with prev := link }

def unlinkEntry (e : Nat) (tsb : Tsb Tuple) : Tsb Tuple :=
  ((tsb.setEntry e { tsb.heap e with rtup := none }).setNextOf (tsb.heap e).prev
    (tsb.heap e).next).setPrevOf (tsb.heap e).next (tsb.heap e).prev

theorem heap_unlinkEntry {a : Nat} (other : a ≠ e) : (unlinkEntry e tsb).heap a = { tsb.heap a with
        next := if (tsb.heap e).prev = some a then (tsb.heap e).next else (tsb.heap a).next
        prev := if (tsb.heap e).next = some a then (tsb.heap e).prev else (tsb.heap a).prev } := by
  simp only [unlinkEntry, setNextOf_eq, setPrevOf_eq, Tsb.setEntry, update_of_ne other]
  split <;> split <;> rfl

theorem unlinkEntry_frame : unlinkEntry e tsb = { tsb with heap := (unlinkEntry e tsb).heap } := by
  simp only [unlinkEntry, setNextOf_eq, setPrevOf_eq, Tsb.setEntry]

theorem delEntry_eq : delEntry part e tsb =
      let returned := freeEntryWLast part e (unlinkEntry e tsb)
      let counts := update returned.counts part (returned.counts part - 1)
      if counts part < 0 then .error .negativeCount else .ok { returned with counts := counts } :=
  rfl

structure Deleted (part e : Nat) (tsb : Tsb Tuple) (owner : Nat → Owner) (free : List Nat)
    (next : Tsb Tuple) (owner' : Nat → Owner) (free' : List Nat) : Prop where
  ran : delEntry part e tsb = .ok next
  step : PartStep part tsb owner free next owner' free'
  reserved : next.lastEnts part ≠ none
  table : next.table = tsb.table
  ack : next.ack = tsb.ack
  count : next.counts part = tsb.counts part - 1
  owners : ∀ a, a ≠ e → owner' a = owner a
  heap : ∀ a, a ≠ e → next.heap a =
    { tsb.heap a with
      next := if (tsb.heap e).prev = some a then (tsb.heap e).next else (tsb.heap a).next
      prev := if (tsb.heap e).next = some a then (tsb.heap e).prev else (tsb.heap a).prev }

theorem delEntry_deleted (pool : Pool tsb owner free) (listed : owner e = .list part)
    (before : ∀ a, (tsb.heap e).prev = some a → owner a = .list part)
    (after : ∀ a, (tsb.heap e).next = some a → owner a = .list part) (some : 0 < tsb.counts part) :
    ∃ next owner' free', Deleted part e tsb owner free next owner' free' := by
  have frame := @unlinkEntry_frame Tuple tsb e
  have unlinked : Pool (unlinkEntry e tsb) owner free := by
    refine pool.frame (fun a isFree => ?_) (by rw [frame]) (by rw [frame]) (by rw [frame])
      (fun _ => id) fun _ _ => id
    rw [heap_unlinkEntry (ne_of_free isFree listed)]
    exact if_neg fun isPrev => ne_of_free isFree (before a isPrev) rfl
  obtain ⟨owner', free', released⟩ := freeEntryWLast_released part e unlinked listed
  obtain ⟨numParts, maxSize, counts, table, ack, size, lastEnts⟩ :
      (unlinkEntry e tsb).numParts = tsb.numParts ∧ (unlinkEntry e tsb).maxSize = tsb.maxSize ∧
      (unlinkEntry e tsb).counts = tsb.counts ∧ (unlinkEntry e tsb).table = tsb.table ∧
      (unlinkEntry e tsb).ack = tsb.ack ∧ (unlinkEntry e tsb).size = tsb.size ∧
      (unlinkEntry e tsb).lastEnts = tsb.lastEnts := by
    rw [frame]
    exact ⟨rfl, rfl, rfl, rfl, rfl, rfl, rfl⟩
  have ran : delEntry part e tsb = .ok
      { freeEntryWLast part e (unlinkEntry e tsb) with
        counts := update tsb.counts part (tsb.counts part - 1) } := by
    rw [delEntry_eq]
    simp only [released.counts, counts]
    rw [if_neg]
    rw [update_self]
    omega
  have taken := released.taken
  simp only [Tsb.taken, released.counts, counts, lastEnts, size] at taken
  refine ⟨_, owner', free', ran, ⟨released.pool.frame (fun _ _ => rfl) rfl rfl rfl (fun _ => id)
      fun _ _ => id, ⟨fun q other a owned => ?_, fun q other a owned => ?_, fun q _ client => ?_,
      fun q _ => ?_, fun q other => update_of_ne other _ _⟩, released.numParts.trans numParts,
      released.maxSize.trans maxSize, lastEnts ▸ released.lastEnts, size ▸ released.stock, ?_⟩,
    released.reserved, released.table.trans table, released.ack.trans ack, update_self ..,
    released.owners, fun a other => (released.heap a other).trans (heap_unlinkEntry other)⟩
  · rw [released.owners a (ne_of_listed owned listed other), owned]
  · have apart := ne_of_listed owned listed other
    refine (released.heap a apart).trans ((heap_unlinkEntry apart).trans ?_)
    rw [if_neg fun isPrev => ne_of_listed owned (before a isPrev) other rfl,
      if_neg fun isNext => ne_of_listed owned (after a isNext) other rfl]
  · exact congrFun (congrFun (released.ack.trans ack) client) q
  · exact congrFun (released.table.trans table) q
  · simp only [Tsb.taken, update_self]
    omega

theorem PartList.links (list : PartList tsb owner part (front ++ e :: back)) :
    (tsb.heap e).next = (back ++ [tsb.table part]).head? ∧ (tsb.heap e).prev = front.getLast? := by
  have linked := list.linked
  rw [append_assoc, cons_append] at linked
  exact linked.pointers

theorem PartList.next_at {i : Nat} (list : PartList tsb owner part cells)
    (isEntry : cells[i]? = some e) :
    ∃ link, (cells ++ [tsb.table part])[i + 1]? = some link ∧ (tsb.heap e).next = some link := by
  obtain ⟨inside, isEntry⟩ := List.getElem?_eq_some_iff.mp isEntry
  have split : cells = cells.take i ++ e :: cells.drop (i + 1) := by
    rw [← isEntry, getElem_cons_drop, take_append_drop]
  have bound : i + 1 < (cells ++ [tsb.table part]).length := by simp; omega
  refine ⟨_, getElem?_eq_getElem bound, ?_⟩
  rw [split] at list
  rw [list.links.1, ← getElem?_eq_getElem bound, ← drop_append_of_le_length (by omega), head?_drop]

theorem delEntry_spec (pool : Pool tsb owner free)
    (list : PartList tsb owner part (front ++ e :: back)) :
    ∃ next owner' free', Deleted part e tsb owner free next owner' free' ∧
      PartList next owner' part (front ++ back) := by
  obtain ⟨isNext, isPrev⟩ := list.links
  have rest : front ++ (back ++ [tsb.table part]) ⊆ front ++ e :: back ++ [tsb.table part] := by
    rw [append_assoc]
    exact ((sublist_cons_self e _).append_left front).subset
  have count := list.count
  simp only [length_append, length_cons] at count
  obtain ⟨next, owner', free', deleted⟩ := delEntry_deleted pool (list.owned e (by simp))
    (fun a isLast => list.owned a (rest (mem_append_left _ (mem_of_getLast? (isPrev ▸ isLast)))))
    (fun a isFirst => list.owned a (rest (mem_append_right _ (mem_of_mem_head? (isNext ▸ isFirst)))))
    (by omega)
  have stays := deleted.heap
  rw [isNext, isPrev] at stays
  have nodup := list.nodup
  rw [append_assoc, cons_append] at nodup
  have notHere : ∀ a ∈ front ++ (back ++ [tsb.table part]), a ≠ e := by
    rintro a mem rfl
    rw [nodup_middle, nodup_cons] at nodup
    exact nodup.1 mem
  refine ⟨next, owner', free', deleted, ?_, ?_, ?_, ?_, ?_, ?_⟩
  · rw [deleted.table, append_assoc]
    have linked := list.linked
    rw [append_assoc, cons_append] at linked
    refine linked.remove nodup (fun a mem notLast => ?_) (fun a mem notFirst => ?_)
      (fun a isLast => ?_) fun a isFirst => ?_
    · simp only [stays a (notHere a mem), if_neg notLast]
    · simp only [stays a (notHere a mem), if_neg notFirst]
    · have mem : a ∈ front := mem_of_getLast? isLast
      simp only [stays a (notHere a (by simp [mem])), if_pos isLast]
    · have mem := mem_of_mem_head? isFirst
      simp only [stays a (notHere a (mem_append_right _ mem)), if_pos isFirst]
  · rw [deleted.table, append_assoc]
    rw [nodup_middle, nodup_cons] at nodup
    exact nodup.2
  · intro a mem
    rw [deleted.table, append_assoc] at mem
    rw [deleted.owners a (notHere a mem)]
    exact list.owned a (rest mem)
  · intro a mem
    rw [stays a (notHere a (by rw [← append_assoc]; exact mem_append_left _ mem))]
    exact list.marked a (((sublist_cons_self e back).append_left front).subset mem)
  · rw [deleted.table, stays _ (notHere _ (by simp))]
    exact list.sentinel
  · rw [deleted.count, length_append]
    omega

/-! ## Taking an entry -/

section Allotted

variable {a : Nat} {alloced : Tsb Tuple}

section

variable (allotted : Allotted part a tsb owner free alloced free')
include allotted

theorem Allotted.fresh (list : PartList tsb owner part cells) : a ∉ cells ++ [tsb.table part] :=
  fun mem => allotted.unlisted part (list.owned a mem)

theorem Allotted.partStep (isNext : next = { alloced with
      heap := next.heap
      ack := next.ack
      table := next.table
      counts := update alloced.counts part (alloced.counts part + 1) })
    (heap : ∀ b, b ≠ a → owner b ≠ .list part → next.heap b = tsb.heap b)
    (ack : ∀ q, q ≠ part → ∀ client, next.ack client q = tsb.ack client q)
    (table : ∀ q, q ≠ part → next.table q = tsb.table q) :
    PartStep part tsb owner free next (update owner a (.list part)) free' := by
  have notNew : ∀ b, update owner a .nobody b ≠ .nobody → b ≠ a := by
    rintro b owned rfl
    exact owned (update_self _ _ _)
  have takes := allotted.takes
  have counts : next.counts = update tsb.counts part (tsb.counts part + 1) := by
    rw [isNext, takes.counts]
  have lastEnts : next.lastEnts = alloced.lastEnts := by rw [isNext]
  have size : next.size = alloced.size := by rw [isNext]
  obtain ⟨others, taken⟩ := takes.accounts
  refine ⟨allotted.pool.frame ?_ (by rw [isNext]) (by rw [isNext]) lastEnts ?_ ?_,
    ⟨?_, ?_, ack, table, fun q other => by rw [counts, update_of_ne other]⟩,
    by rw [isNext, takes.numParts], by rw [isNext, takes.maxSize], lastEnts ▸ others,
    size ▸ allotted.stock, ?_⟩
  · intro b isFree
    have other := notNew b (by simp [isFree])
    rw [update_of_ne other] at isFree
    rw [heap b other (by simp [isFree]), allotted.heap_of_ne other]
  · intro b isFree
    have other := notNew b (by simp [isFree])
    rwa [update_of_ne other] at isFree ⊢
  · intro b q reserved
    have other := notNew b (by simp [reserved])
    rwa [update_of_ne other] at reserved ⊢
  · intro q _ b owned
    rw [update_of_ne (allotted.apart owned), owned]
  · intro q other b owned
    exact heap b (allotted.apart owned) fun same => other (Owner.list.inj (owned.symm.trans same))
  · rw [← taken, size]
    simp only [Tsb.taken, counts, lastEnts, takes.counts, update_self]
    omega

end

theorem owned_of_allotted (list : PartList tsb owner part cells)
    {b : Nat} (mem : b = a ∨ b ∈ cells ++ [tsb.table part]) :
    update owner a (.list part) b = .list part := by
  by_cases same : b = a
  · rw [same, update_self]
  · rw [update_of_ne same]
    exact list.owned b (mem.resolve_left same)

section

variable (record : TsbRecord Tuple) (allotted : Allotted part a tsb owner free alloced free')
  (list : PartList tsb owner part cells)
include record allotted list

theorem linkRecord_spec : PartStep part tsb owner free (linkRecord record part a alloced)
      (update owner a (.list part)) free' ∧
    PartList (linkRecord record part a alloced) (update owner a (.list part)) part
      (cells ++ [tsb.table part]) ∧ (linkRecord record part a alloced).table part = a ∧
    (linkRecord record part a alloced).ack = tsb.ack := by
  have fresh := allotted.fresh list
  have listed : owner (tsb.table part) = .list part := list.owned _ (by simp)
  obtain ⟨sentinel, new, others⟩ := linkRecord_heap allotted record listed
  have newTable : (linkRecord record part a alloced).table part = a := by
    simp [linkRecord]
  have nodup : (cells ++ [tsb.table part] ++ [a]).Nodup := by
    rw [nodup_append_comm, singleton_append, nodup_cons]
    exact ⟨fresh, list.nodup⟩
  refine ⟨?_, ⟨?_, ?_, ?_, ?_, ?_, ?_⟩, newTable, ?_⟩
  · refine allotted.partStep rfl (fun b notNew unlisted => ?_) ?_ fun q other => ?_
    · exact others b notNew fun same => unlisted (same ▸ listed)
    · simp [linkRecord, Tsb.setEntry, allotted.takes.ack]
    · simp [linkRecord, Tsb.setEntry, update_of_ne other, allotted.takes.table]
  · rw [newTable]
    refine @Linked.insert _ _ _ _ _ (cells ++ [tsb.table part]) [] a nodup ?_ ?_
      (by simpa using list.linked) ?_ (by simp)
      (by simp [new, TsbEntry.invalidated]) (by simp [new])
    · intro b mem notLast
      have notSentinel : b ≠ tsb.table part := by
        rintro rfl
        simp at notLast
      rw [append_nil] at mem
      rw [others b (fun same => fresh (same ▸ mem)) notSentinel]
    · intro b mem _
      rw [append_nil] at mem
      by_cases same : b = tsb.table part
      · rw [same, sentinel]
      · rw [others b (fun new => fresh (new ▸ mem)) same]
    · intro b isLast
      have same : tsb.table part = b := by simpa using isLast
      rw [← same, sentinel]
  · rw [newTable]
    exact nodup
  · rw [newTable]
    intro b mem
    rw [mem_append, mem_singleton, or_comm] at mem
    exact owned_of_allotted list mem
  · intro b mem
    by_cases same : b = tsb.table part
    · simp [same, sentinel]
    · rw [others b (fun new => fresh (new ▸ mem)) same]
      exact list.marked b (by simpa [same] using mem)
  · rw [newTable, new]
    rfl
  · simp [linkRecord, Tsb.setEntry, allotted.takes.counts, list.count]
  · exact allotted.takes.ack

end

end Allotted

end Steps

end TelegraphCQ.Flux
