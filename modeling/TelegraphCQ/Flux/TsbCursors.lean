import TelegraphCQ.Flux.TsbInstall

/-!
# The cursors of a moved skew buffer

A cursor is found again by the sequence number of its entry, which the walk down the list
meets first at the right entry.  The sentinel stands for itself.
-/

namespace TelegraphCQ.Flux

open Foundation List

variable {Tuple : Type}

/-! ## Walks down a list -/

structure TsbEntry.Carries (entry : TsbEntry Tuple) (record : TsbRecord Tuple) : Prop where
  seqnum : entry.seqnum = record.seqnum
  dmask : entry.dmask = some record.dmask
  rtup : entry.rtup = record.rtup

structure Listing (heap : Nat → TsbEntry Tuple) (addr : Nat → Nat)
    (records : List (TsbRecord Tuple)) : Prop where
  forward : ∀ k < records.length, (heap (addr k)).next = some (addr (k + 1))
  sentinel : (heap (addr records.length)).dmask = none
  cells : ∀ k record, records[k]? = some record → (heap (addr k)).Carries record

def seqnumAt (records : List (TsbRecord Tuple)) (i : Nat) : Int :=
  (records[i]?.map TsbRecord.seqnum).getD (-1)

structure Findable (records : List (TsbRecord Tuple)) : Prop where
  distinct : (records.map TsbRecord.seqnum).Pairwise (· < ·)
  numbered : ∀ record ∈ records, record.seqnum ≠ -1
  marked : ∀ record ∈ records, record.dmask ≠ ∅

section Walks

variable {tsb : Tsb Tuple} {addr : Nat → Nat} {records : List (TsbRecord Tuple)}

variable {i : Nat}

theorem seqnumAt_eq {record : TsbRecord Tuple} (isRecord : records[i]? = some record) :
    seqnumAt records i = record.seqnum := by
  rw [seqnumAt, isRecord]
  rfl

theorem seqnumAt_length (records : List (TsbRecord Tuple)) :
    seqnumAt records records.length = -1 := by
  simp [seqnumAt]

theorem seqnumAt_lt (findable : Findable records) {j k : Nat} (before : j < k)
    (inside : k < records.length) : seqnumAt records j < seqnumAt records k := by
  have j_inside : j < records.length := by omega
  rw [seqnumAt_eq (getElem?_eq_getElem inside), seqnumAt_eq (getElem?_eq_getElem j_inside)]
  have ordered := pairwise_iff_getElem.mp findable.distinct j k
    (by simpa using j_inside) (by simpa using inside) before
  simpa using ordered

theorem findSeqnum_at (listing : Listing tsb.heap addr records) (findable : Findable records)
    (inside : i < records.length) (rounds : Nat) {k : Nat} (before : k ≤ i)
    (enough : i - k < rounds) :
    findSeqnum tsb (seqnumAt records i) rounds (addr k) = .ok (some (addr i)) := by
  induction rounds generalizing k with
  | zero => omega
  | succ rounds ih =>
    have isRecord := getElem?_eq_getElem (show k < records.length by omega)
    have cell := listing.cells k _ isRecord
    rw [findSeqnum, cell.seqnum, ← seqnumAt_eq isRecord]
    by_cases here : k = i
    · rw [here, if_pos rfl]
    · have differs : seqnumAt records k ≠ seqnumAt records i :=
        (seqnumAt_lt findable (by omega) inside).ne
      have marked := findable.marked _ (mem_of_getElem? isRecord)
      have link := listing.forward k (by omega)
      simp only [if_neg differs, cell.dmask, reduceCtorEq, Option.some.injEq, marked, or_self,
        if_false, link]
      exact ih (by omega) (by omega)

theorem advanceCursor_at (listing : Listing tsb.heap addr records) (findable : Findable records)
    {part i : Nat} (table : tsb.table part = addr records.length) (inside : i ≤ records.length)
    (enough : records.length < tsb.rounds) :
    advanceCursor tsb (seqnumAt records i) (addr 0) (tsb.table part) = .ok (some (addr i)) := by
  by_cases atEnd : i = records.length
  · rw [atEnd, seqnumAt_length, advanceCursor, if_pos rfl, table, if_pos listing.sentinel]
  · have isRecord := getElem?_eq_getElem (show i < records.length by omega)
    have numbered := findable.numbered _ (mem_of_getElem? isRecord)
    rw [advanceCursor, seqnumAt_eq isRecord, if_neg numbered, ← seqnumAt_eq isRecord]
    exact findSeqnum_at listing findable (by omega) _ (Nat.zero_le i) (by omega)

theorem unmark_same {client : Client} (listing : Listing tsb.heap addr records)
    (unmarked : ∀ record ∈ records, client ∉ record.dmask) (rounds : Nat) {k : Nat}
    (inside : k ≤ records.length) (enough : records.length - k < rounds) :
    unmark client rounds (addr k) tsb = .ok tsb := by
  induction rounds generalizing k with
  | zero => omega
  | succ rounds ih =>
    rw [unmark]
    by_cases atEnd : k = records.length
    · simp [atEnd, listing.sentinel]
    · obtain ⟨record, isRecord⟩ : ∃ record, records[k]? = some record :=
        ⟨_, getElem?_eq_getElem (show k < records.length by omega)⟩
      have cell := listing.cells k _ isRecord
      have link := listing.forward k (by omega)
      have same : ∀ entry, entry = tsb.heap (addr k) → tsb.setEntry (addr k) entry = tsb := by
        rintro _ rfl
        rw [Tsb.setEntry, Function.update_eq_self]
      simp only [cell.dmask, link]
      rw [same]
      · exact ih (by omega) (by omega)
      · rw [Finset.erase_eq_of_notMem (unmarked _ (mem_of_getElem? isRecord)), ← cell.dmask, ← link]

end Walks

/-! ## One partition -/

structure Pointed (metaData : TsbMetaData Tuple) (part : Nat)
    (records : List (TsbRecord Tuple)) (ackAt headAt : Client → Nat) : Prop where
  ack : ∀ client, metaData.ack client part = seqnumAt records (ackAt client)
  head : ∀ client, metaData.head client part = seqnumAt records (headAt client)
  ackInside : ∀ client, ackAt client ≤ records.length
  headInside : ∀ client, headAt client ≤ records.length

structure Ready (metaData : TsbMetaData Tuple) (prod : Producer Tuple) (part : Nat)
    (addr : Nat → Nat) (records : List (TsbRecord Tuple)) (ackAt headAt : Client → Nat) :
    Prop where
  listing : Listing prod.tsb.heap addr records
  findable : Findable records
  table : prod.tsb.table part = addr records.length
  start : prod.tsb.ack .produced part = addr 0
  pointed : Pointed metaData part records ackAt headAt
  enough : records.length < prod.tsb.rounds
  unmarked : ∀ client ∉ prod.fmasks part, ∀ record ∈ records, client ∉ record.dmask

structure CursorsSet (part : Nat) (addr : Nat → Nat) (ackAt headAt : Client → Nat)
    (prod next : Producer Tuple) : Prop where
  ack : ∀ client, client = .produced ∨ client ∈ prod.fmasks part →
    next.tsb.ack client part = addr (ackAt client)
  head : ∀ client ∈ prod.fmasks part, client ≠ .produced →
    next.head client part = addr (headAt client)

structure Adjusted (part : Nat) (addr : Nat → Nat) (ackAt headAt : Client → Nat)
    (prod next : Producer Tuple) : Prop extends CursorsSet part addr ackAt headAt prod next where
  tsb : next.tsb = { prod.tsb with ack := next.tsb.ack }
  ackElsewhere : ∀ q, q ≠ part → ∀ client, next.tsb.ack client q = prod.tsb.ack client q
  headElsewhere : ∀ q, q ≠ part → ∀ client, next.head client q = prod.head client q
  masksElsewhere : ∀ q, q ≠ part → next.fmasks q = prod.fmasks q

section Partition

variable {metaData : TsbMetaData Tuple} {part : Nat} {addr : Nat → Nat}
  {records : List (TsbRecord Tuple)} {ackAt headAt : Client → Nat} {prod : Producer Tuple}

theorem Ready.frame {next : Producer Tuple}
    (ready : Ready metaData prod part addr records ackAt headAt)
    (tsb : next.tsb = { prod.tsb with ack := next.tsb.ack })
    (ack : next.tsb.ack .produced part = prod.tsb.ack .produced part)
    (masks : next.fmasks part = prod.fmasks part) :
    Ready metaData next part addr records ackAt headAt where
  listing := by
    rw [tsb]
    exact ready.listing
  findable := ready.findable
  table := by
    rw [tsb]
    exact ready.table
  start := ack.trans ready.start
  pointed := ready.pointed
  enough := by
    rw [tsb]
    exact ready.enough
  unmarked := by
    rw [masks]
    exact ready.unmarked

theorem setHead_client {client other : Client} (unlike : other ≠ client) (part a : Nat)
    (prod : Producer Tuple) : (prod.setHead client part a).head other = prod.head other := by
  simp [Producer.setHead, Function.update_of_ne unlike]

theorem setHead_part {q : Nat} (elsewhere : q ≠ part) (client other : Client) (a : Nat)
    (prod : Producer Tuple) : (prod.setHead client part a).head other q = prod.head other q := by
  by_cases same : other = client
  · simp [Producer.setHead, same, Function.update_of_ne elsewhere]
  · rw [setHead_client same]

def withAcks (part : Nat) (addr : Nat → Nat) (ackAt : Client → Nat) (tsb : Tsb Tuple) :
    Tsb Tuple :=
  ((tsb.setAck .produced part (addr (ackAt .produced))).setAck .primary part
    (addr (ackAt .primary))).setAck .secondary part (addr (ackAt .secondary))

def withCursors (part : Nat) (addr : Nat → Nat) (ackAt headAt : Client → Nat)
    (prod : Producer Tuple) : Producer Tuple :=
  ({ prod with tsb := withAcks part addr ackAt prod.tsb }.setHead .primary part
    (addr (headAt .primary))).setHead .secondary part (addr (headAt .secondary))

theorem withCursors_ack (client : Client) :
    (withCursors part addr ackAt headAt prod).tsb.ack client part = addr (ackAt client) := by
  cases client with
  | produced | primary | secondary =>
    simp [withCursors, withAcks, Producer.setHead, Tsb.setAck]

theorem withCursors_head {client : Client} (consumer : client ≠ .produced) :
    (withCursors part addr ackAt headAt prod).head client part = addr (headAt client) := by
  cases client with
  | produced => exact absurd rfl consumer
  | primary | secondary => simp [withCursors, Producer.setHead]

theorem withCursors_ackElsewhere {q : Nat} (elsewhere : q ≠ part) (client : Client) :
    (withCursors part addr ackAt headAt prod).tsb.ack client q = prod.tsb.ack client q := by
  change (withAcks part addr ackAt prod.tsb).ack client q = prod.tsb.ack client q
  rw [withAcks, setAck_part elsewhere, setAck_part elsewhere, setAck_part elsewhere]

theorem withCursors_headElsewhere {q : Nat} (elsewhere : q ≠ part) (client : Client) :
    (withCursors part addr ackAt headAt prod).head client q = prod.head client q := by
  rw [withCursors, setHead_part elsewhere, setHead_part elsewhere]

theorem resetCursorsTsb_eq {client : Client} (listing : Listing prod.tsb.heap addr records)
    (unmarked : ∀ record ∈ records, client ∉ record.dmask) (inside : ackAt client.other ≤
      records.length) (enough : records.length < prod.tsb.rounds)
    (other : prod.tsb.ack client.other part = addr (ackAt client.other)) :
    resetCursorsTsb client part prod =
      .ok ({ prod with tsb := prod.tsb.setAck client part (addr (ackAt client.other)) }.setHead
        client part (addr (ackAt client.other))) := by
  have walk : unmark client (prod.tsb.setAck client part (addr (ackAt client.other))).rounds
      (addr (ackAt client.other)) (prod.tsb.setAck client part (addr (ackAt client.other))) =
      .ok (prod.tsb.setAck client part (addr (ackAt client.other))) :=
    @unmark_same _ (prod.tsb.setAck client part (addr (ackAt client.other))) addr records client
      listing unmarked _ _ inside (by
        have same : (prod.tsb.setAck client part (addr (ackAt client.other))).rounds =
          prod.tsb.rounds := rfl
        omega)
  simp [resetCursorsTsb, other, setAck_self, walk, bind, Except.bind]

theorem adjustPart_eq (ready : Ready metaData prod part addr records ackAt headAt) :
    adjustPart metaData part prod = (do
      let prod ←
        if .primary ∉ prod.fmasks part then
          resetCursorsTsb .primary part (withCursors part addr ackAt headAt prod)
        else if .secondary ∉ prod.fmasks part then
          resetCursorsTsb .secondary part (withCursors part addr ackAt headAt prod)
        else .ok (withCursors part addr ackAt headAt prod)
      .ok { prod with fmasks := Function.update prod.fmasks part allClients }) := by
  -- each walk is through a heap that no cursor changes
  have walk : ∀ (tsb : Tsb Tuple) (i : Nat), tsb = { prod.tsb with ack := tsb.ack } →
      i ≤ records.length →
      advanceCursor tsb (seqnumAt records i) (addr 0) (tsb.table part) = .ok (some (addr i)) := by
    intro tsb i same inside
    rw [same]
    exact @advanceCursor_at _ { prod.tsb with ack := tsb.ack } _ _ ready.listing ready.findable _ _
      ready.table inside ready.enough
  have ackWalk : ∀ (client : Client) (tsb : Tsb Tuple), tsb = { prod.tsb with ack := tsb.ack } →
      advanceAck metaData part (addr 0) client tsb =
        .ok (tsb.setAck client part (addr (ackAt client))) := by
    intro client tsb same
    rw [advanceAck, ready.pointed.ack, walk tsb _ same (ready.pointed.ackInside client)]
    rfl
  have headWalk : ∀ (client : Client) (other : Producer Tuple),
      other.tsb = { prod.tsb with ack := other.tsb.ack } →
      advanceHead metaData part (addr 0) client other =
        .ok (other.setHead client part (addr (headAt client))) := by
    intro client other same
    rw [advanceHead, ready.pointed.head, walk other.tsb _ same (ready.pointed.headInside client)]
    rfl
  have produced := ackWalk .produced prod.tsb rfl
  have primary := ackWalk .primary (prod.tsb.setAck .produced part (addr (ackAt .produced))) rfl
  have secondary := ackWalk .secondary
    ((prod.tsb.setAck .produced part (addr (ackAt .produced))).setAck .primary part
      (addr (ackAt .primary))) rfl
  have primaryHead := headWalk .primary { prod with tsb := withAcks part addr ackAt prod.tsb } rfl
  have secondaryHead := headWalk .secondary ({ prod with
    tsb := withAcks part addr ackAt prod.tsb }.setHead .primary part (addr (headAt .primary))) rfl
  simp only [withAcks] at primaryHead secondaryHead
  simp only [adjustPart, ready.start, produced, primary, secondary, primaryHead, secondaryHead,
    bind, Except.bind]
  rfl

theorem adjustPart_spec (ready : Ready metaData prod part addr records ackAt headAt) :
    ∃ next, adjustPart metaData part prod = .ok next ∧
      Adjusted part addr ackAt headAt prod next := by
  -- at most one consumer is reset, and that one is not in the mask
  have reset : ∀ client, client ≠ .produced → client ∉ prod.fmasks part →
      ∃ next, resetCursorsTsb client part (withCursors part addr ackAt headAt prod) = .ok next ∧
        Adjusted part addr ackAt headAt prod
          { next with fmasks := Function.update next.fmasks part allClients } := by
    intro client consumer off
    refine ⟨_, resetCursorsTsb_eq ready.listing (ready.unmarked client off)
      (ready.pointed.ackInside _) ready.enough (withCursors_ack _), ⟨⟨?_, ?_⟩, rfl, ?_, ?_, ?_⟩⟩
    · rintro other on
      have unlike : other ≠ client := by
        rintro rfl
        exact on.elim consumer off
      exact (congrFun (setAck_client unlike part _ _) part).trans (withCursors_ack other)
    · intro other on isConsumer
      have unlike : other ≠ client := by
        rintro rfl
        exact off on
      exact (congrFun (setHead_client unlike part _ _) part).trans (withCursors_head isConsumer)
    · intro q elsewhere other
      exact (setAck_part elsewhere client other _ _).trans
        (withCursors_ackElsewhere elsewhere other)
    · intro q elsewhere other
      exact (setHead_part elsewhere client other _ _).trans
        (withCursors_headElsewhere elsewhere other)
    · intro q elsewhere
      exact Function.update_of_ne elsewhere _ _
  rw [adjustPart_eq ready]
  by_cases primaryOff : .primary ∉ prod.fmasks part
  · obtain ⟨next, ran, adjusted⟩ := reset .primary (by simp) primaryOff
    rw [if_pos primaryOff, ran]
    exact ⟨_, rfl, adjusted⟩
  · by_cases secondaryOff : .secondary ∉ prod.fmasks part
    · obtain ⟨next, ran, adjusted⟩ := reset .secondary (by simp) secondaryOff
      rw [if_neg primaryOff, if_pos secondaryOff, ran]
      exact ⟨_, rfl, adjusted⟩
    · rw [if_neg primaryOff, if_neg secondaryOff]
      refine ⟨_, rfl, ⟨?_, ?_⟩, rfl, ?_, ?_, ?_⟩
      · exact fun client _ => @withCursors_ack _ part addr ackAt headAt prod client
      · exact fun client _ consumer =>
          @withCursors_head _ part addr ackAt headAt prod client consumer
      · exact fun q elsewhere client =>
          @withCursors_ackElsewhere _ part addr ackAt headAt prod q elsewhere client
      · exact fun q elsewhere client =>
          @withCursors_headElsewhere _ part addr ackAt headAt prod q elsewhere client
      · exact fun q elsewhere => Function.update_of_ne elsewhere _ _

end Partition

/-! ## All partitions -/

theorem adjustTsbPointers_spec {metaData : TsbMetaData Tuple} {prod : Producer Tuple}
    {addr : Nat → Nat → Nat} {records : Nat → List (TsbRecord Tuple)}
    {ackAt headAt : Nat → Client → Nat} (ready : ∀ part < prod.tsb.numParts,
      Ready metaData prod part (addr part) (records part) (ackAt part) (headAt part)) :
    ∃ next, adjustTsbPointers metaData prod = .ok next ∧
      next.tsb = { prod.tsb with ack := next.tsb.ack } ∧ ∀ part < prod.tsb.numParts,
        CursorsSet part (addr part) (ackAt part) (headAt part) prod next := by
  have rounds : ∀ n ≤ prod.tsb.numParts, ∃ next,
      (List.range n).foldlM (fun prod part => adjustPart metaData part prod) prod = Except.ok next ∧
      next.tsb = { prod.tsb with ack := next.tsb.ack } ∧
      (∀ part < n, CursorsSet part (addr part) (ackAt part) (headAt part) prod next) ∧
      ∀ part, n ≤ part → next.tsb.ack .produced part = prod.tsb.ack .produced part ∧
        next.fmasks part = prod.fmasks part := by
    intro n
    induction n with
    | zero => exact fun _ => ⟨prod, rfl, rfl, by simp, fun _ _ => ⟨rfl, rfl⟩⟩
    | succ n ih =>
      intro small
      obtain ⟨before, ran, tsb, done, open_⟩ := ih (by omega)
      obtain ⟨sameAck, sameMask⟩ := open_ n (Nat.le_refl n)
      obtain ⟨next, adjustedTo, adjusted⟩ :=
        adjustPart_spec ((ready n small).frame tsb sameAck sameMask)
      refine ⟨next, ?_, ?_, ?_, ?_⟩
      · rw [range_succ, foldlM_append, ran]
        simp only [bind, Except.bind, foldlM_cons, foldlM_nil, adjustedTo]
        rfl
      · rw [adjusted.tsb, tsb]
      · intro part before_
        by_cases here : part = n
        · subst here
          exact ⟨sameMask ▸ adjusted.ack, sameMask ▸ adjusted.head⟩
        · obtain ⟨acks, heads⟩ := done part (by omega)
          refine ⟨fun client on => ?_, fun client on consumer => ?_⟩
          · rw [adjusted.ackElsewhere part here, acks client on]
          · rw [adjusted.headElsewhere part here, heads client on consumer]
      · intro part above
        obtain ⟨oldAck, oldMask⟩ := open_ part (by omega)
        rw [adjusted.ackElsewhere part (by omega), adjusted.masksElsewhere part (by omega)]
        exact ⟨oldAck, oldMask⟩
  obtain ⟨next, ran, tsb, done, -⟩ := rounds _ (Nat.le_refl _)
  exact ⟨next, ran, tsb, done⟩

end TelegraphCQ.Flux
