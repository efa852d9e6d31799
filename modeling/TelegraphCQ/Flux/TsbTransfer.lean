import Mathlib
import TelegraphCQ.Flux.Tsb

/-!
# Moving the skew buffer

The state of a producer is moved to a fresh copy of it page by page (`nodeFluxProd_FT.c`).
The first page has the metadata of the skew buffer, the others its tuples, one partition
after the other.  The copy takes the other role, so that the marks and cursors of primary
and secondary are exchanged.  Cursors are moved as the sequence numbers of their entries.

A page of tuples is the list of its records; the serializers give back what they were
given.  `int` has four bytes.
-/

namespace TelegraphCQ.Flux

open Foundation Function

inductive TransferFault where
  | metaDataSpace
  | otherMaxSize
  | otherNumParts
  | nullEntry
  | noLastEnt
  | assertion
  | unusedPage
  | ackNotFound (client : Client)
  | headNotFound (client : Client)
  | endlessList
  | outOfStep
  deriving DecidableEq, Repr

/-- The parts of a producer's state that are moved; `head` is `p_head` and `s_head`. -/
structure Producer (Tuple : Type) where
  tsb : Tsb Tuple
  fmasks : Nat → Finset Client
  head : Client → Nat → Nat
  scanslot : Option Tuple

structure TsbMetaData (Tuple : Type) where
  scantuple : Option Tuple
  maxSize : Nat
  size : Int
  numParts : Nat
  fmasks : Nat → Finset Client
  counts : Nat → Int
  lents : Nat → Bool
  ack : Client → Nat → Int
  head : Client → Nat → Int

section Transfer

variable {Tuple : Type} (tLen : Tuple → Nat)

def tupleSize (tuple : Tuple) : Nat := 4 + tLen tuple

/-- An entry without a tuple is sent as a result of type `RESULT_DONE`. -/
def resultSize (rtup : Option Tuple) : Nat := 4 + (rtup.map (tupleSize tLen)).getD 0

def recordSize (rtup : Option Tuple) : Nat := resultSize tLen rtup + 2 * 4

/-! ## Extraction -/

def mdSize (prod : Producer Tuple) : Nat :=
  4 * 3 + 8 * (4 * prod.tsb.numParts) + (4 + (prod.scanslot.map (tupleSize tLen)).getD 0)

def serTsbMetaData (sending : Client → Nat → Bool) (bsize : Nat) (prod : Producer Tuple) :
    Except TransferFault (TsbMetaData Tuple) :=
  if ¬ mdSize tLen prod < bsize then .error .metaDataSpace
  else
    .ok
      { scantuple := prod.scanslot
        maxSize := prod.tsb.maxSize
        size := prod.tsb.size
        numParts := prod.tsb.numParts
        fmasks := prod.fmasks
        counts := prod.tsb.counts
        lents := fun part => (prod.tsb.lastEnts part).isSome
        ack := fun client part =>
          if client = .produced ∨ client ∈ prod.fmasks part then
            (prod.tsb.heap (prod.tsb.ack client part)).seqnum
          else -1
        head := fun client part =>
          if client ∈ prod.fmasks part ∧ sending client part = true then
            (prod.tsb.heap (prod.head client part)).seqnum
          else -1 }

def firstOf (tsb : Tsb Tuple) (cursor ack : Nat) : Nat :=
  if (tsb.heap cursor).dmask = none then ack
  else if (tsb.heap ack).dmask ≠ none ∧ (tsb.heap cursor).seqnum > (tsb.heap ack).seqnum then
    ack
  else cursor

def firstTsbItem (tsb : Tsb Tuple) (fmask : Finset Client) (part : Nat) : Nat :=
  let cursor := tsb.ack .produced part
  let cursor := if .primary ∈ fmask then firstOf tsb cursor (tsb.ack .primary part) else cursor
  if .secondary ∈ fmask then firstOf tsb cursor (tsb.ack .secondary part) else cursor

structure SerCursor where
  currPart : Nat
  cursor : Option Nat

/-- The entries of the partitions with their sentinels, and one more round to stop. -/
def Tsb.rounds (tsb : Tsb Tuple) : Nat :=
  ((List.range tsb.numParts).map fun part => (tsb.counts part).toNat + 1).sum + 1

def serTuplesLoop (tsb : Tsb Tuple) (fmasks : Nat → Finset Client) (bsize : Nat) :
    Nat → SerCursor → Nat → List (TsbRecord Tuple) →
      Except TransferFault (SerCursor × List (TsbRecord Tuple))
  | 0, _, _, _ => .error .endlessList
  | rounds + 1, smcb, currPos, page =>
    if ¬ smcb.currPart < tsb.numParts then .ok (smcb, page)
    else
      let cursor := smcb.cursor.getD (firstTsbItem tsb (fmasks smcb.currPart) smcb.currPart)
      let entry := tsb.heap cursor
      match entry.dmask with
      | none =>
        serTuplesLoop tsb fmasks bsize rounds ⟨smcb.currPart + 1, none⟩ currPos page
      | some dmask =>
        if ¬ currPos + recordSize tLen entry.rtup < bsize then
          .ok (⟨smcb.currPart, some cursor⟩, page)
        else
          serTuplesLoop tsb fmasks bsize rounds ⟨smcb.currPart, entry.next⟩
            (currPos + recordSize tLen entry.rtup)
            (page ++ [⟨entry.seqnum, dmask, entry.rtup⟩])

def serTsbTuples (tsb : Tsb Tuple) (fmasks : Nat → Finset Client) (bsize : Nat)
    (smcb : SerCursor) : Except TransferFault (SerCursor × List (TsbRecord Tuple)) :=
  serTuplesLoop tLen tsb fmasks bsize tsb.rounds smcb 4 []

/-! ## Installation -/

def flipTsbMask (mask : Finset Client) : Finset Client :=
  if .primary ∈ mask ∧ .secondary ∉ mask then insert .secondary (mask.erase .primary)
  else if .secondary ∈ mask ∧ .primary ∉ mask then insert .primary (mask.erase .secondary)
  else mask

def Client.other : Client → Client
  | .produced => .produced
  | .primary => .secondary
  | .secondary => .primary

/-- The copy, with its control block: what is still to come of the partitions, and the
metadata. -/
structure Installing (Tuple : Type) where
  prod : Producer Tuple
  metaData : TsbMetaData Tuple
  counts : Nat → Int
  currPart : Nat

def deserTsbMetaData (metaData : TsbMetaData Tuple) (prod : Producer Tuple) :
    Except TransferFault (Installing Tuple) :=
  if metaData.maxSize ≠ prod.tsb.maxSize then .error .otherMaxSize
  else if metaData.numParts ≠ prod.tsb.numParts then .error .otherNumParts
  else
    .ok
      { prod :=
          { prod with
            fmasks := fun part => flipTsbMask (metaData.fmasks part)
            scanslot := metaData.scantuple.or prod.scanslot }
        metaData :=
          { metaData with
            ack := fun client => metaData.ack client.other
            head := fun client => metaData.head client.other }
        counts := metaData.counts
        currPart := 0 }

def appendResultTsb (record : TsbRecord Tuple) (part : Nat) (tsb : Tsb Tuple) :
    Bool × Tsb Tuple :=
  match allocEntryWLast part tsb with
  | (none, tsb) => (false, tsb)
  | (some tentry, tsb) =>
    let pentry := tsb.table part
    let tsb := tsb.setEntry pentry
      { tsb.heap pentry with
        rtup := record.rtup
        seqnum := record.seqnum
        dmask := some record.dmask
        next := some tentry }
    let tsb := tsb.setEntry tentry { tsb.heap tentry with prev := some pentry }
    (true,
      { tsb with
        table := update tsb.table part tentry
        counts := update tsb.counts part (tsb.counts part + 1) })

def returnLastEntTsb (part : Nat) (tsb : Tsb Tuple) : Except TransferFault (Tsb Tuple) :=
  match tsb.lastEnts part with
  | none => .error .nullEntry
  | some entry =>
    .ok { freeEntry entry tsb with lastEnts := update tsb.lastEnts part none }

def TsbRecord.flipped (record : TsbRecord Tuple) : TsbRecord Tuple :=
  { record with dmask := flipTsbMask record.dmask }

/-- Whether the append succeeded is not looked at. -/
def installRecord (record : TsbRecord Tuple) (state : Installing Tuple) : Installing Tuple :=
  { state with
    prod :=
      { state.prod with
        tsb := (appendResultTsb record.flipped state.currPart state.prod.tsb).2 }
    counts := update state.counts state.currPart (state.counts state.currPart - 1) }

def checkPart (state : Installing Tuple) : Except TransferFault Unit :=
  if state.metaData.counts state.currPart = state.prod.tsb.counts state.currPart then .ok ()
  else .error .assertion

/-- A partition that is finished in the middle of a page; if it had no reserve, it is not to
have one here. -/
def finishPart (state : Installing Tuple) : Except TransferFault (Installing Tuple) := do
  checkPart state
  if state.metaData.lents state.currPart then
    .ok { state with currPart := state.currPart + 1 }
  else if state.prod.tsb.counts state.currPart = 0 then .error .noLastEnt
  else
    let tsb ← returnLastEntTsb state.currPart state.prod.tsb
    .ok { state with prod := { state.prod with tsb }, currPart := state.currPart + 1 }

def deserTuplesLoop : Nat → List (TsbRecord Tuple) → Installing Tuple →
    Except TransferFault (Installing Tuple)
  | 0, _, _ => .error .endlessList
  | _ + 1, [], state => .ok state
  | rounds + 1, record :: page, state =>
    if ¬ state.currPart < state.prod.tsb.numParts then .error .unusedPage
    else if state.counts state.currPart = 0 then do
      let state ← finishPart state
      deserTuplesLoop rounds (record :: page) state
    else deserTuplesLoop rounds page (installRecord record state)

/-- The loop after a page, which passes the partitions that are finished. -/
def passFinished : Nat → Installing Tuple → Except TransferFault (Installing Tuple)
  | 0, _ => .error .endlessList
  | rounds + 1, state =>
    if state.currPart < state.prod.tsb.numParts ∧ state.counts state.currPart = 0 then do
      checkPart state
      passFinished rounds { state with currPart := state.currPart + 1 }
    else .ok state

def deserTsbTuples (page : List (TsbRecord Tuple)) (state : Installing Tuple) :
    Except TransferFault (Installing Tuple) := do
  let state ← deserTuplesLoop (page.length + state.prod.tsb.numParts + 1) page state
  passFinished (state.prod.tsb.numParts + 1) state

/-! ## Cursors -/

/-- The walk of `advanceCursor` down a list; a mask without clients stops it too. -/
def findSeqnum (tsb : Tsb Tuple) (seqnum : Int) : Nat → Nat → Except TransferFault (Option Nat)
  | 0, _ => .error .endlessList
  | rounds + 1, start =>
    let entry := tsb.heap start
    if entry.seqnum = seqnum then .ok (some start)
    else if entry.dmask = none ∨ entry.dmask = some ∅ then .ok none
    else
      match entry.next with
      | none => .error .nullEntry
      | some next => findSeqnum tsb seqnum rounds next

def advanceCursor (tsb : Tsb Tuple) (seqnum : Int) (start tail : Nat) :
    Except TransferFault (Option Nat) :=
  if seqnum = -1 then
    if (tsb.heap tail).dmask = none then .ok (some tail) else .error .assertion
  else findSeqnum tsb seqnum tsb.rounds start

def advanceAck (metaData : TsbMetaData Tuple) (part start : Nat) (client : Client)
    (tsb : Tsb Tuple) : Except TransferFault (Tsb Tuple) := do
  match ← advanceCursor tsb (metaData.ack client part) start (tsb.table part) with
  | none => .error (.ackNotFound client)
  | some entry => .ok (tsb.setAck client part entry)

def Producer.setHead (client : Client) (part address : Nat) (prod : Producer Tuple) :
    Producer Tuple :=
  { prod with
    head := update prod.head client
      (update (prod.head client) part address) }

def advanceHead (metaData : TsbMetaData Tuple) (part start : Nat) (client : Client)
    (prod : Producer Tuple) : Except TransferFault (Producer Tuple) := do
  match ← advanceCursor prod.tsb (metaData.head client part) start (prod.tsb.table part) with
  | none => .error (.headNotFound client)
  | some entry => .ok (prod.setHead client part entry)

def unmark (client : Client) : Nat → Nat → Tsb Tuple → Except TransferFault (Tsb Tuple)
  | 0, _, _ => .error .endlessList
  | rounds + 1, start, tsb =>
    let entry := tsb.heap start
    match entry.dmask with
    | none => .ok tsb
    | some dmask =>
      let tsb := tsb.setEntry start { entry with dmask := some (dmask.erase client) }
      match entry.next with
      | none => .error .nullEntry
      | some next => unmark client rounds next tsb

def resetCursorsTsb (client : Client) (part : Nat) (prod : Producer Tuple) :
    Except TransferFault (Producer Tuple) := do
  let tsb := prod.tsb.setAck client part (prod.tsb.ack client.other part)
  let tsb ← unmark client tsb.rounds (tsb.ack client part) tsb
  .ok ({ prod with tsb }.setHead client part (tsb.ack client part))

def allClients : Finset Client := {.produced, .primary, .secondary}

def adjustPart (metaData : TsbMetaData Tuple) (part : Nat) (prod : Producer Tuple) :
    Except TransferFault (Producer Tuple) := do
  let start := prod.tsb.ack .produced part
  let tsb ← advanceAck metaData part start .produced prod.tsb
  let tsb ← advanceAck metaData part start .primary tsb
  let tsb ← advanceAck metaData part start .secondary tsb
  let prod ← advanceHead metaData part start .primary { prod with tsb }
  let prod ← advanceHead metaData part start .secondary prod
  -- a consumer that was not served is to be served from now on
  let prod ←
    if .primary ∉ prod.fmasks part then resetCursorsTsb .primary part prod
    else if .secondary ∉ prod.fmasks part then resetCursorsTsb .secondary part prod
    else .ok prod
  .ok { prod with fmasks := update prod.fmasks part allClients }

def adjustTsbPointers (metaData : TsbMetaData Tuple) (prod : Producer Tuple) :
    Except TransferFault (Producer Tuple) :=
  (List.range prod.tsb.numParts).foldlM (fun prod part => adjustPart metaData part prod) prod

/-! ## The whole movement -/

/-- The pages of tuples.  The page that ends the extraction has to end the installation. -/
def movePages (bsize : Nat) (source : Producer Tuple) :
    Nat → SerCursor → Installing Tuple → Except TransferFault (Producer Tuple)
  | 0, _, _ => .error .endlessList
  | pages + 1, smcb, state => do
      let (smcb, page) ← serTsbTuples tLen source.tsb source.fmasks bsize smcb
      let state ← deserTsbTuples page state
      if smcb.currPart < source.tsb.numParts then
        if state.currPart < state.prod.tsb.numParts then movePages bsize source pages smcb state
        else .error .outOfStep
      else if state.currPart < state.prod.tsb.numParts then .error .outOfStep
      else adjustTsbPointers state.metaData state.prod

def moveState (sending : Client → Nat → Bool) (bsize : Nat) (source target : Producer Tuple) :
    Except TransferFault (Producer Tuple) := do
  let metaData ← serTsbMetaData tLen sending bsize source
  let state ← deserTsbMetaData metaData target
  movePages tLen bsize source source.tsb.rounds ⟨0, none⟩ state

def freshProducer (raw : Nat → TsbEntry Tuple) (nparts max : Nat)
    (fmasks : Nat → Finset Client) : Producer Tuple where
  tsb := initTsb raw nparts max
  fmasks := fmasks
  head := fun _ => (initTsb raw nparts max).table
  scanslot := none

end Transfer

end TelegraphCQ.Flux
