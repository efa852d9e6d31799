import Mathlib.Algebra.BigOperators.Group.Finset.Basic
import TelegraphCQ.Flux.CMerge
import TelegraphCQ.Flux.TsbTransfer
import TelegraphCQ.Foundation.Linked

/-!
# Markers and whole acknowledgements

The rest of `tsb.c`: markers at both ends of a partition, the heads of its two readers, and the
acknowledgement of all its entries or of those before a marker that has not been sent.
-/

namespace TelegraphCQ.Flux

open Foundation Function

variable {Tuple : Type}

def punctuation : Int := -100

inductive MarkerFault where
  | tsb (fault : TsbFault)
  | uninitialised
  deriving DecidableEq, Repr

/-! ## Insertions -/

/-- The reserve of the partition is not used for a marker. -/
def insertMarkerEndTsb (r : Option Tuple) (part : Nat) (tsb : Tsb Tuple) : Bool × Tsb Tuple :=
  match allocEntry tsb with
  | (none, tsb) => (false, tsb)
  | (some tentry, tsb) => (true, linkRecord ⟨punctuation, {.produced}, r⟩ part tentry tsb)

def HeadedTsb.setHead (client : Client) (part address : Nat) (tsb : HeadedTsb Tuple) :
    HeadedTsb Tuple :=
  { tsb with
    head := update tsb.head client (update (tsb.head client) part address) }

def bumpBack (client : Client) (part tentry : Nat) (tsb : HeadedTsb Tuple) : HeadedTsb Tuple :=
  let bumped :=
    if tsb.ack client part = tsb.head client part then
      { tsb with toTsb := tsb.toTsb.setAck client part tentry }
    else tsb
  let bumped := bumped.setHead client part tentry
  { bumped with counts := update tsb.counts part (tsb.counts part + 1) }

def markerReaders (mask : Finset Client) : List Client :=
  [.primary, .secondary].filter (· ∈ mask)

def linkBefore (r : Option Tuple) (mask : Finset Client) (tentry aEntry : Nat)
    (tsb : Tsb Tuple) : Tsb Tuple :=
  let bEntry := (tsb.heap aEntry).prev
  let tsb := tsb.setNextOf bEntry (some tentry)
  let tsb := tsb.setEntry tentry { tsb.heap tentry with prev := bEntry }
  let tsb := tsb.setPrevOf (some aEntry) (some tentry)
  tsb.setEntry tentry
    { tsb.heap tentry with
      next := some aEntry
      seqnum := punctuation
      dmask := some ({.produced, .primary, .secondary} \ mask)
      rtup := r }

/-- The marker goes before the head of the last reader in the mask.  Without a reader the source
links it by uninitialised pointers. -/
def insertMarkerStartTsb (r : Option Tuple) (part : Nat) (mask : Finset Client)
    (tsb : HeadedTsb Tuple) : Except MarkerFault (Bool × HeadedTsb Tuple) :=
  match allocEntry tsb.toTsb with
  | (none, base) => .ok (false, { tsb with toTsb := base })
  | (some tentry, base) =>
    match (markerReaders mask).getLast? with
    | none => .error .uninitialised
    | some reader =>
      let bumped := (markerReaders mask).foldl
        (fun tsb client => bumpBack client part tentry tsb) { tsb with toTsb := base }
      .ok (true,
        { bumped with
          toTsb := linkBefore r mask tentry (tsb.head reader part) bumped.toTsb })

/-! ## Heads -/

def advanceHeadTsb (part : Nat) (client : Client) (tsb : HeadedTsb Tuple) :
    Except MarkerFault (HeadedTsb Tuple) :=
  match client with
  | .produced => .ok tsb
  | client =>
    let entry := tsb.heap (tsb.head client part)
    if entry.dmask = none then .ok tsb
    else
      match entry.next with
      | none => .error (.tsb .nullEntry)
      | some next => .ok (tsb.setHead client part next)

/-- There is no head of the producer. -/
def resetHeadTsb (part : Nat) (client : Client) (tsb : HeadedTsb Tuple) : HeadedTsb Tuple :=
  match client with
  | .produced => tsb
  | client => tsb.setHead client part (tsb.ack client part)

/-! ## Acknowledgements -/

def getUnackSeqnoTsb (part : Nat) (client : Client) (tsb : Tsb Tuple) : Int :=
  let entry := tsb.heap (tsb.ack client part)
  if entry.dmask = none then -1 else entry.seqnum

/-- The loops of `ack_all_TSB` and `ack_to_marker_TSB`.  The second stops at a marker once the
acknowledgement has met the head. -/
def ackLoop (part : Nat) (client : Client) (delMask : Finset Client) (toMarker : Bool) :
    Nat → Bool → HeadedTsb Tuple → Except TsbFault (List TsbWarning × HeadedTsb Tuple)
  | 0, _, _ => .error .endlessList
  | rounds + 1, crossed, tsb =>
    let seqno := getUnackSeqnoTsb part client tsb.toTsb
    let crossed := crossed || decide (tsb.ack client part = tsb.head client part)
    if seqno = -1 ∨ (toMarker = true ∧ seqno = punctuation ∧ crossed = true) then .ok ([], tsb)
    else do
      let result ← putAckTsb none seqno part client delMask tsb.toTsb
      let rest ← ackLoop part client delMask toMarker rounds crossed
        { tsb with toTsb := result.tsb }
      .ok (result.warnings ++ rest.1, rest.2)

def ackAllTsb (part : Nat) (client : Client) (delMask : Finset Client) (tsb : HeadedTsb Tuple) :
    Except TsbFault (List TsbWarning × HeadedTsb Tuple) := do
  let acked ← ackLoop part client delMask false (tsb.maxSize + tsb.numParts + 2) false tsb
  .ok (acked.1, resetHeadTsb part client acked.2)

def ackToMarkerTsb (part : Nat) (client : Client) (delMask : Finset Client)
    (tsb : HeadedTsb Tuple) : Except TsbFault (List TsbWarning × HeadedTsb Tuple) := do
  let acked ← ackLoop part client delMask true (tsb.maxSize + tsb.numParts + 2) false tsb
  .ok (acked.1, resetHeadTsb part client acked.2)

/-! ## Runs -/

inductive TsbOp (Tuple : Type) where
  | putAck (slot : Option Tuple) (seqno : Int) (part : Nat) (client : Client)
      (fmask : Finset Client)
  | appendResult (record : TsbRecord Tuple) (part : Nat)
  | insertMarkerEnd (r : Option Tuple) (part : Nat)
  | insertMarkerStart (r : Option Tuple) (part : Nat) (mask : Finset Client)
  | advanceHead (part : Nat) (client : Client)
  | ackAll (part : Nat) (client : Client) (delMask : Finset Client)
  | ackToMarker (part : Nat) (client : Client) (delMask : Finset Client)
  | returnLastEnt (part : Nat)

def tsbStep (tsb : HeadedTsb Tuple) :
    TsbOp Tuple → List TsbWarning × Except MarkerFault (HeadedTsb Tuple)
  | .putAck slot seqno part client fmask =>
    match putAckTsb slot seqno part client fmask tsb.toTsb with
    | .error fault => ([], .error (.tsb fault))
    | .ok result => (result.warnings, .ok { tsb with toTsb := result.tsb })
  | .appendResult record part =>
    ([], .ok { tsb with toTsb := (appendResultTsb record part tsb.toTsb).2 })
  | .insertMarkerEnd r part =>
    ([], .ok { tsb with toTsb := (insertMarkerEndTsb r part tsb.toTsb).2 })
  | .insertMarkerStart r part mask =>
    match insertMarkerStartTsb r part mask tsb with
    | .error fault => ([], .error fault)
    | .ok (_, next) => ([], .ok next)
  | .advanceHead part client => ([], advanceHeadTsb part client tsb)
  | .ackAll part client delMask =>
    match ackAllTsb part client delMask tsb with
    | .error fault => ([], .error (.tsb fault))
    | .ok (warnings, next) => (warnings, .ok next)
  | .ackToMarker part client delMask =>
    if client = .produced then ([], .error .uninitialised)
    else
      match ackToMarkerTsb part client delMask tsb with
      | .error fault => ([], .error (.tsb fault))
      | .ok (warnings, next) => (warnings, .ok next)
  | .returnLastEnt part =>
    match returnLastEntTsb part tsb.toTsb with
    | .error _ => ([], .error (.tsb .nullEntry))
    | .ok base => ([], .ok { tsb with toTsb := base })

def tsbMachine : Machine (HeadedTsb Tuple) (TsbOp Tuple) TsbWarning MarkerFault where
  step := tsbStep

def initHeadedTsb (raw : Nat → TsbEntry Tuple) (nparts max : Nat) : HeadedTsb Tuple :=
  { initTsb raw nparts max with head := (initTsb raw nparts max).ack }

/-! ## The accounts of the entries -/

namespace Tsb

def freeCells (tsb : Tsb Tuple) : List Nat :=
  walk (fun a => (tsb.heap a).next) (tsb.maxSize + tsb.numParts + 1) tsb.fTail

def partCells (tsb : Tsb Tuple) (part : Nat) : List Nat :=
  walk (fun a => (tsb.heap a).prev) (tsb.maxSize + tsb.numParts + 1) (some (tsb.table part))

def heldReserves (tsb : Tsb Tuple) : Int :=
  ∑ part ∈ Finset.range tsb.numParts, if tsb.lastEnts part = none then 0 else 1

/-- Every entry is free or in use, what is in use is what the partitions count, and no entry is
in two places. -/
def Accounted (tsb : Tsb Tuple) : Prop :=
  tsb.freeCells.length + tsb.size = tsb.maxSize ∧
  ∑ part ∈ Finset.range tsb.numParts, (tsb.counts part + 1) + tsb.heldReserves =
    tsb.size + tsb.numParts ∧
  (∀ part ∈ Finset.range tsb.numParts,
    ((tsb.partCells part).length : Int) = tsb.counts part + 1) ∧
  (tsb.freeCells ++ (List.range tsb.numParts).flatMap
    fun part => (tsb.lastEnts part).toList ++ tsb.partCells part).Nodup

instance (tsb : Tsb Tuple) : Decidable tsb.Accounted :=
  inferInstanceAs (Decidable (_ ∧ _ ∧ _ ∧ _))

end Tsb

/-- What an operation relies on: that the entry its client is at has not been deleted, that a
marker goes to one reader, and that there is a reserve to return. -/
def TsbOp.Safe (tsb : HeadedTsb Tuple) : TsbOp Tuple → Prop
  | .putAck _ _ part client _ | .ackAll part client _ =>
    part < tsb.numParts ∧ tsb.ack client part ∈ tsb.partCells part
  | .appendResult _ part | .insertMarkerEnd _ part => part < tsb.numParts
  | .insertMarkerStart _ part mask =>
    part < tsb.numParts ∧ (tsb.fTail = none ∨ (markerReaders mask).length = 1 ∧
      ∀ client ∈ markerReaders mask, tsb.head client part ∈ tsb.partCells part)
  | .advanceHead part client =>
    part < tsb.numParts ∧ (client = .produced ∨ tsb.head client part ∈ tsb.partCells part)
  | .ackToMarker part client _ =>
    part < tsb.numParts ∧ client ≠ .produced ∧ tsb.ack client part ∈ tsb.partCells part
  | .returnLastEnt part => part < tsb.numParts ∧ tsb.lastEnts part ≠ none

instance (tsb : HeadedTsb Tuple) : ∀ op : TsbOp Tuple, Decidable (op.Safe tsb)
  | .putAck .. | .ackAll .. | .insertMarkerStart .. | .advanceHead .. | .ackToMarker .. =>
    inferInstanceAs (Decidable (_ ∧ _))
  | .appendResult .. | .insertMarkerEnd .. => inferInstanceAs (Decidable (_ < _))
  | .returnLastEnt .. => inferInstanceAs (Decidable (_ ∧ _))

end TelegraphCQ.Flux
