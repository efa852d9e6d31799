import Mathlib.Data.Finset.Basic
import TelegraphCQ.Foundation.Machine

/-!
# The transient skew buffer

A fault-tolerant Flux producer keeps the tuples that have not been acknowledged by all
its clients (`tsb.c`).  Each partition has a doubly linked list of entries in a heap
shared with a free list; the list ends in a sentinel, and each client has a cursor at the
entry it handles next.  An entry is made by the first client that reports a sequence
number, be it the producer or a consumer whose acknowledgement comes early, and is
deleted when all clients of the delete mask have marked it.

The heap maps addresses to entries.  A mask is the set of its clients; a sentinel has no
mask, which is `-1` in the source.
-/

namespace TelegraphCQ.Flux

open Foundation Function

inductive Client where
  | produced
  | primary
  | secondary
  deriving DecidableEq, Repr

inductive TsbFault where
  | nullEntry
  | negativeCount
  | endlessList
  deriving DecidableEq, Repr

/-- The two branches of `put_ack_TSB` that report a missing or a misplaced number. -/
inductive TsbWarning where
  | skipping (passed seqno : Int)
  | larger (found seqno : Int)
  deriving DecidableEq, Repr

structure TsbEntry (Tuple : Type) where
  next : Option Nat
  prev : Option Nat
  seqnum : Int
  rtup : Option Tuple
  dmask : Option (Finset Client)

structure TsbRecord (Tuple : Type) where
  seqnum : Int
  dmask : Finset Client
  rtup : Option Tuple

structure Tsb (Tuple : Type) where
  heap : Nat → TsbEntry Tuple
  maxSize : Nat
  numParts : Nat
  size : Int
  counts : Nat → Int
  table : Nat → Nat
  ack : Client → Nat → Nat
  fHead : Option Nat
  fTail : Option Nat
  lastEnts : Nat → Option Nat

section Buffer

variable {Tuple : Type}

def Tsb.setEntry (address : Nat) (entry : TsbEntry Tuple) (tsb : Tsb Tuple) : Tsb Tuple :=
  { tsb with heap := update tsb.heap address entry }

def Tsb.setAck (client : Client) (part address : Nat) (tsb : Tsb Tuple) : Tsb Tuple :=
  { tsb with
    ack := update tsb.ack client (update (tsb.ack client) part address) }

/-! ## Free entries -/

def TsbEntry.invalidated (entry : TsbEntry Tuple) : TsbEntry Tuple :=
  { entry with seqnum := -1, dmask := none, next := none, prev := none }

def allocEntry (tsb : Tsb Tuple) : Option Nat × Tsb Tuple :=
  match tsb.fTail with
  | none => (none, tsb)
  | some rentry =>
    (some rentry,
      { tsb with
        fHead := if tsb.fHead = tsb.fTail then none else tsb.fHead
        fTail := if tsb.fHead = tsb.fTail then none else (tsb.heap rentry).next
        size := tsb.size + 1
        heap := update tsb.heap rentry (tsb.heap rentry).invalidated })

def allocEntryWLast (part : Nat) (tsb : Tsb Tuple) : Option Nat × Tsb Tuple :=
  match allocEntry tsb with
  | (some rentry, tsb) => (some rentry, tsb)
  | (none, tsb) =>
    match tsb.lastEnts part with
    | none => (none, tsb)
    | some rentry =>
      (some rentry,
        { tsb with
          heap := update tsb.heap rentry (tsb.heap rentry).invalidated
          lastEnts := update tsb.lastEnts part none })

def freeEntry (entry : Nat) (tsb : Tsb Tuple) : Tsb Tuple :=
  { tsb with
    heap := update tsb.heap entry { tsb.heap entry with next := tsb.fTail }
    fTail := some entry
    fHead := if tsb.fHead = none then some entry else tsb.fHead
    size := tsb.size - 1 }

def freeEntryWLast (part entry : Nat) (tsb : Tsb Tuple) : Tsb Tuple :=
  match tsb.lastEnts part with
  | some _ => freeEntry entry tsb
  | none => { tsb with lastEnts := update tsb.lastEnts part (some entry) }

def Tsb.setNextOf (address : Option Nat) (next : Option Nat) (tsb : Tsb Tuple) : Tsb Tuple :=
  match address with
  | none => tsb
  | some a => tsb.setEntry a { tsb.heap a with next := next }

def Tsb.setPrevOf (address : Option Nat) (prev : Option Nat) (tsb : Tsb Tuple) : Tsb Tuple :=
  match address with
  | none => tsb
  | some a => tsb.setEntry a { tsb.heap a with prev := prev }

def delEntry (part tentry : Nat) (tsb : Tsb Tuple) : Except TsbFault (Tsb Tuple) :=
  let entry := tsb.heap tentry
  let tsb := tsb.setEntry tentry { entry with rtup := none }
  let tsb := (tsb.setNextOf entry.prev entry.next).setPrevOf entry.next entry.prev
  let tsb := freeEntryWLast part tentry tsb
  let tsb := { tsb with counts := update tsb.counts part (tsb.counts part - 1) }
  if tsb.counts part < 0 then .error .negativeCount else .ok tsb

/-! ## Initialisation

The entries lie at the addresses below `max + nparts`, and the reserved ones follow.  The
memory is not cleared, so that its contents are a parameter. -/

def emptyTsb (raw : Nat → TsbEntry Tuple) (nparts max : Nat) : Tsb Tuple where
  heap := fun address =>
    if address < max + nparts then
      { raw address with next := if address = 0 then none else some (address - 1) }
    else raw address
  maxSize := max + nparts
  numParts := nparts
  size := 0
  counts := fun _ => 0
  table := fun _ => 0
  ack := fun _ _ => 0
  fHead := some 0
  fTail := some (max + nparts - 1)
  lastEnts := fun _ => none

/-- One round of the last loop of `init_TSB`; there are enough entries for all rounds. -/
def initPart (part : Nat) (tsb : Tsb Tuple) : Tsb Tuple :=
  match allocEntry tsb with
  | (none, tsb) => tsb
  | (some tentry, tsb) =>
    { tsb with
      table := update tsb.table part tentry
      ack := fun client => update (tsb.ack client) part tentry
      lastEnts := update tsb.lastEnts part (some (tsb.maxSize + part))
      counts := update tsb.counts part 0 }

def initTsb (raw : Nat → TsbEntry Tuple) (nparts max : Nat) : Tsb Tuple :=
  (List.range nparts).foldl (fun tsb part => initPart part tsb) (emptyTsb raw nparts max)

/-! ## Insertions and acknowledgements -/

structure AckResult (Tuple : Type) where
  accepted : Bool
  slot : Option Tuple
  warnings : List TsbWarning
  tsb : Tsb Tuple

structure AckScan (Tuple : Type) where
  found : Bool
  slot : Option Tuple
  warnings : List TsbWarning
  tsb : Tsb Tuple

def delIfMarked (fmask dmask : Finset Client) (part tentry : Nat) (tsb : Tsb Tuple) :
    Except TsbFault (Tsb Tuple) :=
  if fmask ⊆ dmask then delEntry part tentry tsb else .ok tsb

/-- The loop of `put_ack_TSB`, which marks the entries up to the sequence number.  It
meets no entry twice, so that the number of entries bounds its rounds. -/
def putAckScan (seqno : Int) (part : Nat) (mask : Client) (fmask : Finset Client) :
    Nat → AckScan Tuple → Except TsbFault (AckScan Tuple)
  | 0, _ => .error .endlessList
  | rounds + 1, scan =>
    let tentry := scan.tsb.ack mask part
    let entry := scan.tsb.heap tentry
    match entry.dmask with
    | none => .ok scan
    | some dmask =>
      if entry.seqnum ≤ seqno then
        let found := scan.found || decide (entry.seqnum = seqno)
        let taken := decide (entry.seqnum = seqno) && scan.slot.isSome
        let marked :=
          { entry with
            rtup := if taken then scan.slot else entry.rtup
            dmask := some (insert mask dmask) }
        match entry.next with
        | none => .error .nullEntry
        | some next => do
            let tsb := (scan.tsb.setEntry tentry marked).setAck mask part next
            let tsb ← delIfMarked fmask (insert mask dmask) part tentry tsb
            putAckScan seqno part mask fmask rounds
              { found := found
                slot := if taken then none else scan.slot
                warnings :=
                  if found then scan.warnings
                  else scan.warnings ++ [.skipping entry.seqnum seqno]
                tsb := tsb }
      else .ok scan

def appendEntry (slot : Option Tuple) (seqno : Int) (part : Nat) (mask : Client)
    (tentry : Nat) (tsb : Tsb Tuple) : Tsb Tuple :=
  let pentry := tsb.table part
  let tsb := tsb.setEntry pentry
    { tsb.heap pentry with
      rtup := slot, seqnum := seqno, dmask := some {mask}, next := some tentry }
  let tsb := tsb.setEntry tentry { tsb.heap tentry with prev := some pentry }
  { tsb with
    table := update tsb.table part tentry
    counts := update tsb.counts part (tsb.counts part + 1) }

def linkRecord (record : TsbRecord Tuple) (part tentry : Nat) (tsb : Tsb Tuple) : Tsb Tuple :=
  let pentry := tsb.table part
  let tsb := tsb.setEntry pentry
    { tsb.heap pentry with
      rtup := record.rtup
      seqnum := record.seqnum
      dmask := some record.dmask
      next := some tentry }
  let tsb := tsb.setEntry tentry { tsb.heap tentry with prev := some pentry }
  { tsb with
    table := update tsb.table part tentry
    counts := update tsb.counts part (tsb.counts part + 1) }

/-- The producer passes its tuple in the slot, and an acknowledgement passes none. -/
def putAckTsb (slot : Option Tuple) (seqno : Int) (part : Nat) (mask : Client)
    (fmask : Finset Client) (tsb : Tsb Tuple) : Except TsbFault (AckResult Tuple) := do
  let scan ← putAckScan seqno part mask fmask (tsb.maxSize + tsb.numParts + 2)
    ⟨false, slot, [], tsb⟩
  let cursor := scan.tsb.heap (scan.tsb.ack mask part)
  if cursor.dmask = none ∧ scan.found = false then
    match allocEntryWLast part scan.tsb with
    | (none, tsb) => .ok ⟨false, scan.slot, scan.warnings, tsb⟩
    | (some tentry, tsb) =>
      let tsb := appendEntry scan.slot seqno part mask tentry tsb
      match (tsb.heap (tsb.ack mask part)).next with
      | none => .error .nullEntry
      | some next => .ok ⟨true, none, scan.warnings, tsb.setAck mask part next⟩
  else
    .ok ⟨true, scan.slot,
      if scan.found then scan.warnings
      else scan.warnings ++ [.larger cursor.seqnum seqno], scan.tsb⟩

/-! ## Runs

All clients of a partition go through the sequence numbers of its tuples in order.  A
client whose number has been refused tries it again. -/

structure Workload (Tuple : Type) where
  numParts : Nat
  max : Nat
  seqnum : Nat → Nat → Int
  tuple : Nat → Nat → Tuple
  fmasks : Nat → Finset Client

structure SkewState (Tuple : Type) where
  tsb : Tsb Tuple
  position : Client → Nat → Nat

structure SkewOp where
  client : Client
  part : Nat
  deriving DecidableEq, Repr

def advance (position : Client → Nat → Nat) (op : SkewOp) : Client → Nat → Nat :=
  update position op.client
    (update (position op.client) op.part (position op.client op.part + 1))

def Workload.slot (work : Workload Tuple) (op : SkewOp) (k : Nat) : Option Tuple :=
  if op.client = .produced then some (work.tuple op.part k) else none

def skewStep (work : Workload Tuple) (state : SkewState Tuple) (op : SkewOp) :
    List TsbWarning × Except TsbFault (SkewState Tuple) :=
  let k := state.position op.client op.part
  match putAckTsb (work.slot op k) (work.seqnum op.part k) op.part op.client
      (work.fmasks op.part) state.tsb with
  | .error fault => ([], .error fault)
  | .ok result =>
    (result.warnings,
      .ok ⟨result.tsb,
        if result.accepted then advance state.position op else state.position⟩)

def skewMachine (work : Workload Tuple) :
    Machine (SkewState Tuple) SkewOp TsbWarning TsbFault where
  step := skewStep work

def skewInit (work : Workload Tuple) (raw : Nat → TsbEntry Tuple) : SkewState Tuple where
  tsb := initTsb raw work.numParts work.max
  position := fun _ _ => 0

end Buffer

end TelegraphCQ.Flux
