import TelegraphCQ.Flux.TsbMarkers

/-!
# The ordered merge of a consumer

A fault-tolerant Flux consumer merges the streams of its producers by sequence number
(`getNextTuple_bord`, `getNextTuple_ord`).  It holds one tuple of each producer, which is ready
once its acknowledgement is sent.  From the first acknowledged pause on, tuples that are ready are
moved to a buffer; when all pauses are acknowledged the buffer is drained, and once it is empty the
consumer merges without it.
-/

namespace TelegraphCQ.Flux

open Foundation Function

variable {Tuple : Type}

/-! ## The tuples that are held -/

namespace CMerge

def setTup (idx : Nat) (tup : Tuple) (seq : Int) (merge : CMerge Tuple) : CMerge Tuple :=
  { merge with
    htup := update merge.htup idx (some tup)
    snum := update merge.snum idx seq }

def setTupReady (idx : Nat) (merge : CMerge Tuple) : CMerge Tuple :=
  { merge with ready := update merge.ready idx true, nfill := merge.nfill + 1 }

def tupPending (idx : Nat) (merge : CMerge Tuple) : Bool :=
  !merge.ready idx && (merge.htup idx).isSome

def delTup (idx : Nat) (merge : CMerge Tuple) : CMerge Tuple :=
  { merge with
    htup := update merge.htup idx none
    ready := update merge.ready idx false
    nfill := merge.nfill - 1 }

end CMerge

/-! ## The next tuple -/

inductive MergeFault where
  | buffer (fault : MarkerFault)
  | outOfSpace
  | ackRefused
  | noProducer
  | nullTuple
  deriving DecidableEq, Repr

/-- `incoming` is what the connections still have to bring. -/
structure MergeState (Tuple : Type) where
  merge : CMerge Tuple
  tsb : HeadedTsb Tuple
  incoming : Nat → List Tuple

def bufferMask : Finset Client := {.produced, .primary}

def primPartEmpty (part : Nat) (tsb : HeadedTsb Tuple) : Bool :=
  decide ((tsb.heap (tsb.head .primary part)).dmask = none)

def tsbEmpty (tsb : HeadedTsb Tuple) : Bool := decide (tsb.size = tsb.numParts)

def moveReady : List Nat → MergeState Tuple → Except MergeFault (MergeState Tuple)
  | [], s => .ok s
  | i :: is, s =>
    if s.merge.ready i then
      match putAckTsb (s.merge.htup i) (s.merge.snum i) i .produced bufferMask s.tsb.toTsb with
      | .error fault => .error (.buffer (.tsb fault))
      | .ok result =>
        if result.slot.isSome then .error .outOfSpace
        else
          moveReady is
            { s with
              merge := s.merge.delTup i
              tsb := { s.tsb with toTsb := result.tsb } }
    else moveReady is s

structure Candidate where
  lsn : Int
  midx : Nat
  inbuf : Bool
  deriving DecidableEq, Repr

def better (best : Option Candidate) (other : Candidate) : Option Candidate :=
  match best with
  | none => some other
  | some best => if other.lsn < best.lsn then some other else some best

/-- The search while the buffer is drained; it ends when a producer has no tuple. -/
def searchBuffered (s : MergeState Tuple) :
    List Nat → Option Candidate → Option (Option Candidate)
  | [], best => some best
  | i :: is, best =>
    if primPartEmpty i s.tsb then
      if s.merge.ready i then searchBuffered s is (better best ⟨s.merge.snum i, i, false⟩)
      else none
    else searchBuffered s is (better best ⟨getUnackSeqnoTsb i .primary s.tsb.toTsb, i, true⟩)

def searchReady (nProd : Nat) (merge : CMerge Tuple) : Option Candidate :=
  (List.range nProd).foldl (fun best i => better best ⟨merge.snum i, i, false⟩) none

def takeHeld (midx : Nat) (s : MergeState Tuple) :
    Except MergeFault (Option (Nat × Tuple) × MergeState Tuple) :=
  match s.merge.htup midx with
  | none => .error .nullTuple
  | some tuple => .ok (some (midx, tuple), { s with merge := s.merge.delTup midx })

def takeBuffered (lsn : Int) (midx : Nat) (s : MergeState Tuple) :
    Except MergeFault (Option (Nat × Tuple) × MergeState Tuple) :=
  match (s.tsb.heap (s.tsb.head .primary midx)).rtup with
  | none => .error .nullTuple
  | some tuple =>
    match advanceHeadTsb midx .primary s.tsb with
    | .error fault => .error (.buffer fault)
    | .ok tsb =>
      match putAckTsb none lsn midx .primary bufferMask tsb.toTsb with
      | .error fault => .error (.buffer (.tsb fault))
      | .ok result =>
        if result.accepted then
          .ok (some (midx, tuple), { s with tsb := { tsb with toTsb := result.tsb } })
        else .error .ackRefused

def getNextTupleOrd (nProd : Nat) (s : MergeState Tuple) :
    Except MergeFault (Option (Nat × Tuple) × MergeState Tuple) :=
  if s.merge.nfill ≠ nProd ∨ nProd = 0 then .ok (none, s)
  else
    match searchReady nProd s.merge with
    | none => .error .noProducer
    | some best => takeHeld best.midx s

/-- The consumer returns to the normal merge when the buffer is empty. -/
def leaveBuffer (s : MergeState Tuple) : MergeState Tuple :=
  if tsbEmpty s.tsb then { s with merge := { s.merge with useBuf := false } } else s

def drain (nProd : Nat) (s : MergeState Tuple) :
    Except MergeFault (Option (Nat × Tuple) × MergeState Tuple) :=
  match searchBuffered s (List.range nProd) none with
  | none => .ok (none, s)
  | some none => .error .noProducer
  | some (some best) =>
    match if best.inbuf then takeBuffered best.lsn best.midx s else takeHeld best.midx s with
    | .error fault => .error fault
    | .ok (found, s) => .ok (found, leaveBuffer s)

def getNextTupleBord (nProd : Nat) (s : MergeState Tuple) :
    Except MergeFault (Option (Nat × Tuple) × MergeState Tuple) :=
  if s.merge.useBuf = false then getNextTupleOrd nProd s
  else if s.merge.moveToBuf then
    if s.merge.nfill = 0 then .ok (none, s)
    else
      match moveReady (List.range nProd) s with
      | .error fault => .error fault
      | .ok s => .ok (none, s)
  else drain nProd s

/-! ## Runs -/

inductive MergeOp where
  | receive (idx : Nat)
  | setReady (idx : Nat)
  | startBuffering
  | startDraining
  | next
  deriving DecidableEq, Repr

inductive MergeEvent (Tuple : Type) where
  | received (idx : Nat) (tuple : Tuple)
  | handedOn (idx : Nat) (tuple : Tuple)
  deriving DecidableEq, Repr

/-- A connection is read only while no tuple of its producer is held. -/
def receiveTuple (seqOf : Tuple → Int) (idx : Nat) (s : MergeState Tuple) :
    List (MergeEvent Tuple) × MergeState Tuple :=
  match s.merge.htup idx, s.incoming idx with
  | none, tuple :: rest =>
    ([.received idx tuple],
      { s with
        merge := s.merge.setTup idx tuple (seqOf tuple)
        incoming := update s.incoming idx rest })
  | _, _ => ([], s)

def mergeStep (seqOf : Tuple → Int) (nProd : Nat) (s : MergeState Tuple) :
    MergeOp → List (MergeEvent Tuple) × Except MergeFault (MergeState Tuple)
  | .receive idx => ((receiveTuple seqOf idx s).1, .ok (receiveTuple seqOf idx s).2)
  | .setReady idx =>
    ([], .ok (if s.merge.tupPending idx then { s with merge := s.merge.setTupReady idx } else s))
  | .startBuffering =>
    ([], .ok { s with merge := { s.merge with useBuf := true, moveToBuf := true } })
  | .startDraining =>
    ([], .ok { s with merge := { s.merge with useBuf := true, moveToBuf := false } })
  | .next =>
    match getNextTupleBord nProd s with
    | .error fault => ([], .error fault)
    | .ok (none, s) => ([], .ok s)
    | .ok (some (idx, tuple), s) => ([.handedOn idx tuple], .ok s)

def mergeMachine (seqOf : Tuple → Int) (nProd : Nat) :
    Machine (MergeState Tuple) MergeOp (MergeEvent Tuple) MergeFault where
  step := mergeStep seqOf nProd

def initMerge (raw : Nat → TsbEntry Tuple) (nProd tsbSize : Nat) (incoming : Nat → List Tuple) :
    MergeState Tuple where
  merge :=
    { cpos := 0
      htup := fun _ => none
      snum := fun _ => 0
      ready := fun _ => false
      nfill := 0
      useBuf := false
      moveToBuf := false }
  tsb := initHeadedTsb raw nProd tsbSize
  incoming := incoming

/-! ## What is handed on -/

def receivedFrom (idx : Nat) (events : List (MergeEvent Tuple)) : List Tuple :=
  events.filterMap fun
    | .received i tuple => if i = idx then some tuple else none
    | .handedOn _ _ => none

def handedFrom (idx : Nat) (events : List (MergeEvent Tuple)) : List Tuple :=
  events.filterMap fun
    | .handedOn i tuple => if i = idx then some tuple else none
    | .received _ _ => none

def handedOn (events : List (MergeEvent Tuple)) : List Tuple :=
  events.filterMap fun
    | .handedOn _ tuple => some tuple
    | .received _ _ => none

def MergeState.buffered (s : MergeState Tuple) (idx : Nat) : List Tuple :=
  (s.tsb.partCells idx).reverse.dropLast.filterMap fun a => (s.tsb.heap a).rtup

def MergeState.held (s : MergeState Tuple) (idx : Nat) : List Tuple :=
  s.buffered idx ++ (s.merge.htup idx).toList

/-- The buffer has room for the tuples that are moved to it, and it is left only when it holds no
tuple. -/
def MergeOp.Sound (seqOf : Tuple → Int) (nProd : Nat) (s : MergeState Tuple) : MergeOp → Prop
  | .receive idx | .setReady idx => idx < nProd
  | .startBuffering | .startDraining => True
  | .next => 0 < nProd ∧
      match (mergeStep seqOf nProd s .next).2 with
      | .error fault => fault ≠ .outOfSpace
      | .ok after => s.merge.useBuf = true → after.merge.useBuf = false →
          ∀ idx ∈ Finset.range nProd, after.tsb.counts idx = 0

instance (seqOf : Tuple → Int) (nProd : Nat) (s : MergeState Tuple) :
    ∀ op : MergeOp, Decidable (op.Sound seqOf nProd s)
  | .receive _ | .setReady _ => inferInstanceAs (Decidable (_ < _))
  | .startBuffering | .startDraining => inferInstanceAs (Decidable True)
  | .next =>
    match ran : (mergeStep seqOf nProd s .next).2 with
    | .error fault => decidable_of_iff (0 < nProd ∧ fault ≠ .outOfSpace) (by
        simp [MergeOp.Sound, ran])
    | .ok after => decidable_of_iff (0 < nProd ∧ (s.merge.useBuf = true →
        after.merge.useBuf = false → ∀ idx ∈ Finset.range nProd, after.tsb.counts idx = 0)) (by
          simp [MergeOp.Sound, ran])

end TelegraphCQ.Flux
