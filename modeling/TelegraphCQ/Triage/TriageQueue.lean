import TelegraphCQ.Foundation.Machine
import TelegraphCQ.Window.Arithmetic

/-!
# The triage queue

A shed stream passes through a circular buffer (`triageq.c`).  Tuples leave it at the
front, either for the query processor or because they would be late, and are counted in
one of two summaries of the current epoch; the summaries are handed over when the epoch
is over.  Epochs are windows that follow each other without a gap.

Time is counted in microseconds.  A summary is the list of the tuples it has been given.
The buffer is memory, which an index outside of it addresses as well.
-/

namespace TelegraphCQ.Triage

open Foundation Window

/-- The parameters of `triage_create`, the setting
`load_shedding_disable_kept_summaries`, and how a tuple is read. -/
structure TriageConfig (Tuple : Type) where
  qlen : Int
  epochStart : Int
  epochLen : Int
  timeCstr : Int
  disableKeptSummaries : Bool
  nonFinite : Int → Int
  timestamp : Tuple → Int
  isPunct : Tuple → Bool

/-- A tuple of the stream, or a punctuation tuple that the queue has made itself. -/
inductive Queued (Tuple : Type) where
  | tuple (tup : Tuple)
  | punctuation (ts : Int)
  deriving DecidableEq, Repr

inductive TriageFault where
  | enqueuedForOtherWindow
  | dequeuedFromOtherWindow
  | droppedFromOtherWindow
  | summariesNotReady
  | nullTuple
  | endlessLoop
  deriving DecidableEq, Repr

structure TriageQueue (Tuple : Type) where
  haveTs : Bool
  buf : Int → Option (Queued Tuple)
  nelem : Int
  nextEnqueueIx : Int
  nextDequeueIx : Int
  dropSum : List (Queued Tuple)
  keepSum : List (Queued Tuple)
  epochnum : Int
  nextEpochIx : Int
  nsentThisEpoch : Int

structure SummaryTuples (Tuple : Type) where
  epochnum : Int
  epochstart : Int
  epochend : Int
  summary : List (Queued Tuple)
  deriving DecidableEq, Repr

def notAnIndex : Int := -1

def fullTimePerTup : Int := 1000

def shadowTime : Int := 10000

def aggTimePerTup : Int := 200

section Queue

variable {Tuple : Type} (config : TriageConfig Tuple)

def TriageConfig.epochs : WindowSpec :=
  ⟨config.epochStart, config.epochLen, config.epochLen⟩

def getTimestampVal : Queued Tuple → Int
  | .tuple tup => config.timestamp tup
  | .punctuation ts => ts

def heapTupleIsPunct : Queued Tuple → Bool
  | .tuple tup => config.isPunct tup
  | .punctuation _ => true

def windowNo (ts : Int) : Int := lastWindowNo config.nonFinite config.epochs ts

def simpleWindowEnd (epochnum : Int) : Int := windowEnd config.epochs epochnum

def simpleTsPastWindow (ts epochnum : Int) : Bool :=
  timestampPastWindow config.epochs ts epochnum

def nextIndex (prev : Int) : Int := (prev + 1).tmod config.qlen

def prevIndex (next : Int) : Int := (next - 1).tmod config.qlen

def indexDiff (first last : Int) : Int :=
  if first ≤ last then last - first else (config.qlen - first) + last

def triageCreate : TriageQueue Tuple where
  haveTs := false
  buf := fun _ => none
  nelem := 0
  nextEnqueueIx := 0
  nextDequeueIx := 0
  dropSum := []
  keepSum := []
  epochnum := 1
  nextEpochIx := notAnIndex
  nsentThisEpoch := 0

def numTupsFromCurEpoch (q : TriageQueue Tuple) : Int :=
  if q.nextEpochIx = notAnIndex then q.nelem
  else indexDiff config q.nextDequeueIx q.nextEpochIx

def triagePeek (q : TriageQueue Tuple) : Option (Queued Tuple) :=
  if q.nelem = 0 then none else q.buf q.nextDequeueIx

def dropOldest (q : TriageQueue Tuple) : Except TriageFault (TriageQueue Tuple) :=
  match triagePeek q with
  | none => .error .nullTuple
  | some oldest =>
    if windowNo config (getTimestampVal config oldest) ≠ q.epochnum then
      .error .droppedFromOtherWindow
    else
      .ok
        { q with
          dropSum := q.dropSum ++ [oldest]
          nextDequeueIx := nextIndex config q.nextDequeueIx
          nelem := q.nelem - 1 }

/-! ## Expiry -/

def tupCap (q : TriageQueue Tuple) (now : Int) : Int :=
  (config.timeCstr - shadowTime + (simpleWindowEnd config q.epochnum - now) -
    aggTimePerTup * q.nsentThisEpoch).tdiv fullTimePerTup - 1

def overflow (q : TriageQueue Tuple) (now : Int) : Int :=
  min (2 * (numTupsFromCurEpoch config q - tupCap config q now))
    (numTupsFromCurEpoch config q)

def dropExpired : Nat → TriageQueue Tuple → Except TriageFault (TriageQueue Tuple)
  | 0, q => .ok q
  | count + 1, q =>
    match triagePeek q with
    | none => .error .nullTuple
    | some oldest =>
      if heapTupleIsPunct config oldest then .ok q
      else do
        let q ← dropOldest config q
        dropExpired count q

/-- When the whole epoch has been dropped a punctuation tuple takes its place. -/
def punctuateEpoch (q : TriageQueue Tuple) : TriageQueue Tuple :=
  if numTupsFromCurEpoch config q = 0 ∧ 0 < q.nelem then
    { q with
      nextDequeueIx := prevIndex config q.nextDequeueIx
      buf := Function.update q.buf (prevIndex config q.nextDequeueIx)
        (some (.punctuation (simpleWindowEnd config q.epochnum - 1)))
      nelem := q.nelem + 1 }
  else q

def triageCleanupExpiredTuples (q : TriageQueue Tuple) (now : Int) :
    Except TriageFault (TriageQueue Tuple) :=
  if q.haveTs = false ∨ triagePeek q = none then .ok q
  else if 0 < overflow config q now then do
    let dropped ← dropExpired config (overflow config q now).toNat q
    .ok (punctuateEpoch config dropped)
  else .ok q

/-! ## Enqueueing and dequeueing -/

def checkEpoch (ts : Int) (q : TriageQueue Tuple) : Except TriageFault (TriageQueue Tuple) :=
  if q.nextEpochIx = notAnIndex then
    if simpleTsPastWindow config ts q.epochnum then
      .ok { q with nextEpochIx := q.nextEnqueueIx }
    else if windowNo config ts ≠ q.epochnum then .error .enqueuedForOtherWindow
    else .ok q
  else .ok q

def appendTuple (tup : Tuple) (q : TriageQueue Tuple) :
    Except TriageFault (TriageQueue Tuple) := do
  let q ← checkEpoch config (config.timestamp tup) q
  triageCleanupExpiredTuples config
    { q with
      buf := Function.update q.buf q.nextEnqueueIx (some (.tuple tup))
      nextEnqueueIx := nextIndex config q.nextEnqueueIx
      nelem := q.nelem + 1 }
    (config.timestamp tup)

def startEpoch (tup : Tuple) (q : TriageQueue Tuple) : TriageQueue Tuple :=
  if q.haveTs then q
  else { q with epochnum := windowNo config (config.timestamp tup), haveTs := true }

/-- A full queue drops its oldest tuple and calls itself again, and has room then. -/
def triageEnqueue (tup : Tuple) (q : TriageQueue Tuple) :
    Except TriageFault (TriageQueue Tuple) :=
  if (startEpoch config tup q).nelem = config.qlen then do
    let q ← dropOldest config (startEpoch config tup q)
    appendTuple config tup q
  else appendTuple config tup (startEpoch config tup q)

def triageDequeue (q : TriageQueue Tuple) :
    Except TriageFault (Option (Queued Tuple) × TriageQueue Tuple) :=
  if q.nelem = 0 then .ok (none, q)
  else
    match q.buf q.nextDequeueIx with
    | none => .error .nullTuple
    | some ret =>
      if windowNo config (getTimestampVal config ret) ≠ q.epochnum then
        .error .dequeuedFromOtherWindow
      else
        .ok (some ret,
          { q with
            nextDequeueIx := nextIndex config q.nextDequeueIx
            nelem := q.nelem - 1
            keepSum := if config.disableKeptSummaries then q.keepSum else q.keepSum ++ [ret]
            nsentThisEpoch := q.nsentThisEpoch + 1 })

/-! ## Summaries -/

def getSynopsis (q : TriageQueue Tuple) (summary : List (Queued Tuple)) :
    SummaryTuples Tuple where
  epochnum := q.epochnum
  epochstart := simpleWindowEnd config (q.epochnum - 1)
  epochend := simpleWindowEnd config q.epochnum
  summary := summary

/-- The loop that looks for the first tuple past the new epoch; it passes no index
twice. -/
def advanceNextEpoch (q : TriageQueue Tuple) : Nat → Int → Except TriageFault Int
  | 0, _ => .error .endlessLoop
  | rounds + 1, index =>
    if index = q.nextEnqueueIx then .ok index
    else
      match q.buf index with
      | none => .error .nullTuple
      | some tup =>
        if simpleTsPastWindow config (getTimestampVal config tup) q.epochnum then
          .ok index
        else advanceNextEpoch q rounds (nextIndex config index)

def findNextEpoch (q : TriageQueue Tuple) : Except TriageFault (TriageQueue Tuple) :=
  if q.nelem = 0 then .ok { q with nextEpochIx := notAnIndex }
  else if q.nextEpochIx ≠ q.nextDequeueIx then .error .summariesNotReady
  else do
    let index ← advanceNextEpoch config q (config.qlen.toNat + 1) q.nextEpochIx
    .ok { q with nextEpochIx := if index = q.nextEnqueueIx then notAnIndex else index }

def triageGetSummaries (q : TriageQueue Tuple) :
    Except TriageFault ((SummaryTuples Tuple × SummaryTuples Tuple) × TriageQueue Tuple) :=
  if ¬ (q.nextDequeueIx = q.nextEpochIx ∨ q.nelem = 0) then .error .summariesNotReady
  else do
    let next ← findNextEpoch config
      { q with keepSum := [], dropSum := [], epochnum := q.epochnum + 1 }
    .ok ((getSynopsis config q q.keepSum, getSynopsis config q q.dropSum),
      { next with nsentThisEpoch := 0 })

/-! ## Runs -/

inductive TriageOp (Tuple : Type) where
  | enqueue (tup : Tuple)
  | dequeue
  | cleanup (now : Int)
  | getSummaries
  deriving DecidableEq, Repr

inductive TriageOut (Tuple : Type) where
  | returned (item : Option (Queued Tuple))
  | summaries (kept dropped : SummaryTuples Tuple)
  deriving DecidableEq, Repr

def triageStep (q : TriageQueue Tuple) :
    TriageOp Tuple → List (TriageOut Tuple) × Except TriageFault (TriageQueue Tuple)
  | .enqueue tup => ([], triageEnqueue config tup q)
  | .dequeue =>
    match triageDequeue config q with
    | .error fault => ([], .error fault)
    | .ok (item, next) => ([.returned item], .ok next)
  | .cleanup now => ([], triageCleanupExpiredTuples config q now)
  | .getSummaries =>
    match triageGetSummaries config q with
    | .error fault => ([], .error fault)
    | .ok ((kept, dropped), next) => ([.summaries kept dropped], .ok next)

def triageMachine :
    Machine (TriageQueue Tuple) (TriageOp Tuple) (TriageOut Tuple) TriageFault where
  step := triageStep config

end Queue

end TelegraphCQ.Triage
