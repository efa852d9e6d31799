import TelegraphCQ.Triage.Conservation

/-!
# The driver of a shed stream

The wrapper clearinghouse (`wrapch.c`) feeds the tuples of a stream to its triage queue
and, between tuples, hands over what is in the queue.  Either way it looks whether the
summaries of the current epoch are ready and sends them first, once.  The first tuple
fixes where epochs start.

A service call is given a clock reading, and whether the query engine takes a tuple.
-/

namespace TelegraphCQ.Triage

open Foundation Window

/-- The setting `load_shedding_first_window_start`, if it is not "none", and the time that
windows are rounded to otherwise. -/
structure FirstWindow where
  loadSheddingFirstWindowStart : Option Int
  unixEpoch : Int
  deriving DecidableEq, Repr

def roundTimestamp (unixEpoch ts win : Int) : Int :=
  if win = 0 then ts else unixEpoch + win * (ts - unixEpoch).tdiv win

structure Wrapch (Tuple : Type) where
  triageSummaryWindowStart : Option Int
  triageq : TriageQueue Tuple

inductive WrapchOp (Tuple : Type) where
  | tuple (tup : Tuple)
  | service (now : Int) (accepted : Bool)
  deriving DecidableEq, Repr

section Driver

variable {Tuple : Type}

def TriageConfig.startingAt (config : TriageConfig Tuple) (start : Int) :
    TriageConfig Tuple :=
  { config with epochStart := start }

def FirstWindow.start (first : FirstWindow) (config : TriageConfig Tuple) (tup : Tuple) : Int :=
  match first.loadSheddingFirstWindowStart with
  | none => roundTimestamp first.unixEpoch (config.timestamp tup) config.epochLen
  | some start => start

variable (config : TriageConfig Tuple)

def triageSummariesReady (q : TriageQueue Tuple) (now : Int) : Bool :=
  decide (q.nextDequeueIx = q.nextEpochIx) ||
    decide (q.nelem = 0) && decide (q.epochnum < windowNo config now)

def sendLossSummaries (q : TriageQueue Tuple) (now : Int) :
    List (TriageOut Tuple) × Except TriageFault (TriageQueue Tuple) :=
  if triageSummariesReady config q now then triageStep config q .getSummaries
  else ([], .ok q)

def processTupleUnarchivedDrop (tup : Tuple) (q : TriageQueue Tuple) :
    List (TriageOut Tuple) × Except TriageFault (TriageQueue Tuple) :=
  match sendLossSummaries config q (config.timestamp tup) with
  | (outs, .error fault) => (outs, .error fault)
  | (outs, .ok q) => (outs, triageEnqueue config tup q)

def offerNext (accepted : Bool) (q : TriageQueue Tuple) :
    List (TriageOut Tuple) × Except TriageFault (TriageQueue Tuple) :=
  if (triagePeek q).isSome && accepted then triageStep config q .dequeue else ([], .ok q)

def serviceTriageQueue (now : Int) (accepted : Bool) (q : TriageQueue Tuple) :
    List (TriageOut Tuple) × Except TriageFault (TriageQueue Tuple) :=
  match triageCleanupExpiredTuples config q now with
  | .error fault => ([], .error fault)
  | .ok q =>
    match sendLossSummaries config q now with
    | (outs, .error fault) => (outs, .error fault)
    | (outs, .ok q) =>
      (outs ++ (offerNext config accepted q).1, (offerNext config accepted q).2)

/-- Without a start of the epochs there is nothing to service. -/
def wrapchStep (first : FirstWindow) (state : Wrapch Tuple) :
    WrapchOp Tuple → List (TriageOut Tuple) × Except TriageFault (Wrapch Tuple)
  | .tuple tup =>
    let start := state.triageSummaryWindowStart.getD (first.start config tup)
    let result :=
      processTupleUnarchivedDrop (config.startingAt start) tup state.triageq
    (result.1, result.2.map (Wrapch.mk (some start)))
  | .service now accepted =>
    match state.triageSummaryWindowStart with
    | none => ([], .ok state)
    | some start =>
      let result :=
        serviceTriageQueue (config.startingAt start) now accepted state.triageq
      (result.1, result.2.map (Wrapch.mk (some start)))

def wrapchMachine (first : FirstWindow) :
    Machine (Wrapch Tuple) (WrapchOp Tuple) (TriageOut Tuple) TriageFault where
  step := wrapchStep config first

def wrapchStart : Wrapch Tuple := ⟨none, triageCreate⟩

end Driver

end TelegraphCQ.Triage
