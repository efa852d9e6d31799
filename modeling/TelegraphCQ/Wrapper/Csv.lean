import TelegraphCQ.Foundation.CString
import TelegraphCQ.Foundation.Machine

/-!
# The CSV wrapper

`csv.c` reads a stream of lines into one buffer and takes a line out of it at each call.
Delimiters are overwritten with NUL bytes in place; what was consumed is moved out of the
buffer when it is nearly full.

The operating system decides how many bytes a read gives.  Types are read by functions of
the database, so the datum that a text gives is a parameter.  A timestamp that the wrapper
makes itself is not told apart from another one.
-/

namespace TelegraphCQ.Wrapper

open Foundation CString

def newline : Byte := 10

def carriageReturn : Byte := 13

def blank : Byte := 32

def filler : Byte := 84

inductive TsState where
  | dontKnow
  | generating
  | notGenerating
  deriving DecidableEq, Repr

inductive Value (Datum : Type) where
  | given (datum : Datum)
  | timeofday
  deriving DecidableEq, Repr

/-- An entry of `returnTuple`, which may be a null pointer, and of `returnTupleIsNull`. -/
structure Column (Datum : Type) where
  datum : Option (Value Datum)
  isNull : Bool
  deriving DecidableEq, Repr

def Column.null {Datum : Type} : Column Datum := ⟨none, true⟩

/-- A column of a probe may have a binding, by the number of the probe and of the column
(from one). -/
structure CsvConfig (Datum : Type) where
  bufsize : Nat
  returnTupleLength : Nat
  columnDelimiters : Nat → Option (List Byte)
  defaultDelimiters : List Byte
  errorIndicator : List Byte
  doneIndicator : List Byte
  getBindingValueByStreamCol : Nat → Nat → Option (List Byte)
  datumFromTypeInstance : Nat → List Byte → Option Datum × Bool

/-- The wrapper's state with what the operating system has yet to deliver.  `awaitsTimeout`
is that `wakeup_time` is set, `probe` the number of probes that are done. -/
structure CsvState where
  buf : List Byte
  readidx : Nat
  writeidx : Nat
  hasBufferedData : Bool
  tsState : TsState
  awaitsTimeout : Bool
  probe : Nat
  modeDone : Bool
  unread : List Byte
  deriving DecidableEq, Repr

inductive CsvFault where
  | errorMessage (text : List Byte)
  | explicitTimestamp
  | noTimestamp
  deriving DecidableEq, Repr

inductive CsvOut (Datum : Type) where
  | tuple (row : List (Column Datum))
  | punctuation
  | doneWithProbe
  deriving DecidableEq, Repr

/-- A call of `csv_next`: because a timeout expired, or with the number of bytes that the
operating system is ready to deliver. -/
inductive CsvOp where
  | timeoutExpired
  | next (connectionReady : Option Nat)
  deriving DecidableEq, Repr

section Model

variable {Datum : Type} (config : CsvConfig Datum)

def csvInit (stream : List Byte) : CsvState where
  buf := List.replicate config.bufsize filler ++ [nul]
  readidx := 0
  writeidx := 0
  hasBufferedData := false
  tsState := .dontKnow
  awaitsTimeout := false
  probe := 0
  modeDone := false
  unread := stream

/-! ## Reading -/

def compactBuffer (state : CsvState) : CsvState :=
  let left := state.writeidx - state.readidx
  { state with
    buf := (state.buf.drop state.readidx).take left ++
      List.replicate (config.bufsize - left) filler ++ state.buf.drop config.bufsize
    writeidx := left
    readidx := 0 }

def overwrite (memory : List Byte) (index : Nat) (bytes : List Byte) : List Byte :=
  memory.take index ++ bytes ++ memory.drop (index + bytes.length)

/-- A read of at most the given number of bytes, unless the buffer is full.  A read that
gives no bytes is the end of the stream or, if there is more to come, `EAGAIN`. -/
def readBytes (ready : Nat) (state : CsvState) : CsvState :=
  if state.writeidx = config.bufsize then state
  else if state.unread.isEmpty && !state.hasBufferedData then { state with modeDone := true }
  else
    let bread := state.unread.take (min ready (config.bufsize - state.writeidx))
    { state with
      buf := overwrite state.buf state.writeidx bread
      writeidx := state.writeidx + bread.length
      hasBufferedData := state.hasBufferedData || !bread.isEmpty
      unread := state.unread.drop bread.length }

def readMore (ready : Nat) (state : CsvState) : CsvState :=
  readBytes config ready
    (if config.bufsize < state.writeidx + 50 then compactBuffer config state else state)

/-! ## One line -/

def delimiters (col : Nat) : List Byte :=
  (config.columnDelimiters col).getD config.defaultDelimiters

def readColumn (col : Nat) (text : List Byte) : Column Datum :=
  let read := config.datumFromTypeInstance (col + 1) text
  ⟨read.1.map .given, read.2⟩

/-- A binding that the line does not echo becomes a column of its own. -/
def echoBinding (probe : Nat) (row : List (Column Datum)) (text : List Byte) :
    List (Column Datum) :=
  match config.getBindingValueByStreamCol probe (row.length + 1) with
  | none => row
  | some bindingval =>
    if sameIgnoringCase text bindingval then row
    else row ++ [readColumn config row.length bindingval]

/-- The loop over the columns, which ends their texts in the buffer. -/
def readColumns (probe tupleend : Nat) :
    Nat → List Byte → Nat → List (Column Datum) → List Byte × List (Column Datum)
  | 0, buf, _, row => (buf, row)
  | fuel + 1, buf, colbegin, row =>
    if ¬ colbegin < tupleend then (buf, row)
    else if config.returnTupleLength ≤ row.length then (buf, row)
    else
      let spanSize := strcspn (delimiters config row.length) (buf.drop colbegin)
      if spanSize = 0 then
        readColumns probe tupleend fuel buf (colbegin + 1) (row ++ [.null])
      else
        let colend := colbegin + spanSize
        let buf := buf.set colend nul
        let buf :=
          buf.take colbegin ++ replaceAll carriageReturn blank (buf.drop colbegin)
        let text := content (buf.drop colbegin)
        let row := echoBinding config probe row text
        if row.length = config.returnTupleLength then (buf, row)
        else
          readColumns probe tupleend fuel buf (colend + 1)
            (row ++ [readColumn config row.length text])

def padRow (row : List (Column Datum)) : List (Column Datum) :=
  row ++ List.replicate (config.returnTupleLength - row.length) .null

def tupleHasTimestamp (row : List (Column Datum)) : Bool :=
  row.getLast?.any fun column => column.datum.isSome

def genTimestampField (row : List (Column Datum)) : List (Column Datum) :=
  row.set (config.returnTupleLength - 1) ⟨some .timeofday, false⟩

/-- The wrapper makes timestamps from the first tuple on that has none. -/
def nextTsState (tsState : TsState) (row : List (Column Datum)) : TsState :=
  if tsState = .dontKnow ∧ tupleHasTimestamp row = false then .generating else tsState

def stampRow (tsState : TsState) (row : List (Column Datum)) :
    Except CsvFault (List (Column Datum)) :=
  if nextTsState tsState row = .generating then
    if tupleHasTimestamp row then .error .explicitTimestamp
    else .ok (genTimestampField config row)
  else if tupleHasTimestamp row then .ok row
  else .error .noTimestamp

def skipLineEnds (buf : List Byte) (writeidx : Nat) : Nat → Nat → Nat
  | 0, readidx => readidx
  | fuel + 1, readidx =>
    if readidx < writeidx ∧ (buf.getD readidx filler = newline ∨ buf.getD readidx filler = nul)
    then skipLineEnds buf writeidx fuel (readidx + 1)
    else readidx

def settle (state : CsvState) : CsvState :=
  if state.readidx = state.writeidx then { state with hasBufferedData := false } else state

def takeLine (tuplesize : Nat) (state : CsvState) :
    List (CsvOut Datum) × Except CsvFault CsvState :=
  let tupleend := state.readidx + tuplesize
  let buf := state.buf.set tupleend nul
  let line := content (buf.drop state.readidx)
  if sameStart config.errorIndicator.length line config.errorIndicator then
    ([], .error (.errorMessage line))
  else if sameStart config.doneIndicator.length line config.doneIndicator then
    ([.doneWithProbe],
      .ok { state with buf, readidx := tupleend + 1, probe := state.probe + 1 })
  else
    let columns := readColumns config state.probe tupleend tuplesize buf state.readidx []
    let row := padRow config columns.2
    match stampRow config state.tsState row with
    | .error fault => ([], .error fault)
    | .ok stamped =>
      ([.tuple stamped],
        .ok (settle
          { state with
            buf := columns.1
            tsState := nextTsState state.tsState row
            awaitsTimeout := state.awaitsTimeout ||
              decide (nextTsState state.tsState row ≠ state.tsState)
            readidx := skipLineEnds columns.1 state.writeidx state.writeidx (tupleend + 1) }))

/-! ## Calls -/

def takeTuple (state : CsvState) : List (CsvOut Datum) × Except CsvFault CsvState :=
  match strchr newline (state.buf.drop state.readidx) with
  | none => ([], .ok (settle state))
  | some tuplesize =>
    if state.readidx + tuplesize ≤ state.writeidx then takeLine config tuplesize state
    else ([], .ok (settle state))

def csvNext (state : CsvState) : CsvOp → List (CsvOut Datum) × Except CsvFault CsvState
  | .timeoutExpired => if state.awaitsTimeout then ([.punctuation], .ok state) else ([], .ok state)
  | .next connectionReady =>
    let state := connectionReady.elim state fun ready => readMore config ready state
    if state.modeDone then ([], .ok state)
    else if state.hasBufferedData then takeTuple config state
    else ([], .ok (settle state))

/-- A wrapper that is done is not called again. -/
def csvMachine : Machine CsvState CsvOp (CsvOut Datum) CsvFault where
  step state op := if state.modeDone then ([], .ok state) else csvNext config state op

end Model

end TelegraphCQ.Wrapper
