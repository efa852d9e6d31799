import TelegraphCQ.Wrapper.CsvFields

/-!
# Whether timestamps are made

The first tuple is to decide whether a wrapper makes the timestamps of its tuples.  A first
tuple without a timestamp does.  One that has a timestamp changes nothing, so that the next
tuple decides again: neither `csv_next` nor `strToTuple` (`nodeScanSock.c`) ever stops to
make timestamps after a tuple without one.
-/

namespace TelegraphCQ.Wrapper

open Foundation CString

/-- `none` until the first tuple, then whether that one had a timestamp. -/
abbrev FirstTuple := Option Bool

section Csv

variable {Datum : Type} (config : CsvConfig Datum)

def lineRow (tuplesize : Nat) (state : CsvState) : Option (List (Column Datum)) :=
  let tupleend := state.readidx + tuplesize
  let buf := state.buf.set tupleend nul
  let line := content (buf.drop state.readidx)
  if sameStart config.errorIndicator.length line config.errorIndicator ∨
      sameStart config.doneIndicator.length line config.doneIndicator then none
  else some (padRow config
    (readColumns config state.probe tupleend tuplesize buf state.readidx []).2)

def rowTaken (state : CsvState) : CsvOp → Option (List (Column Datum))
  | .timeoutExpired => none
  | .next connectionReady =>
    let read := connectionReady.elim state fun ready => readMore config ready state
    if state.modeDone ∨ read.modeDone ∨ read.hasBufferedData = false then none
    else
      (strchr newline (read.buf.drop read.readidx)).bind fun tuplesize =>
        if read.readidx + tuplesize ≤ read.writeidx then lineRow config tuplesize read else none

def modeMachine : Machine (CsvState × FirstTuple) CsvOp (CsvOut Datum) CsvFault where
  step state op :=
    let stepped := (csvMachine config).step state.1 op
    (stepped.1, stepped.2.map fun next =>
      (next, state.2 <|> (rowTaken config state.1 op).map tupleHasTimestamp))

def ObeysFirst (state : CsvState × FirstTuple) (op : CsvOp) : Prop :=
  ∀ row ∈ rowTaken config state.1 op,
    let carries := state.2.getD (tupleHasTimestamp row)
    let stepped := (csvMachine config).step state.1 op
    if tupleHasTimestamp row = carries then
      stepped.1 = [.tuple (if carries then row else genTimestampField config row)] ∧
        ∃ next, stepped.2 = .ok next
    else ∃ fault, stepped.2 = .error fault

/-- After a first tuple with a timestamp every tuple has one. -/
def AgreesWithFirst (state : CsvState × FirstTuple) (op : CsvOp) : Prop :=
  state.2 = some true → ∀ row ∈ rowTaken config state.1 op, tupleHasTimestamp row = true

def modeOf (first : FirstTuple) : TsState := if first = some false then .generating else .dontKnow

variable {config} {state next : CsvState}

theorem tsState_readMore (ready : Nat) (state : CsvState) :
    (readMore config ready state).tsState = state.tsState := by
  unfold readMore readBytes compactBuffer
  split_ifs <;> rfl

theorem tsState_settle (state : CsvState) : (settle state).tsState = state.tsState := by
  unfold settle
  split_ifs <;> rfl

theorem takeTuple_row (state : CsvState) :
    match (strchr newline (state.buf.drop state.readidx)).bind fun tuplesize =>
        if state.readidx + tuplesize ≤ state.writeidx then lineRow config tuplesize state
        else none with
    | none => ∀ next, (takeTuple config state).2 = .ok next → next.tsState = state.tsState
    | some row =>
      match stampRow config state.tsState row with
      | .error fault => takeTuple config state = ([], .error fault)
      | .ok stamped => ∃ next, takeTuple config state = ([.tuple stamped], .ok next) ∧
          next.tsState = nextTsState state.tsState row := by
  unfold takeTuple
  cases strchr newline (state.buf.drop state.readidx) with
  | none =>
    rintro next ⟨⟩
    exact tsState_settle state
  | some tuplesize =>
    by_cases inside : state.readidx + tuplesize ≤ state.writeidx
    · simp only [Option.bind_some, inside, if_true, lineRow, takeLine]
      by_cases isError : sameStart config.errorIndicator.length
          (content ((state.buf.set (state.readidx + tuplesize) nul).drop state.readidx))
          config.errorIndicator
      · simp [isError]
      by_cases isDone : sameStart config.doneIndicator.length
          (content ((state.buf.set (state.readidx + tuplesize) nul).drop state.readidx))
          config.doneIndicator
      · simp [isError, isDone]
      simp only [isError, isDone, Bool.false_eq_true, or_self, if_false]
      split
      · next fault refused => simp [refused]
      · next stamped isStamped =>
        simp only [isStamped]
        exact ⟨_, rfl, tsState_settle _⟩
    · simp only [Option.bind_some, inside, if_false]
      rintro next ⟨⟩
      exact tsState_settle state

theorem csvStep_row (op : CsvOp) : match rowTaken config state op with
    | none => ∀ next, ((csvMachine config).step state op).2 = .ok next →
        next.tsState = state.tsState
    | some row =>
      match stampRow config state.tsState row with
      | .error fault => (csvMachine config).step state op = ([], .error fault)
      | .ok stamped => ∃ next, (csvMachine config).step state op = ([.tuple stamped], .ok next) ∧
          next.tsState = nextTsState state.tsState row := by
  by_cases isDone : state.modeDone = true
  · have none : rowTaken config state op = none := by
      cases op <;> simp [rowTaken, isDone]
    rw [none]
    simp [csvMachine, isDone]
  cases op with
  | timeoutExpired =>
    simp only [rowTaken, csvMachine, isDone, csvNext, Bool.false_eq_true, if_false]
    split_ifs <;> simp
  | next ready =>
    have same : (ready.elim state fun ready => readMore config ready state).tsState =
        state.tsState := by
      cases ready with
      | none => rfl
      | some ready => exact tsState_readMore ready state
    simp only [rowTaken, csvMachine, isDone, csvNext, Bool.false_eq_true, if_false, false_or]
    rw [← same]
    generalize ready.elim state _ = read at same ⊢
    by_cases readDone : read.modeDone = true
    · simp [readDone]
    by_cases buffered : read.hasBufferedData = true
    · simp only [readDone, buffered, Bool.false_eq_true, Bool.true_eq_false, or_self, if_false,
        if_true]
      exact takeTuple_row read
    · simp [readDone, buffered, tsState_settle]

theorem obeysFirst_iff {first : FirstTuple} (op : CsvOp) (mode : state.tsState = modeOf first) :
    ObeysFirst config (state, first) op ↔ AgreesWithFirst config (state, first) op := by
  have stepped := @csvStep_row _ config state op
  unfold ObeysFirst AgreesWithFirst
  cases taken : rowTaken config state op with
  | none => simp
  | some row =>
    rw [taken] at stepped
    cases has : tupleHasTimestamp row with
    | true =>
      rcases first with - | - | - <;>
        simp only [mode, modeOf, stampRow, nextTsState, has, reduceCtorEq, Option.some.injEq,
          Bool.true_eq_false, and_false, if_true, if_false] at stepped
      · obtain ⟨next, ran, -⟩ := stepped
        simp [has, ran]
      · simp [has, stepped]
      · obtain ⟨next, ran, -⟩ := stepped
        simp [has, ran]
    | false =>
      rcases first with - | - | - <;>
        simp only [mode, modeOf, stampRow, nextTsState, has, reduceCtorEq, Option.some.injEq,
          Bool.true_eq_false, Bool.false_eq_true, and_self, false_and, if_true, if_false] at stepped
      all_goals
        obtain ⟨next, ran, -⟩ := stepped
        simp [has, ran]

theorem modeStep_mode {first later : FirstTuple} (op : CsvOp) (mode : state.tsState = modeOf first)
    (agrees : AgreesWithFirst config (state, first) op)
    (ran : ((modeMachine config).step (state, first) op).2 = .ok (next, later)) :
    next.tsState = modeOf later := by
  have stepped := @csvStep_row _ config state op
  have reached : ((csvMachine config).step state op).2 = .ok next ∧
      later = (first <|> (rowTaken config state op).map tupleHasTimestamp) := by
    simp only [modeMachine] at ran
    cases result : ((csvMachine config).step state op).2 with
    | error fault => simp [result, Except.map] at ran
    | ok reached =>
      simp only [result, Except.map, Except.ok.injEq, Prod.mk.injEq] at ran
      exact ⟨by rw [ran.1], ran.2.symm⟩
  obtain ⟨reached, rfl⟩ := reached
  cases taken : rowTaken config state op with
  | none =>
    rw [taken] at stepped
    rw [stepped next reached, mode]
    simp
  | some row =>
    have agrees := fun isTrue => agrees isTrue row taken
    rw [taken] at stepped
    cases stamped : stampRow config state.tsState row with
    | error fault =>
      simp only [stamped] at stepped
      rw [stepped] at reached
      cases reached
    | ok stampedRow =>
      simp only [stamped] at stepped
      obtain ⟨other, ran, tsState⟩ := stepped
      rw [ran] at reached
      cases reached
      rw [tsState, mode]
      rcases first with - | - | -
      · cases has : tupleHasTimestamp row <;> simp [nextTsState, modeOf, has]
      · simp [nextTsState, modeOf]
      · simp [nextTsState, modeOf, agrees]

end Csv

/-! ## Lines of a socket -/

inductive SockFault where
  | tooManyColumns
  | explicitTimestamp
  | wrongNumberOfFields
  deriving DecidableEq, Repr

section Sock

variable (nattrs : Nat)

/-- What a line with a number of commas does to `generating_timestamps`, which is also whether
a timestamp is made for its tuple. -/
def strToTuple (generating : Bool) (commas : Nat) : Except SockFault Bool :=
  if 0 < commas ∧ nattrs < commas + 1 then .error .tooManyColumns
  else
    let generating := generating || decide (commas + 2 = nattrs)
    if generating ∧ commas + 1 = nattrs then .error .explicitTimestamp
    else if commas + 1 + generating.toNat = nattrs then .ok generating
    else .error .wrongNumberOfFields

def sockMachine : Machine (Bool × FirstTuple) Nat Unit SockFault where
  step state commas := ([], (strToTuple nattrs state.1 commas).map fun generating =>
    (generating, state.2 <|> some (decide (commas + 1 = nattrs))))

/-- Lines with another number of columns are refused anyway. -/
def SockObeysFirst (state : Bool × FirstTuple) (commas : Nat) : Prop :=
  commas + 1 = nattrs ∨ commas + 2 = nattrs →
    let carries := state.2.getD (decide (commas + 1 = nattrs))
    if decide (commas + 1 = nattrs) = carries then
      strToTuple nattrs state.1 commas = .ok (!carries)
    else ∃ fault, strToTuple nattrs state.1 commas = .error fault

def SockAgreesWithFirst (state : Bool × FirstTuple) (commas : Nat) : Prop :=
  state.2 = some true → commas + 2 ≠ nattrs

variable {nattrs}

theorem sockObeysFirst_iff (state : Bool × FirstTuple) (commas : Nat)
    (mode : state.1 = decide (state.2 = some false)) :
    SockObeysFirst nattrs state commas ↔ SockAgreesWithFirst nattrs state commas := by
  obtain ⟨generating, first⟩ := state
  obtain rfl : generating = decide (first = some false) := mode
  by_cases has : commas + 1 = nattrs
  · have apart : commas + 2 ≠ nattrs := by omega
    rcases first with - | - | - <;>
      simp [SockObeysFirst, SockAgreesWithFirst, strToTuple, has, apart]
  · by_cases hasNone : commas + 2 = nattrs
    · have few : ¬ nattrs < commas + 1 := by omega
      rcases first with - | - | - <;>
        simp [SockObeysFirst, SockAgreesWithFirst, strToTuple, has, hasNone, few]
    · simp [SockObeysFirst, SockAgreesWithFirst, has, hasNone]

theorem sockStep_mode (state : Bool × FirstTuple) (commas : Nat) (next : Bool × FirstTuple)
    (mode : state.1 = decide (state.2 = some false))
    (agrees : SockAgreesWithFirst nattrs state commas)
    (ran : ((sockMachine nattrs).step state commas).2 = .ok next) :
    next.1 = decide (next.2 = some false) := by
  obtain ⟨generating, first⟩ := state
  obtain rfl : generating = decide (first = some false) := mode
  simp only [sockMachine, strToTuple] at ran
  split_ifs at ran with many explicit whole
  · cases ran
  · cases ran
  · cases ran
    rcases first with - | - | -
    · by_cases hasNone : commas + 2 = nattrs
      · have has : commas + 1 ≠ nattrs := by omega
        simp [hasNone, has]
      · have has : commas + 1 = nattrs := by simpa [hasNone] using whole
        simp [hasNone, has]
    · simp
    · simpa using agrees rfl
  · cases ran

end Sock

/-- The first tuple decides for the whole run exactly if, when it has a timestamp, no later
tuple is without one; so it is for the lines of a file and for those of a socket. -/
theorem mode_fixed_by_first_iff {Datum : Type} (config : CsvConfig Datum) (stream : List Byte)
    (ops : List CsvOp) (nattrs : Nat) (lines : List Nat) :
    ((modeMachine config).Guarded (ObeysFirst config) (csvInit config stream, none) ops ↔
      (modeMachine config).Guarded (AgreesWithFirst config) (csvInit config stream, none) ops) ∧
    ((sockMachine nattrs).Guarded (SockObeysFirst nattrs) (false, none) lines ↔
      (sockMachine nattrs).Guarded (SockAgreesWithFirst nattrs) (false, none) lines) := by
  have agree : ∀ (state : CsvState × FirstTuple) op, state.1.tsState = modeOf state.2 →
      (ObeysFirst config state op ↔ AgreesWithFirst config state op) :=
    fun state op => obeysFirst_iff op
  have kept : ∀ state op next, state.1.tsState = modeOf state.2 →
      AgreesWithFirst config state op → ((modeMachine config).step state op).2 = .ok next →
      next.1.tsState = modeOf next.2 := fun state op next => modeStep_mode op
  exact ⟨(modeMachine config).guarded_congr agree kept rfl ops,
    (sockMachine nattrs).guarded_congr sockObeysFirst_iff sockStep_mode rfl lines⟩

/-- The first line has a timestamp, and for the second one a timestamp is made nevertheless;
then the third one is refused because it has one. -/
theorem second_tuple_decides :
    (csvMachine twoColumns).run
        (csvInit twoColumns [97, 59, 116, newline, 98, newline, 99, 59, 117, newline])
        [.next (some 12), .next none, .next none] =
      ([.tuple [⟨some (.given [97]), false⟩, ⟨some (.given [116]), false⟩],
        .tuple [⟨some (.given [98]), false⟩, ⟨some .timeofday, false⟩]],
        .error .explicitTimestamp) := by
  decide +kernel

end TelegraphCQ.Wrapper
