import TelegraphCQ.Wrapper.CsvBuffer

/-!
# The fields of a line

A line is split from left to right, each field ending at the first character of its column's
delimiters.  The loop of `csv_next` over the columns computes this split in the buffer.
-/

namespace TelegraphCQ.Wrapper

open Foundation CString List

/-! ## Splitting -/

def splitFields (delims : Nat → List Byte) : Nat → List Byte → List (List Byte)
  | _, [] => [[]]
  | col, byte :: rest =>
    if byte ∈ delims col then [] :: splitFields delims (col + 1) rest
    else
      match splitFields delims col rest with
      | [] => [[byte]]
      | field :: fields => (byte :: field) :: fields

section Split

variable {delims : Nat → List Byte} {col : Nat} {text : List Byte}

theorem splitFields_last (free : ∀ byte ∈ text, byte ∉ delims col) :
    splitFields delims col text = [text] := by
  induction text with
  | nil => rfl
  | cons byte text ih =>
    have rest := ih fun other member => free other (mem_cons_of_mem _ member)
    simp [splitFields, free byte mem_cons_self, rest]

theorem splitFields_delimiter (free : ∀ byte ∈ text, byte ∉ delims col) {delimiter : Byte}
    (ends : delimiter ∈ delims col) (more : List Byte) :
    splitFields delims col (text ++ delimiter :: more) =
      text :: splitFields delims (col + 1) more := by
  induction text with
  | nil => simp [splitFields, ends]
  | cons byte text ih =>
    have rest := ih fun other member => free other (mem_cons_of_mem _ member)
    simp [splitFields, free byte mem_cons_self, rest]

end Split

section Row

variable {Datum : Type} (config : CsvConfig Datum)

def fieldColumn (col : Nat) (field : List Byte) : Column Datum :=
  if field = [] then .null else readColumn config col (shown field)

def fieldColumns : Nat → Nat → List (List Byte) → List (Column Datum)
  | _, 0, _ => []
  | col, columns + 1, [] => .null :: fieldColumns (col + 1) columns []
  | col, columns + 1, field :: fields =>
    fieldColumn config col field :: fieldColumns (col + 1) columns fields

def splitRow (line : List Byte) : List (Column Datum) :=
  fieldColumns config 0 config.returnTupleLength (splitFields (delimiters config) 0 line)

variable {config}

theorem fieldColumns_nil (col columns : Nat) :
    fieldColumns config col columns [] = List.replicate columns .null := by
  induction columns generalizing col with
  | zero => rfl
  | succ columns ih => rw [fieldColumns, ih, replicate_succ]

theorem fieldColumns_empty (col columns : Nat) :
    fieldColumns config col columns [[]] = List.replicate columns .null := by
  cases columns with
  | zero => rfl
  | succ columns =>
    rw [fieldColumns, fieldColumns_nil, fieldColumn, if_pos rfl, replicate_succ]

variable {probe fuel : Nat} {row : List (Column Datum)}

theorem lineColumns_field {text : List Byte}
    (noBinding : ∀ col, config.getBindingValueByStreamCol probe col = none)
    (short : row.length < config.returnTupleLength) (rest : List Byte) (notEnd : rest ≠ [])
    (isText : (rest.takeWhile fun byte => byte ∉ delimiters config row.length) = text) :
    lineColumns config probe (fuel + 1) rest row =
      lineColumns config probe fuel (rest.drop (text.length + 1))
        (row ++ [fieldColumn config row.length text]) := by
  have echo : ∀ shownText, echoBinding config probe row shownText = row := by
    intro shownText
    rw [echoBinding, noBinding]
  rw [lineColumns, if_neg (by simpa using notEnd), if_neg (by omega)]
  simp only [isText, echo]
  by_cases empty : text = []
  · rw [if_pos (by simpa using empty), fieldColumn, if_pos empty, empty, length_nil, drop_one]
  · rw [if_neg (by simpa using empty), if_neg (by omega), fieldColumn, if_neg empty]

theorem padRow_lineColumns {rest : List Byte}
    (noBinding : ∀ col, config.getBindingValueByStreamCol probe col = none)
    (enough : rest.length ≤ fuel) (fits : row.length ≤ config.returnTupleLength) :
    padRow config (lineColumns config probe fuel rest row) =
      row ++ fieldColumns config row.length (config.returnTupleLength - row.length)
        (splitFields (delimiters config) row.length rest) := by
  induction fuel generalizing rest row with
  | zero =>
    obtain rfl := eq_nil_of_length_eq_zero (Nat.le_zero.mp enough)
    rw [lineColumns_nil, splitFields, fieldColumns_empty, padRow]
  | succ fuel ih =>
    by_cases notEnd : rest = []
    · rw [notEnd, lineColumns_nil, splitFields, fieldColumns_empty, padRow]
    by_cases full : config.returnTupleLength ≤ row.length
    · rw [lineColumns, if_neg (by simpa using notEnd), if_pos full, padRow,
        Nat.sub_eq_zero_of_le full, replicate_zero, fieldColumns]
    generalize isText : (rest.takeWhile fun byte => byte ∉ delimiters config row.length) = text
    have free : ∀ byte ∈ text, byte ∉ delimiters config row.length := by
      intro byte member
      rw [← isText] at member
      simpa using mem_takeWhile_imp member
    obtain ⟨columns, left⟩ : ∃ columns, config.returnTupleLength - row.length = columns + 1 :=
      ⟨config.returnTupleLength - row.length - 1, by omega⟩
    rw [lineColumns_field noBinding (by omega) rest notEnd isText, left]
    have shorter : (rest.drop (text.length + 1)).length ≤ fuel := by
      rw [length_drop]
      omega
    rw [ih shorter (by simp; omega), length_append, length_singleton, append_assoc,
      show config.returnTupleLength - (row.length + 1) = columns by omega]
    have split := takeWhile_append_dropWhile
      (p := fun byte => decide (byte ∉ delimiters config row.length)) (l := rest)
    cases tail : rest.dropWhile fun byte => byte ∉ delimiters config row.length with
    | nil =>
      rw [isText, tail, append_nil] at split
      subst split
      rw [drop_of_length_le (Nat.le_succ _), splitFields, fieldColumns_empty,
        splitFields_last free, fieldColumns, fieldColumns_nil, singleton_append]
    | cons delimiter more =>
      have ends : delimiter ∈ delimiters config row.length := by
        have stops := head?_dropWhile_not
          (fun byte => decide (byte ∉ delimiters config row.length)) rest
        rw [tail] at stops
        simpa using stops
      rw [isText, tail] at split
      subst split
      rw [drop_span, splitFields_delimiter free ends, fieldColumns, singleton_append]

/-! ## Taking a line -/

theorem stampRow_ok {tsState : TsState} {stamped : List (Column Datum)}
    (ok : stampRow config tsState row = .ok stamped) :
    stamped = if tupleHasTimestamp row then row else genTimestampField config row := by
  unfold stampRow at ok
  split_ifs at ok with generating has has
  · cases ok
    rw [if_neg has]
  · cases ok
    rw [if_pos has]

theorem settle_places (state : CsvState) :
    (settle state).buf = state.buf ∧ (settle state).readidx = state.readidx := by
  unfold settle
  split_ifs <;> exact ⟨rfl, rfl⟩

theorem skipLineEnds_written {consumed patched line after : List Byte} {readidx writeidx : Nat}
    (start : consumed.length = readidx) (samePatched : patched.length = line.length)
    (complete : readidx + line.length < writeidx)
    (written : writeidx ≤ consumed.length + (line.length + (after.length + 1))) :
    skipLineEnds (consumed ++ patched ++ nul :: after) writeidx writeidx
        (readidx + line.length + 1) = readidx + line.length + 1 +
        ((after.take (writeidx - (readidx + line.length + 1))).takeWhile isLineEnd).length := by
  generalize isKnown : after.take (writeidx - (readidx + line.length + 1)) = known
  have length : known.length = writeidx - (readidx + line.length + 1) := by
    rw [← isKnown, length_take]
    omega
  have before : (consumed ++ patched ++ [nul]).length = readidx + line.length + 1 := by
    simp [start, samePatched]
    omega
  have skip := @skipLineEnds_eq known writeidx (consumed ++ patched ++ [nul])
    (after.drop (writeidx - (readidx + line.length + 1))) (by omega)
  rw [before, show readidx + line.length + 1 + known.length = writeidx by omega] at skip
  have whole : consumed ++ patched ++ nul :: after = consumed ++ patched ++ [nul] ++ known ++
      after.drop (writeidx - (readidx + line.length + 1)) := by
    simp [← isKnown]
  rw [whole, skip]

/-- Two columns, the second one for the timestamp, with different delimiters. -/
def twoColumns : CsvConfig (List Byte) where
  bufsize := 12
  returnTupleLength := 2
  columnDelimiters := fun col => if col = 0 then some [59] else none
  defaultDelimiters := [44]
  errorIndicator := [69, 82, 82, 79, 82]
  doneIndicator := [68, 79, 78, 69]
  getBindingValueByStreamCol := fun _ _ => none
  datumFromTypeInstance := fun _ text => (some text, false)

/-- The line `a,;t` and CR, an empty line, and the line `b`. -/
def threeLines : CsvState where
  buf := [97, 44, 59, 116, carriageReturn, newline, newline, 98, newline, filler, filler, filler, nul]
  readidx := 0
  writeidx := 9
  hasBufferedData := true
  tsState := .dontKnow
  awaitsTimeout := false
  probe := 0
  modeDone := false
  unread := []

end Row

end TelegraphCQ.Wrapper
