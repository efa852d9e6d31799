import TelegraphCQ.Wrapper.Csv

/-!
# A line of the CSV wrapper

What a line gives does not depend on where in the buffer it is and on what else is there.
`lineColumns` is the loop over the columns of the line itself.
-/

namespace TelegraphCQ.Wrapper

open Foundation CString List

section Line

variable {Datum : Type} (config : CsvConfig Datum)

def shown (text : List Byte) : List Byte :=
  text.map fun byte => if byte = carriageReturn then blank else byte

def lineColumns (probe : Nat) : Nat → List Byte → List (Column Datum) → List (Column Datum)
  | 0, _, row => row
  | fuel + 1, rest, row =>
    if rest.isEmpty then row
    else if config.returnTupleLength ≤ row.length then row
    else
      let text := rest.takeWhile fun byte => byte ∉ delimiters config row.length
      if text.isEmpty then lineColumns probe fuel rest.tail (row ++ [.null])
      else
        let row := echoBinding config probe row (shown text)
        if row.length = config.returnTupleLength then row
        else
          lineColumns probe fuel (rest.drop (text.length + 1))
            (row ++ [readColumn config row.length (shown text)])

variable {config} {probe : Nat} {before rest after : List Byte} {row : List (Column Datum)}

variable {text : List Byte}

theorem nul_notMem_shown (proper : nul ∉ text) : nul ∉ shown text := by
  intro isNul
  obtain ⟨byte, isByte, same⟩ := mem_map.mp isNul
  split_ifs at same with isReturn
  · exact absurd same (by decide)
  · rw [same] at isByte
    exact proper isByte

@[simp] theorem length_shown (text : List Byte) : (shown text).length = text.length := length_map _

theorem lineColumns_nil (fuel : Nat) : lineColumns config probe fuel [] row = row := by
  cases fuel <;> simp [lineColumns]

theorem set_after (text more : List Byte) (byte : Byte) :
    (before ++ text ++ byte :: more).set (before.length + text.length) nul =
      before ++ text ++ nul :: more := by
  rw [set_append_right _ _ (by simp), length_append, Nat.sub_self, set_cons_zero]

theorem drop_span (text more : List Byte) (byte : Byte) :
    (text ++ byte :: more).drop (text.length + 1) = more := by
  rw [← drop_drop, drop_left, drop_one, tail_cons]

theorem readColumns_past {tupleend colbegin : Nat} (past : tupleend ≤ colbegin) (fuel : Nat)
    (buf : List Byte) : readColumns config probe tupleend fuel buf colbegin row = (buf, row) := by
  cases fuel with
  | zero => rfl
  | succ fuel => simp [readColumns, past]

theorem readColumns_text {tupleend : Nat} (inside : before.length < tupleend)
    (short : ¬ config.returnTupleLength ≤ row.length) (proper : nul ∉ text)
    (notEmpty : text.length ≠ 0) (byte : Byte) (more : List Byte)
    (span : strcspn (delimiters config row.length)
      ((before ++ text ++ byte :: more).drop before.length) = text.length) (fuel : Nat) :
    readColumns config probe tupleend (fuel + 1) (before ++ text ++ byte :: more) before.length
        row = let row := echoBinding config probe row (shown text)
      if row.length = config.returnTupleLength then (before ++ shown text ++ nul :: more, row)
      else
        readColumns config probe tupleend fuel (before ++ shown text ++ nul :: more)
          (before.length + text.length + 1) (row ++ [readColumn config row.length (shown text)])
      := by
  have patched : (before ++ text ++ nul :: more).take before.length ++
      replaceAll carriageReturn blank ((before ++ text ++ nul :: more).drop before.length) =
      before ++ shown text ++ nul :: more := by
    rw [append_assoc, take_left, drop_left, replaceAll_append _ _ proper, ← append_assoc, shown]
  have read : content ((before ++ shown text ++ nul :: more).drop before.length) = shown text := by
    rw [append_assoc, drop_left, content_append (nul_notMem_shown proper)]
  rw [readColumns, if_neg (not_not.mpr inside), if_neg short]
  simp only [span, notEmpty, if_false, set_after, patched, read]

theorem readColumns_eq (fuel : Nat) (proper : nul ∉ rest) :
    ∃ patched, patched.length = rest.length ∧
      readColumns config probe (before.length + rest.length) fuel
          (before ++ rest ++ nul :: after) before.length row =
        (before ++ patched ++ nul :: after, lineColumns config probe fuel rest row) := by
  induction fuel generalizing before rest row with
  | zero => exact ⟨rest, rfl, rfl⟩
  | succ fuel ih =>
    by_cases atEnd : rest = []
    · subst atEnd
      exact ⟨[], rfl, by simp [readColumns, lineColumns]⟩
    have inside : before.length < before.length + rest.length :=
      Nat.lt_add_of_pos_right (length_pos_iff.mpr atEnd)
    by_cases long : config.returnTupleLength ≤ row.length
    · exact ⟨rest, rfl, by simp [readColumns, lineColumns, long]⟩
    generalize isText : (rest.takeWhile fun byte => byte ∉ delimiters config row.length) = text
    have span : strcspn (delimiters config row.length)
        ((before ++ rest ++ nul :: after).drop before.length) = text.length := by
      rw [append_assoc, drop_left, strcspn_append _ proper, isText]
    by_cases empty : text = []
    · -- a delimiter right at the start of the column
      obtain ⟨first, others, rfl⟩ := exists_cons_of_ne_nil atEnd
      obtain ⟨patched, length, ran⟩ := @ih (before ++ [first]) others (row ++ [.null])
        (fun isNul => proper (mem_cons_of_mem _ isNul))
      refine ⟨first :: patched, by simp [length], ?_⟩
      have next : readColumns config probe (before.length + (first :: others).length) fuel
          (before ++ first :: others ++ nul :: after) (before.length + 1) (row ++ [.null]) =
          (before ++ first :: patched ++ nul :: after,
            lineColumns config probe fuel others (row ++ [.null])) := by
        simpa [Nat.add_assoc, Nat.add_comm 1] using ran
      rw [readColumns, if_neg (not_not.mpr inside), if_neg long, span, empty]
      simp only [length_nil, if_true]
      rw [next]
      simp only [lineColumns, isText, empty, if_neg long, isEmpty_cons, isEmpty_nil,
        Bool.false_eq_true, if_false, if_true, tail_cons]
    · have textProper : nul ∉ text := fun isNul =>
        proper ((takeWhile_sublist _).subset (isText ▸ isNul))
      have notEmpty : text.length ≠ 0 := fun none => empty (length_eq_zero_iff.mp none)
      obtain ⟨tail, rfl⟩ : ∃ tail, rest = text ++ tail :=
        ⟨_, isText ▸ List.takeWhile_append_dropWhile.symm⟩
      simp only [lineColumns, isText, if_neg long, List.isEmpty_iff, atEnd, empty, if_false]
      cases tail with
      | nil =>
        -- the last column of the line
        rw [append_nil] at span inside ⊢
        refine ⟨shown text, length_shown text, ?_⟩
        rw [readColumns_text inside long textProper notEmpty nul after span]
        simp only [readColumns_past (Nat.le_succ _), drop_of_length_le (Nat.le_succ _),
          lineColumns_nil]
        split_ifs <;> rfl
      | cons byte others =>
        have split : before ++ (text ++ byte :: others) ++ nul :: after =
            before ++ text ++ byte :: (others ++ nul :: after) := by simp
        rw [split] at span ⊢
        rw [readColumns_text inside long textProper notEmpty byte _ span, drop_span]
        by_cases full : (echoBinding config probe row (shown text)).length =
            config.returnTupleLength
        · refine ⟨shown text ++ nul :: others, by simp, ?_⟩
          simp [full]
        · obtain ⟨patched, length, ran⟩ := @ih (before ++ shown text ++ [nul]) others
            (echoBinding config probe row (shown text) ++
              [readColumn config (echoBinding config probe row (shown text)).length
                (shown text)])
            (fun isNul => proper (mem_append_right _ (mem_cons_of_mem _ isNul)))
          refine ⟨shown text ++ nul :: patched, by simp [length], ?_⟩
          simp only [if_neg full]
          simpa [Nat.add_assoc, Nat.add_comm 1] using ran

/-- What a line gives, on its own: with `true` if empty lines after it are skipped. -/
structure LineResult (Datum : Type) where
  out : CsvOut Datum
  tsState : TsState
  probe : Nat
  skips : Bool

def readLine (config : CsvConfig Datum) (tsState : TsState) (probe : Nat) (line : List Byte) :
    Except CsvFault (LineResult Datum) :=
  if sameStart config.errorIndicator.length line config.errorIndicator then
    .error (.errorMessage line)
  else if sameStart config.doneIndicator.length line config.doneIndicator then
    .ok ⟨.doneWithProbe, tsState, probe + 1, false⟩
  else
    let row := padRow config (lineColumns config probe line.length line [])
    match stampRow config tsState row with
    | .error fault => .error fault
    | .ok stamped => .ok ⟨.tuple stamped, nextTsState tsState row, probe, true⟩

end Line

end TelegraphCQ.Wrapper
