import TelegraphCQ.Wrapper.CsvLine

/-!
# The buffer of the CSV wrapper

The buffer holds the bytes that were read and not consumed yet, up to filler and a NUL byte.
A read adds to them, and a whole line is taken for what it is on its own.
-/

namespace TelegraphCQ.Wrapper

open Foundation CString List

section Buffer

variable {Datum : Type} (config : CsvConfig Datum)

structure Buffers (state : CsvState) (pending : List Byte) : Prop where
  layout : ∃ consumed, consumed.length = state.readidx ∧
    state.buf = consumed ++ pending ++
      (List.replicate (config.bufsize - state.writeidx) filler ++ [nul])
  writeidx : state.writeidx = state.readidx + pending.length
  fits : state.writeidx ≤ config.bufsize
  proper : nul ∉ pending
  flag : pending ≠ [] → state.hasBufferedData = true

variable {config} {state : CsvState} {pending line more : List Byte}

theorem csvInit_buffers (stream : List Byte) : Buffers config (csvInit config stream) [] where
  layout := ⟨[], rfl, rfl⟩
  writeidx := rfl
  fits := Nat.zero_le _
  proper := not_mem_nil
  flag := fun some => absurd rfl some

theorem settle_fields (state : CsvState) :
    (settle state).tsState = state.tsState ∧ (settle state).probe = state.probe ∧
      (settle state).unread = state.unread ∧ (settle state).modeDone = state.modeDone := by
  unfold settle
  split_ifs <;> exact ⟨rfl, rfl, rfl, rfl⟩

theorem Buffers.settle (buffers : Buffers config state pending) :
    Buffers config (Wrapper.settle state) pending := by
  unfold Wrapper.settle
  split_ifs with all
  · refine ⟨buffers.layout, buffers.writeidx, buffers.fits, buffers.proper, fun some => ?_⟩
    have := buffers.writeidx
    have := length_pos_iff.mpr some
    omega
  · exact buffers

theorem Buffers.compact (buffers : Buffers config state pending) :
    Buffers config (compactBuffer config state) pending := by
  obtain ⟨consumed, length, layout⟩ := buffers.layout
  have writeidx := buffers.writeidx
  have fits := buffers.fits
  have left : state.writeidx - state.readidx = pending.length := by omega
  refine ⟨⟨[], rfl, ?_⟩, by simp [compactBuffer, left], ?_, buffers.proper, buffers.flag⟩
  · have moved : (state.buf.drop state.readidx).take pending.length = pending := by
      rw [layout, ← length, append_assoc, drop_left, take_left]
    have last : state.buf.drop config.bufsize = [nul] := by
      rw [layout, ← append_assoc, drop_append_of_le_length (by simp; omega),
        drop_of_length_le (by simp; omega), nil_append]
    simp [compactBuffer, left, moved, last]
  · simp only [compactBuffer, left]
    omega

theorem overwrite_tail (before rest bytes : List Byte) :
    overwrite (before ++ rest) before.length bytes = before ++ bytes ++ rest.drop bytes.length := by
  rw [overwrite, take_left, ← drop_drop, drop_left]

inductive Reads (config : CsvConfig Datum) (ready : Nat) (unread pending : List Byte)
    (next : CsvState) : Prop
  | ended (done : next.modeDone = true) (nothing : pending = []) (exhausted : unread = [])
      (overNext : next.unread = []) (buffers : Buffers config next [])
  | got (bread : List Byte) (notDone : next.modeDone = false)
      (split : unread = bread ++ next.unread)
      (buffers : Buffers config next (pending ++ bread))
      (progress : 0 < ready → bread ≠ [] ∨ unread = [] ∨ pending.length = config.bufsize)

theorem Buffers.readBytes (buffers : Buffers config state pending) (ready : Nat)
    (compacted : state.writeidx = config.bufsize → state.readidx = 0)
    (notDone : state.modeDone = false) (proper : nul ∉ state.unread) :
    Reads config ready state.unread pending (Wrapper.readBytes config ready state) := by
  have writeidx := buffers.writeidx
  unfold Wrapper.readBytes
  split_ifs with full exhausted
  · refine .got [] notDone rfl (by rwa [append_nil]) (fun _ => .inr (.inr ?_))
    have := compacted full
    omega
  · simp only [Bool.and_eq_true, List.isEmpty_iff, Bool.not_eq_true'] at exhausted
    have nothing : pending = [] := by
      by_contra some
      exact absurd (buffers.flag some) (by rw [exhausted.2]; decide)
    subst nothing
    exact .ended rfl rfl exhausted.1 exhausted.1
      ⟨buffers.layout, buffers.writeidx, buffers.fits, buffers.proper, fun some => absurd rfl some⟩
  · generalize isBread : state.unread.take (min ready (config.bufsize - state.writeidx)) = bread
    have start : bread <+: state.unread := isBread ▸ take_prefix _ _
    have split : state.unread = bread ++ state.unread.drop bread.length :=
      (prefix_iff_eq_append.mp start).symm
    have room : bread.length ≤ config.bufsize - state.writeidx := by
      rw [← isBread, length_take]
      omega
    have fits := buffers.fits
    refine .got bread notDone split ⟨?_, ?_, ?_, ?_, ?_⟩ ?_
    · obtain ⟨consumed, length, layout⟩ := buffers.layout
      have place : state.writeidx = (consumed ++ pending).length := by
        rw [length_append]
        omega
      have filled : List.drop bread.length
          (List.replicate (config.bufsize - state.writeidx) filler ++ [nul]) =
          List.replicate (config.bufsize - (state.writeidx + bread.length)) filler ++ [nul] := by
        rw [drop_append_of_le_length (by simpa using room), drop_replicate, Nat.sub_sub]
      have wrote : overwrite state.buf state.writeidx bread = consumed ++ (pending ++ bread) ++
          (List.replicate (config.bufsize - (state.writeidx + bread.length)) filler ++ [nul]) := by
        rw [layout, ← filled, place, overwrite_tail, append_assoc consumed]
      exact ⟨consumed, length, wrote⟩
    · simp only [length_append]
      omega
    · simp only
      omega
    · intro isNul
      rcases mem_append.mp isNul with old | isNew
      · exact buffers.proper old
      · exact proper (start.subset isNew)
    · intro some
      by_cases none : bread = []
      · rw [none, append_nil] at some
        simp [buffers.flag some]
      · simp [none]
    · intro positive
      by_contra nothing
      simp only [not_or, not_not] at nothing
      rw [nothing.1, take_eq_nil_iff] at isBread
      rcases isBread with none | exhausted
      · omega
      · exact nothing.2.1 exhausted

theorem Buffers.readMore (buffers : Buffers config state pending) (ready : Nat)
    (notDone : state.modeDone = false) (proper : nul ∉ state.unread) :
    Reads config ready state.unread pending (Wrapper.readMore config ready state) := by
  unfold Wrapper.readMore
  split_ifs with nearlyFull
  · exact buffers.compact.readBytes ready (fun _ => rfl) notDone proper
  · exact buffers.readBytes ready (by omega) notDone proper

/-! ## One line -/

def isLineEnd (byte : Byte) : Bool := byte = newline ∨ byte = nul

theorem skipLineEnds_eq (fuel : Nat) {before after : List Byte} (enough : more.length ≤ fuel) :
    skipLineEnds (before ++ more ++ after) (before.length + more.length) fuel before.length =
      before.length + (more.takeWhile isLineEnd).length := by
  induction fuel generalizing before more with
  | zero =>
    rw [eq_nil_of_length_eq_zero (Nat.le_zero.mp enough)]
    rfl
  | succ fuel ih =>
    cases more with
    | nil => simp [skipLineEnds]
    | cons byte rest =>
      have here : (before ++ byte :: rest ++ after).getD before.length filler = byte := by
        simp
      by_cases ends : byte = newline ∨ byte = nul
      · have next := @ih rest (before ++ [byte]) (by simpa using enough)
        rw [skipLineEnds, if_pos ⟨by simp, by rwa [here]⟩]
        simpa [isLineEnd, ends, Nat.add_assoc, Nat.add_comm 1] using next
      · rw [skipLineEnds, if_neg (by rw [here]; tauto)]
        simp [isLineEnd, ends]

theorem takeWhile_isLineEnd (proper : nul ∉ more) :
    more.takeWhile isLineEnd = more.takeWhile (· = newline) := by
  induction more with
  | nil => rfl
  | cons byte more ih =>
    have notNul : byte ≠ nul := by
      rintro rfl
      exact proper mem_cons_self
    have rest := ih fun isNul => proper (mem_cons_of_mem _ isNul)
    simp [takeWhile_cons, isLineEnd, notNul, rest]

def leftAfter (skips : Bool) (more : List Byte) : List Byte :=
  if skips then more.dropWhile (· = newline) else more

theorem takeLine_eq {consumed after : List Byte} (start : consumed.length = state.readidx)
    (layout : state.buf = consumed ++ line ++ newline :: after) (proper : nul ∉ line) :
    ∃ patched, patched.length = line.length ∧ takeLine config line.length state =
        if sameStart config.errorIndicator.length line config.errorIndicator then
          ([], .error (.errorMessage line))
        else if sameStart config.doneIndicator.length line config.doneIndicator then
          ([.doneWithProbe], .ok
              { state with
                buf := consumed ++ line ++ nul :: after
                readidx := state.readidx + line.length + 1
                probe := state.probe + 1 })
        else
          let row := padRow config (lineColumns config state.probe line.length line [])
          match stampRow config state.tsState row with
          | .error fault => ([], .error fault)
          | .ok stamped =>
            ([.tuple stamped], .ok (settle
                { state with
                  buf := consumed ++ patched ++ nul :: after
                  tsState := nextTsState state.tsState row
                  awaitsTimeout := state.awaitsTimeout ||
                    decide (nextTsState state.tsState row ≠ state.tsState)
                  readidx := skipLineEnds (consumed ++ patched ++ nul :: after) state.writeidx
                    state.writeidx (state.readidx + line.length + 1) })) := by
  have ended : state.buf.set (state.readidx + line.length) nul =
      consumed ++ line ++ nul :: after := by
    rw [layout, ← start, set_after]
  have read : content ((consumed ++ line ++ nul :: after).drop state.readidx) = line := by
    rw [← start, append_assoc, drop_left, content_append proper]
  obtain ⟨patched, samePatched, ran⟩ := @readColumns_eq _ config state.probe consumed line
    after [] line.length proper
  rw [start] at ran
  refine ⟨patched, samePatched, ?_⟩
  simp only [takeLine, ended, read, ran] <;> rfl

theorem Buffers.takeLine (buffers : Buffers config state (line ++ newline :: more)) :
    match readLine config state.tsState state.probe line with
    | .error fault => Wrapper.takeLine config line.length state = ([], .error fault)
    | .ok result => ∃ next, Wrapper.takeLine config line.length state = ([result.out], .ok next) ∧
          Buffers config next (leftAfter result.skips more) ∧ next.tsState = result.tsState ∧
          next.probe = result.probe ∧ next.unread = state.unread ∧
          next.modeDone = state.modeDone := by
  obtain ⟨consumed, length, layout⟩ := buffers.layout
  have writeidx := buffers.writeidx
  rw [length_append, length_cons] at writeidx
  have flag := buffers.flag (by simp)
  have lineProper : nul ∉ line := fun isNul => buffers.proper (mem_append_left _ isNul)
  have moreProper : nul ∉ more := fun isNul =>
    buffers.proper (mem_append_right _ (mem_cons_of_mem _ isNul))
  generalize isTail : List.replicate (config.bufsize - state.writeidx) filler ++ [nul] = tail
    at layout
  have split : state.buf = consumed ++ line ++ newline :: (more ++ tail) := by simp [layout]
  obtain ⟨patched, samePatched, taken⟩ := @takeLine_eq _ config state _ _ _ length split lineProper
  rw [taken]
  simp only [readLine]
  by_cases isError : sameStart config.errorIndicator.length line config.errorIndicator = true
  · simp [isError]
  by_cases isDone : sameStart config.doneIndicator.length line config.doneIndicator = true
  · simp only [isError, isDone, if_true, if_false, Bool.false_eq_true]
    refine ⟨_, rfl, ⟨⟨consumed ++ line ++ [nul], ?_, ?_⟩, ?_, buffers.fits, moreProper,
      fun _ => flag⟩, rfl, rfl, rfl, rfl⟩
    · simp [length]
      omega
    · simp [isTail, leftAfter]
    · simp only [leftAfter, Bool.false_eq_true, if_false]
      omega
  simp only [isError, isDone, if_false, Bool.false_eq_true]
  cases stamped : stampRow config state.tsState
      (padRow config (lineColumns config state.probe line.length line [])) with
  | error fault => rfl
  | ok row =>
    have start : (consumed ++ patched ++ [nul]).length = state.readidx + line.length + 1 := by
      simp [length, samePatched]
      omega
    have skipped : skipLineEnds (consumed ++ patched ++ nul :: (more ++ tail)) state.writeidx
        state.writeidx (state.readidx + line.length + 1) =
        state.readidx + line.length + 1 + (more.takeWhile (· = newline)).length := by
      have skip := @skipLineEnds_eq more state.writeidx (consumed ++ patched ++ [nul]) tail
        (by omega)
      rw [takeWhile_isLineEnd moreProper, start,
        show state.readidx + line.length + 1 + more.length = state.writeidx by omega]
        at skip
      simpa using skip
    have whole := congrArg List.length (@List.takeWhile_append_dropWhile _ (· = newline) more)
    rw [length_append] at whole
    refine ⟨_, rfl, Buffers.settle ⟨⟨consumed ++ patched ++ [nul] ++
      more.takeWhile (· = newline), ?_, ?_⟩, ?_, buffers.fits, ?_, fun _ => flag⟩, settle_fields _⟩
    · rw [length_append, start]
      exact skipped.symm
    · simp [leftAfter, isTail]
    · simp only [leftAfter, if_true, skipped]
      omega
    · exact fun isNul => moreProper ((dropWhile_sublist _).subset isNul)

theorem Buffers.takeTuple_none (buffers : Buffers config state pending)
    (noLine : newline ∉ pending) : takeTuple config state = ([], .ok (Wrapper.settle state)) := by
  obtain ⟨consumed, length, layout⟩ := buffers.layout
  have missing : strchr newline (state.buf.drop state.readidx) = none := by
    rw [layout, ← length, append_assoc, drop_left, ← append_assoc]
    refine strchr_none ?_ (by decide)
    intro isNewline
    rcases mem_append.mp isNewline with inPending | inFiller
    · exact noLine inPending
    · exact absurd (eq_of_mem_replicate inFiller) (by decide)
  simp [takeTuple, missing]

theorem takeTuple_line {consumed after : List Byte} (start : consumed.length = state.readidx)
    (layout : state.buf = consumed ++ line ++ newline :: after) (isLine : newline ∉ line)
    (proper : nul ∉ line) (inside : state.readidx + line.length ≤ state.writeidx) :
    takeTuple config state = takeLine config line.length state := by
  have found : strchr newline (state.buf.drop state.readidx) = some line.length := by
    rw [layout, ← start, append_assoc, drop_left]
    exact strchr_some isLine proper
  simp [takeTuple, found, inside]

theorem Buffers.takeTuple_some (buffers : Buffers config state (line ++ newline :: more))
    (isLine : newline ∉ line) :
    takeTuple config state = Wrapper.takeLine config line.length state := by
  obtain ⟨consumed, length, layout⟩ := buffers.layout
  have writeidx := buffers.writeidx
  rw [length_append, length_cons] at writeidx
  rw [append_assoc, append_assoc, cons_append, ← append_assoc] at layout
  exact takeTuple_line length layout isLine
    (fun isNul => buffers.proper (mem_append_left _ isNul)) (by omega)

end Buffer

end TelegraphCQ.Wrapper
