import TelegraphCQ.Wrapper.CsvBuffer

/-!
# The CSV wrapper and the chunks it reads

`expected` is what the wrapper gives for a stream that it has in full.  A run gives the same
however the stream comes in pieces, except at one point: empty lines after a tuple are
skipped only if they were read already.
-/

namespace TelegraphCQ.Wrapper

open Foundation CString List

section Stream

variable {Datum : Type} (config : CsvConfig Datum)

theorem leftAfter_suffix (skips : Bool) (more : List Byte) : leftAfter skips more <:+ more := by
  unfold leftAfter
  split_ifs
  · exact dropWhile_suffix _
  · exact suffix_rfl

def expected (tsState : TsState) (probe : Nat) (rest : List Byte) :
    List (CsvOut Datum) × Option CsvFault :=
  if _isLine : newline ∈ rest then
    match readLine config tsState probe (rest.takeWhile (· ≠ newline)) with
    | .error fault => ([], some fault)
    | .ok result =>
      let others := expected result.tsState result.probe
        (leftAfter result.skips (rest.dropWhile (· ≠ newline)).tail)
      (result.out :: others.1, others.2)
  else ([], none)
termination_by rest.length
decreasing_by
  obtain ⟨line, more, rfl, isLine⟩ := eq_append_cons_of_mem _isLine
  have all : ∀ byte ∈ line, decide (byte ≠ newline) = true := by
    intro byte isByte
    rw [decide_eq_true_eq]
    rintro rfl
    exact isLine isByte
  rw [dropWhile_append_of_pos all, dropWhile_cons_of_neg (by simp), tail_cons]
  have := (leftAfter_suffix result.skips more).length_le
  simp
  omega

/-- Every line of the rest of a stream, of which a part of the first was seen already, is
shorter than the buffer. -/
def linesShorter (bufsize : Nat) : Nat → List Byte → Bool
  | _, [] => true
  | seen, byte :: rest =>
    if byte = newline then decide (seen < bufsize) && linesShorter bufsize 0 rest
    else linesShorter bufsize (seen + 1) rest

def CsvOut.isTuple : CsvOut Datum → Bool
  | .tuple _ => true
  | _ => false

def CsvOut.isPunctuation : CsvOut Datum → Bool
  | .punctuation => true
  | _ => false

def outcome (result : List (CsvOut Datum) × Except CsvFault CsvState) :
    List (CsvOut Datum) × Option CsvFault :=
  (result.1.filter fun out => !out.isPunctuation,
    match result.2 with
    | .error fault => some fault
    | .ok _ => none)

/-- If a call returns a tuple and leaves nothing in the buffer, the next byte does not end
an empty line. -/
def LineEndsRead : List (CsvOut Datum) × Except CsvFault CsvState → Prop
  | (_, .error _) => True
  | (outs, .ok next) => outs.any CsvOut.isTuple = true → next.readidx = next.writeidx →
      next.unread.head? ≠ some newline

instance : ∀ result : List (CsvOut Datum) × Except CsvFault CsvState,
    Decidable (LineEndsRead result)
  | (_, .error _) => .isTrue trivial
  | (_, .ok _) => inferInstanceAs (Decidable (_ → _ → _))

/-- A call for which the operating system has data, or the news that there is no more. -/
def CsvOp.reads : CsvOp → Bool
  | .next (some ready) => decide (0 < ready)
  | _ => false

variable {config} {tsState : TsState} {probe : Nat} {line more : List Byte}

theorem expected_line (isLine : newline ∉ line) :
    expected config tsState probe (line ++ newline :: more) =
      match readLine config tsState probe line with
      | .error fault => ([], some fault)
      | .ok result =>
        let others := expected config result.tsState result.probe (leftAfter result.skips more)
        (result.out :: others.1, others.2) := by
  have all : ∀ byte ∈ line, decide (byte ≠ newline) = true := by
    intro byte isByte
    rw [decide_eq_true_eq]
    rintro rfl
    exact isLine isByte
  have front : (line ++ newline :: more).takeWhile (· ≠ newline) = line := by
    rw [takeWhile_append_of_pos all, takeWhile_cons_of_neg (by simp), append_nil]
  have back : ((line ++ newline :: more).dropWhile (· ≠ newline)).tail = more := by
    rw [dropWhile_append_of_pos all, dropWhile_cons_of_neg (by simp), tail_cons]
  rw [expected, dif_pos (by simp), front, back]

theorem expected_none {rest : List Byte} (noLine : newline ∉ rest) :
    expected config tsState probe rest = ([], none) := by
  rw [expected, dif_neg noLine]

theorem linesShorter_line {bufsize : Nat} (seen : Nat) (isLine : newline ∉ line)
    (short : linesShorter bufsize seen (line ++ newline :: more) = true) :
    seen + line.length < bufsize ∧ linesShorter bufsize 0 more = true := by
  induction line generalizing seen with
  | nil => simpa [linesShorter] using short
  | cons byte line ih =>
    have different : byte ≠ newline := by
      rintro rfl
      exact isLine mem_cons_self
    rw [cons_append, linesShorter, if_neg different] at short
    have rest := ih (seen + 1) (fun isByte => isLine (mem_cons_of_mem _ isByte)) short
    rw [length_cons]
    exact ⟨by omega, rest.2⟩

theorem linesShorter_leftAfter {bufsize : Nat} (skips : Bool)
    (short : linesShorter bufsize 0 more = true) :
    linesShorter bufsize 0 (leftAfter skips more) = true := by
  cases skips with
  | false => exact short
  | true =>
    induction more with
    | nil => exact short
    | cons byte more ih =>
      by_cases ends : byte = newline
      · rw [linesShorter, if_pos ends, Bool.and_eq_true] at short
        have rest := ih short.2
        simpa [leftAfter, ends] using rest
      · simpa [leftAfter, ends] using short

/-! ## One call -/

variable {state next : CsvState} {pending : List Byte}

structure Reading (config : CsvConfig Datum) (state : CsvState) (pending : List Byte) : Prop where
  buffers : Buffers config state pending
  proper : nul ∉ state.unread
  short : linesShorter config.bufsize 0 (pending ++ state.unread) = true
  done : state.modeDone = true → pending ++ state.unread = []

def toCome (config : CsvConfig Datum) (state : CsvState) (pending : List Byte) :
    List (CsvOut Datum) × Option CsvFault :=
  expected config state.tsState state.probe (pending ++ state.unread)

def work (state : CsvState) (pending : List Byte) : Nat :=
  2 * state.unread.length + pending.length

structure Advances (config : CsvConfig Datum) (state : CsvState) (pending : List Byte)
    (given : List (CsvOut Datum)) (next : CsvState) (left : List Byte) : Prop where
  reading : Reading config next left
  toCome : toCome config state pending =
    (given ++ (toCome config next left).1, (toCome config next left).2)
  rest : left ++ next.unread <:+ pending ++ state.unread
  work : work next left ≤ work state pending

theorem readLine_skips {result : LineResult Datum}
    (read : readLine config tsState probe line = .ok result) :
    result.skips = result.out.isTuple ∧ result.out.isPunctuation = false := by
  unfold readLine at read
  split_ifs at read
  · cases read
    exact ⟨rfl, rfl⟩
  · cases stamped : stampRow config tsState
        (padRow config (lineColumns config probe line.length line [])) with
    | error fault => simp [stamped] at read
    | ok row =>
      simp only [stamped, Except.ok.injEq] at read
      cases read
      exact ⟨rfl, rfl⟩

/-- Empty lines are skipped to the end of the stream only if they were all read. -/
theorem leftAfter_append {skips : Bool} {unread : List Byte}
    (lineEnds : skips = true → leftAfter skips more = [] → unread.head? ≠ some newline) :
    leftAfter skips (more ++ unread) = leftAfter skips more ++ unread := by
  cases skips with
  | false => rfl
  | true =>
    have ends := lineEnds rfl
    simp only [leftAfter, if_true] at ends ⊢
    rw [dropWhile_append]
    split_ifs with all
    · rw [List.isEmpty_iff] at all
      rw [all, List.nil_append]
      cases unread with
      | nil => rfl
      | cons byte unread =>
        have different := ends all
        simp only [head?_cons, ne_eq, Option.some.injEq] at different
        rw [dropWhile_cons_of_neg (by simpa using different)]
    · rfl

def takeBuffered (config : CsvConfig Datum) (state : CsvState) :
    List (CsvOut Datum) × Except CsvFault CsvState :=
  if state.hasBufferedData then takeTuple config state else ([], .ok (settle state))

theorem Reading.takeBuffered_none (reading : Reading config state pending)
    (noLine : newline ∉ pending) : takeBuffered config state = ([], .ok (settle state)) := by
  unfold takeBuffered
  split_ifs
  · exact reading.buffers.takeTuple_none noLine
  · rfl

theorem Reading.settles (reading : Reading config state pending) :
    Advances config state pending [] (settle state) pending := by
  obtain ⟨sameTs, sameProbe, sameUnread, sameMode⟩ := settle_fields state
  have same : Wrapper.toCome config (settle state) pending =
      Wrapper.toCome config state pending := by
    rw [Wrapper.toCome, sameTs, sameProbe, sameUnread, Wrapper.toCome]
  refine ⟨⟨reading.buffers.settle, ?_, ?_, ?_⟩, ?_, ?_, ?_⟩
  · rw [sameUnread]
    exact reading.proper
  · rw [sameUnread]
    exact reading.short
  · rw [sameUnread, sameMode]
    exact reading.done
  · rw [same, nil_append]
  · rw [sameUnread]
  · rw [Wrapper.work, sameUnread, Wrapper.work]

def Continues (config : CsvConfig Datum) (state : CsvState) (pending : List Byte) (must : Prop) :
    List (CsvOut Datum) × Except CsvFault CsvState → Prop
  | (outs, .error fault) => outs = [] ∧ toCome config state pending = ([], some fault)
  | (outs, .ok next) => ∃ left,
      Advances config state pending (outs.filter fun out => !out.isPunctuation) next left ∧
        (must → work next left < work state pending)

theorem Reading.takeBuffered_line
    (reading : Reading config state (line ++ newline :: more)) (isLine : newline ∉ line)
    (lineEnds : LineEndsRead (takeBuffered config state)) (must : Prop) :
    Continues config state (line ++ newline :: more) must (takeBuffered config state) := by
  have flag := reading.buffers.flag (by simp)
  have whole : takeBuffered config state = takeLine config line.length state := by
    rw [takeBuffered, if_pos flag, reading.buffers.takeTuple_some isLine]
  have taken := reading.buffers.takeLine
  have rest : line ++ newline :: more ++ state.unread =
      line ++ newline :: (more ++ state.unread) := by simp
  have given := @expected_line _ config state.tsState state.probe line (more ++ state.unread) isLine
  have short := reading.short
  rw [rest] at short
  rw [whole] at lineEnds ⊢
  cases read : readLine config state.tsState state.probe line with
  | error fault =>
    simp only [read] at taken given
    rw [taken]
    exact ⟨rfl, by rw [toCome, rest, given]⟩
  | ok result =>
    simp only [read] at taken given
    obtain ⟨next, ran, buffers, sameTs, sameProbe, sameUnread, sameMode⟩ := taken
    obtain ⟨skips, notPunctuation⟩ := readLine_skips read
    rw [ran] at lineEnds ⊢
    have left := (leftAfter_suffix result.skips more)
    have together : leftAfter result.skips (more ++ state.unread) =
        leftAfter result.skips more ++ state.unread := by
      refine leftAfter_append fun isTuple nothing => ?_
      rw [skips] at isTuple
      have writeidx := buffers.writeidx
      rw [nothing] at writeidx
      rw [← sameUnread]
      exact lineEnds (by simpa using isTuple) writeidx.symm
    refine ⟨leftAfter result.skips more, ⟨⟨buffers, ?_, ?_, ?_⟩, ?_, ?_, ?_⟩, ?_⟩
    · rw [sameUnread]
      exact reading.proper
    · rw [sameUnread, ← together]
      exact linesShorter_leftAfter _ (linesShorter_line 0 isLine short).2
    · intro done
      rw [sameMode] at done
      exact absurd (reading.done done) (by simp)
    · rw [toCome, rest, given, toCome, sameTs, sameProbe, sameUnread, together]
      simp [notPunctuation]
    · rw [sameUnread]
      obtain ⟨skipped, split⟩ := left
      have after : skipped ++ (leftAfter result.skips more ++ state.unread) =
          more ++ state.unread := by rw [← append_assoc, split]
      exact ⟨line ++ newline :: skipped, by simp [after]⟩
    · have := left.length_le
      simp only [work, sameUnread, length_append, length_cons]
      omega
    · intro _
      have := left.length_le
      simp only [work, sameUnread, length_append, length_cons]
      omega

theorem Reading.takeBuffered (reading : Reading config state pending)
    (lineEnds : LineEndsRead (takeBuffered config state)) :
    Continues config state pending (newline ∈ pending) (takeBuffered config state) := by
  by_cases hasLine : newline ∈ pending
  · obtain ⟨line, more, rfl, isLine⟩ := eq_append_cons_of_mem hasLine
    exact reading.takeBuffered_line isLine lineEnds _
  · rw [reading.takeBuffered_none hasLine]
    exact ⟨pending, reading.settles, fun isLine => absurd isLine hasLine⟩

theorem Continues.of_read {read : CsvState} {held : List Byte} {must mustRead : Prop}
    {result : List (CsvOut Datum) × Except CsvFault CsvState}
    (continues : Continues config read held mustRead result)
    (same : toCome config read held = toCome config state pending)
    (rest : held ++ read.unread = pending ++ state.unread)
    (less : work read held ≤ work state pending)
    (progress : must → mustRead ∨ work read held < work state pending) :
    Continues config state pending must result := by
  obtain ⟨outs, ended⟩ := result
  cases ended with
  | error fault => exact ⟨continues.1, same ▸ continues.2⟩
  | ok next =>
    obtain ⟨left, advances, moves⟩ := continues
    refine ⟨left, ⟨advances.reading, same ▸ advances.toCome, rest ▸ advances.rest,
      advances.work.trans less⟩, fun has => ?_⟩
    rcases progress has with takes | reads
    · exact (moves takes).trans_le less
    · exact advances.work.trans_lt reads

theorem readMore_fields (ready : Nat) (state : CsvState) :
    (readMore config ready state).tsState = state.tsState ∧
      (readMore config ready state).probe = state.probe := by
  unfold readMore readBytes
  split_ifs <;> exact ⟨rfl, rfl⟩

section

variable (reading : Reading config state pending)
include reading

theorem Reading.line_of_full (full : pending.length = config.bufsize)
    (hasLine : newline ∈ pending ++ state.unread) :
    newline ∈ pending := by
  obtain ⟨line, more, split, isLine⟩ := eq_append_cons_of_mem hasLine
  have short := reading.short
  rw [split] at short
  have fits := (linesShorter_line 0 isLine short).1
  have whole : line ++ [newline] <+: pending := by
    refine prefix_of_prefix_length_le ?_ (prefix_append pending state.unread) (by
      simp
      omega)
    exact ⟨more, by simp [split]⟩
  exact whole.subset (by simp)

theorem Reading.next_ready (ready : Nat) (notDone : state.modeDone = false)
    (lineEnds : LineEndsRead (csvNext config state (.next (some ready)))) :
    Continues config state pending (0 < ready ∧ newline ∈ pending ++ state.unread)
      (csvNext config state (.next (some ready))) := by
  have call : csvNext config state (.next (some ready)) =
      if (readMore config ready state).modeDone then ([], .ok (readMore config ready state))
      else Wrapper.takeBuffered config (readMore config ready state) := rfl
  obtain ⟨sameTs, sameProbe⟩ := @readMore_fields _ config ready state
  have reads := reading.buffers.readMore ready notDone reading.proper
  rw [call] at lineEnds ⊢
  generalize readMore config ready state = read at *
  cases reads with
  | ended done nothing exhausted overNext buffers =>
    rw [if_pos done]
    subst nothing
    refine ⟨[], ⟨⟨buffers, by simp [overNext], by simp [overNext, linesShorter], ?_⟩, ?_, ?_, ?_⟩,
      ?_⟩
    · simp [overNext]
    · simp [toCome, exhausted, overNext, expected_none]
    · simp [exhausted, overNext]
    · simp [work, exhausted, overNext]
    · simp [exhausted]
  | got bread stillOpen split buffers progress =>
    rw [if_neg (by simp [stillOpen])] at lineEnds ⊢
    have rest : pending ++ bread ++ read.unread = pending ++ state.unread := by
      rw [split, append_assoc]
    have readingNext : Reading config read (pending ++ bread) := by
      refine ⟨buffers, ?_, by rw [rest]; exact reading.short, ?_⟩
      · exact fun isNul => reading.proper (split ▸ mem_append_right _ isNul)
      · simp [stillOpen]
    have count := congrArg List.length split
    rw [length_append] at count
    refine (readingNext.takeBuffered lineEnds).of_read ?_ rest ?_ ?_
    · rw [toCome, rest, sameTs, sameProbe, toCome]
    · simp only [work, length_append]
      omega
    · rintro ⟨positive, hasLine⟩
      rcases progress positive with some | exhausted | full
      · right
        have := length_pos_iff.mpr some
        simp only [work, length_append]
        omega
      · left
        rw [exhausted, append_nil] at hasLine
        exact mem_append_left _ hasLine
      · exact .inl (mem_append_left _ (reading.line_of_full full hasLine))

theorem Reading.step (op : CsvOp) (lineEnds : LineEndsRead ((csvMachine config).step state op)) :
    Continues config state pending (op.reads = true ∧ newline ∈ pending ++ state.unread)
      ((csvMachine config).step state op) := by
  have step : (csvMachine config).step state op =
      if state.modeDone then ([], .ok state) else csvNext config state op := rfl
  have stays : ∀ outs : List (CsvOut Datum), (outs.filter fun out => !out.isPunctuation) = [] →
      Advances config state pending (outs.filter fun out => !out.isPunctuation) state pending := by
    intro outs none
    rw [none]
    exact ⟨reading, rfl, suffix_rfl, le_rfl⟩
  rw [step] at lineEnds ⊢
  by_cases done : state.modeDone = true
  · rw [if_pos done]
    refine ⟨pending, stays [] rfl, ?_⟩
    simp [reading.done done]
  rw [if_neg done] at lineEnds ⊢
  cases op with
  | timeoutExpired =>
    simp only [csvNext]
    split_ifs
    · exact ⟨pending, stays [.punctuation] rfl, by simp [CsvOp.reads]⟩
    · exact ⟨pending, stays [] rfl, by simp [CsvOp.reads]⟩
  | next connectionReady =>
    cases connectionReady with
    | none =>
      have call : csvNext config state (.next none) =
          if state.modeDone then ([], .ok state) else Wrapper.takeBuffered config state := rfl
      rw [call, if_neg done] at lineEnds ⊢
      exact (reading.takeBuffered lineEnds).of_read rfl rfl le_rfl (by simp [CsvOp.reads])
    | some ready =>
      have continues := reading.next_ready ready (by simpa using done) lineEnds
      exact continues.of_read rfl rfl le_rfl (by simp [CsvOp.reads])

end

/-! ## Runs -/

theorem Reading.run (reading : Reading config state pending) (ops : List CsvOp)
    (lineEnds : (csvMachine config).Guarded
      (fun state op => LineEndsRead ((csvMachine config).step state op)) state ops) :
    match (csvMachine config).run state ops with
    | (outs, .error fault) =>
      toCome config state pending = (outs.filter fun out => !out.isPunctuation, some fault)
    | (outs, .ok final) => ∃ left,
        toCome config state pending =
          ((outs.filter fun out => !out.isPunctuation) ++ (toCome config final left).1,
            (toCome config final left).2) ∧
        left ++ final.unread <:+ pending ++ state.unread ∧
        (newline ∈ left ++ final.unread →
          work final left + ops.countP CsvOp.reads ≤ work state pending) := by
  induction ops generalizing state pending with
  | nil => exact ⟨pending, rfl, suffix_rfl, fun _ => le_rfl⟩
  | cons op ops ih =>
    have continues := reading.step op lineEnds.1
    rcases stepped : (csvMachine config).step state op with ⟨emitted, result⟩
    rw [stepped] at continues
    cases result with
    | error fault =>
      rw [Machine.run_cons_error _ stepped]
      simp only [continues.1]
      exact continues.2
    | ok next =>
      obtain ⟨left, advances, moves⟩ := continues
      have rest := ih advances.reading (lineEnds.2 next (by rw [stepped]))
      rw [Machine.run_cons_ok _ stepped]
      rcases ran : (csvMachine config).run next ops with ⟨outs, final⟩
      rw [ran] at rest
      cases final with
      | error fault => simp [advances.toCome, rest]
      | ok final =>
        obtain ⟨finalLeft, toComeNext, restNext, workNext⟩ := rest
        have restAll := restNext.trans advances.rest
        refine ⟨finalLeft, ?_, restAll, fun hasLine => ?_⟩
        · simp [advances.toCome, toComeNext]
        · have workLeft := workNext hasLine
          have workStep := advances.work
          rw [countP_cons]
          split_ifs with isRead
          · have moved := moves ⟨isRead, restAll.subset hasLine⟩
            omega
          · omega

theorem outcome_eq_expected {stream : List Byte} (proper : nul ∉ stream)
    (short : linesShorter config.bufsize 0 stream = true) {ops : List CsvOp}
    (enough : 2 * stream.length < ops.countP CsvOp.reads) (lineEnds : (csvMachine config).Guarded
      (fun state op => LineEndsRead ((csvMachine config).step state op))
      (csvInit config stream) ops) :
    outcome ((csvMachine config).run (csvInit config stream) ops) =
      expected config .dontKnow 0 stream := by
  have reading : Reading config (csvInit config stream) [] :=
    ⟨csvInit_buffers stream, proper, short, fun done => by cases done⟩
  have given := reading.run ops lineEnds
  rcases ran : (csvMachine config).run (csvInit config stream) ops with ⟨outs, result⟩
  rw [ran] at given
  have start : toCome config (csvInit config stream) [] = expected config .dontKnow 0 stream := rfl
  rw [← start]
  cases result with
  | error fault => exact given.symm
  | ok final =>
    obtain ⟨left, toComeAll, -, workLeft⟩ := given
    have settled : newline ∉ left ++ final.unread := by
      intro hasLine
      have bound := workLeft hasLine
      simp only [work, csvInit, length_nil] at bound
      omega
    rw [toComeAll, toCome, expected_none settled, append_nil]
    rfl

/-- A stream of one column, kept as its text, in a buffer of eight bytes. -/
def oneColumn : CsvConfig (List Byte) where
  bufsize := 8
  returnTupleLength := 1
  columnDelimiters := fun _ => none
  defaultDelimiters := [44]
  errorIndicator := [69, 82, 82, 79, 82]
  doneIndicator := [68, 79, 78, 69]
  getBindingValueByStreamCol := fun _ _ => none
  datumFromTypeInstance := fun _ text => (some text, false)

def twoLines : List Byte := [97, newline, newline, 98, newline]

end Stream

end TelegraphCQ.Wrapper
