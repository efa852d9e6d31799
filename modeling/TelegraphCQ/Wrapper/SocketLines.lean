import TelegraphCQ.Wrapper.CsvBuffer

/-!
# Lines from a socket

`strmsource.c` reads pieces of a stream into a buffer and takes lines out of it in place.  How much
a read gives, and whether the socket is readable, is up to the operating system.
-/

namespace TelegraphCQ.Wrapper

open Foundation CString List

structure SockState where
  connected : Bool
  readBuf : List Byte
  readBufPos : Nat
  readBufUsed : Nat
  incoming : List Byte

inductive ReadFault where
  | assertion
  | pollError
  | lineTooLong
  deriving DecidableEq, Repr

/-- What `poll` finds; a readable socket gives at most `limit` bytes. -/
inductive Poll where
  | failed
  | gone
  | idle
  | readable (limit : Nat)
  deriving DecidableEq, Repr

/-- Zero for success, one for no data and minus one for a closed socket. -/
def fillReadBuf (bufsz : Nat) (poll : Poll) (ss : SockState) : Except ReadFault (Int × SockState) :=
  let senderIsGone : Int × SockState := (-1, { ss with connected := false })
  let spaceRem := bufsz - ss.readBufUsed
  if ss.connected = false then .error .assertion
  else if spaceRem = 0 then .ok (0, ss)
  else
    match poll with
    | .failed => .error .pollError
    | .gone => .ok senderIsGone
    | .idle => .ok (1, ss)
    | .readable limit =>
      let nread := (ss.incoming.take (min limit spaceRem)).length
      if nread = 0 then .ok senderIsGone
      else
        .ok (0,
          { ss with
            readBuf := overwrite ss.readBuf ss.readBufUsed (ss.incoming.take nread)
            readBufUsed := ss.readBufUsed + nread
            incoming := ss.incoming.drop nread })

/-- The newline at `i` becomes the end of a string, and so does a carriage return before it. -/
def endLine (buf : List Byte) (i : Nat) : List Byte :=
  let buf := buf.set i nul
  if 0 < i ∧ buf[i - 1]? = some carriageReturn then buf.set (i - 1) nul else buf

def getNextLine (bufsz : Nat) (ss : SockState) :
    Except ReadFault (Option (List Byte) × SockState) :=
  if ss.readBufPos ≥ ss.readBufUsed then
    .ok (none, { ss with readBufPos := 0, readBufUsed := 0 })
  else
    let unread := (ss.readBuf.take ss.readBufUsed).drop ss.readBufPos
    match unread.findIdx? (· = newline) with
    | some offset =>
      let i := ss.readBufPos + offset
      let buf := endLine ss.readBuf i
      .ok (some (content (buf.drop ss.readBufPos)),
        { ss with readBuf := buf, readBufPos := i + 1 })
    | none =>
      if ss.readBufPos = 0 ∧ ss.readBufUsed = bufsz then .error .lineTooLong
      else
        .ok (none,
          { ss with
            readBuf := overwrite ss.readBuf 0 unread
            readBufUsed := ss.readBufUsed - ss.readBufPos
            readBufPos := 0 })

inductive SockOp where
  | fill (poll : Poll)
  | getLine

def sockStep (bufsz : Nat) (ss : SockState) :
    SockOp → List (List Byte) × Except ReadFault SockState
  | .fill poll =>
    match fillReadBuf bufsz poll ss with
    | .error fault => ([], .error fault)
    | .ok (_, next) => ([], .ok next)
  | .getLine =>
    match getNextLine bufsz ss with
    | .error fault => ([], .error fault)
    | .ok (line, next) => (line.toList, .ok next)

def readMachine (bufsz : Nat) : Machine SockState SockOp (List Byte) ReadFault where
  step := sockStep bufsz

def sockInit (readBuf stream : List Byte) : SockState where
  connected := true
  readBuf := readBuf
  readBufPos := 0
  readBufUsed := 0
  incoming := stream

/-- A buffer is filled as long as the sender is not gone, and `poll` does not fail. -/
def SockOp.Allowed (ss : SockState) : SockOp → Prop
  | .fill poll => ss.connected = true ∧ poll ≠ .failed
  | .getLine => True

instance (ss : SockState) : ∀ op : SockOp, Decidable (op.Allowed ss)
  | .fill _ => inferInstanceAs (Decidable (_ ∧ _))
  | .getLine => inferInstanceAs (Decidable True)

/-! ## Lines of a stream -/

def chomp (line : List Byte) : List Byte :=
  if line.getLast? = some carriageReturn then line.dropLast else line

def completeLines (bytes : List Byte) : List (List Byte) :=
  (bytes.splitOn newline).dropLast.map chomp

section Lines

variable {line rest bytes : List Byte}

theorem completeLines_line (unbroken : newline ∉ line) :
    completeLines (line ++ newline :: rest) = chomp line :: completeLines rest := by
  rw [completeLines, splitOn_append_cons_self_of_not_mem unbroken,
    dropLast_cons_of_ne_nil (splitOn_ne_nil _ rest)]
  rfl

theorem completeLines_unbroken (unbroken : newline ∉ bytes) : completeLines bytes = [] := by
  rw [completeLines, splitOn_eq_singleton unbroken]
  rfl

theorem findIdx?_unbroken (unbroken : newline ∉ bytes) : bytes.findIdx? (· = newline) = none := by
  rw [findIdx?_eq_none_iff]
  rintro byte isByte
  rw [decide_eq_false_iff_not]
  rintro rfl
  exact unbroken isByte

theorem length_le_line (unbroken : newline ∉ bytes) (more : List Byte) :
    ∃ line ∈ (bytes ++ more).splitOn newline, bytes.length ≤ line.length := by
  by_cases broken : newline ∈ more
  · obtain ⟨front, rest, rfl, notInFront⟩ := eq_append_cons_of_mem broken
    refine ⟨bytes ++ front, ?_, by simp⟩
    rw [← append_assoc, splitOn_append_cons_self_of_not_mem (by simp [unbroken, notInFront])]
    exact mem_cons_self
  · refine ⟨bytes ++ more, ?_, by simp⟩
    rw [splitOn_eq_singleton (by simp [unbroken, broken])]
    exact mem_cons_self

theorem endLine_spec (before after : List Byte) (proper : nul ∉ line) :
    ∃ before' text, before'.length = before.length ∧ text.length = line.length ∧
      endLine (before ++ line ++ newline :: after) (before.length + line.length) =
        before' ++ text ++ nul :: after ∧ content (text ++ nul :: after) = chomp line := by
  have ended : (before ++ line ++ newline :: after).set (before.length + line.length) nul =
      before ++ line ++ nul :: after := by
    rw [← length_append, set_append_right _ _ (Nat.le_refl _), Nat.sub_self, set_cons_zero]
  rw [endLine, ended]
  by_cases isReturn : line.getLast? = some carriageReturn
  · obtain ⟨front, rfl⟩ := getLast?_eq_some_iff.mp isReturn
    have isBefore : before ++ (front ++ [carriageReturn]) ++ nul :: after =
        before ++ front ++ carriageReturn :: nul :: after := by simp
    have place : before.length + (front ++ [carriageReturn]).length - 1 =
        (before ++ front).length := by simp
    refine ⟨before, front ++ [nul], rfl, by simp, ?_, ?_⟩
    · rw [place, isBefore, if_pos ⟨by rw [length_append, length_singleton]; omega, by simp⟩,
        set_append_right _ _ (Nat.le_refl _)]
      simp
    · rw [append_assoc, singleton_append, content_append fun isNul => proper (by simp [isNul]),
        chomp, if_pos isReturn, dropLast_concat]
  · have kept : content (line ++ nul :: after) = chomp line := by
      rw [content_append proper, chomp, if_neg isReturn]
    split_ifs with return_before
    · -- the carriage return belongs to the line before, and this one is empty
      obtain ⟨positive, isReturnBefore⟩ := return_before
      obtain rfl : line = [] := by
        by_contra some
        have last : before.length + line.length - 1 - before.length = line.length - 1 := by omega
        have inside := length_pos_iff.mpr some
        rw [append_assoc, getElem?_append_right (by omega), last,
          getElem?_append_left (by omega), ← getLast?_eq_getElem?] at isReturnBefore
        exact isReturn isReturnBefore
      rw [append_nil] at isReturnBefore ⊢
      rw [length_nil, Nat.add_zero] at positive ⊢
      refine ⟨before.set (before.length - 1) nul, [], by simp, rfl, ?_, kept⟩
      rw [append_nil, set_append_left _ _ (by omega)]
    · exact ⟨before, line, rfl, rfl, rfl, kept⟩

end Lines

/-! ## Runs -/

/-- `pending` is what was read and not taken yet; the lines before it were returned. -/
structure Frames (bufsz : Nat) (stream : List Byte) (lines : List (List Byte)) (ss : SockState)
    (delivered pending : List Byte) : Prop where
  split : stream = delivered ++ ss.incoming
  layout : ∃ before after, ss.readBuf = before ++ pending ++ after ∧
    before.length = ss.readBufPos
  sized : ss.readBuf.length = bufsz
  used : ss.readBufUsed = ss.readBufPos + pending.length
  proper : nul ∉ pending ++ ss.incoming
  short : ∀ line ∈ (pending ++ ss.incoming).splitOn newline, line.length < bufsz
  framed : ∀ more, completeLines (delivered ++ more) = lines ++ completeLines (pending ++ more)

section Runs

variable {bufsz : Nat} {stream : List Byte} {lines : List (List Byte)} {ss : SockState}
  {delivered pending : List Byte}

theorem Frames.fill (frames : Frames bufsz stream lines ss delivered pending) {poll : Poll}
    (allowed : (SockOp.fill poll).Allowed ss) :
    ∃ code next delivered pending, fillReadBuf bufsz poll ss = .ok (code, next) ∧
      Frames bufsz stream lines next delivered pending := by
  have closed : Frames bufsz stream lines { ss with connected := false } delivered pending :=
    ⟨frames.split, frames.layout, frames.sized, frames.used, frames.proper, frames.short,
      frames.framed⟩
  unfold fillReadBuf
  rw [if_neg (by simp [allowed.1])]
  by_cases full : bufsz - ss.readBufUsed = 0
  · exact ⟨0, ss, delivered, pending, if_pos full, frames⟩
  · rw [if_neg full]
    cases poll with
    | failed => exact absurd rfl allowed.2
    | gone => exact ⟨-1, _, delivered, pending, rfl, closed⟩
    | idle => exact ⟨1, ss, delivered, pending, rfl, frames⟩
    | readable limit =>
      dsimp only
      by_cases nothing : (ss.incoming.take (min limit (bufsz - ss.readBufUsed))).length = 0
      · rw [if_pos nothing]
        exact ⟨-1, _, delivered, pending, rfl, closed⟩
      · rw [if_neg nothing]
        have small : (ss.incoming.take (min limit (bufsz - ss.readBufUsed))).length ≤
            bufsz - ss.readBufUsed ∧
            (ss.incoming.take (min limit (bufsz - ss.readBufUsed))).length ≤
              ss.incoming.length := by
          rw [length_take]
          omega
        generalize (ss.incoming.take (min limit (bufsz - ss.readBufUsed))).length = nread at small ⊢
        obtain ⟨before, after, layout, atPos⟩ := frames.layout
        have place : ss.readBufUsed = (before ++ pending).length := by
          rw [frames.used, length_append, atPos]
        have whole : pending ++ ss.incoming.take nread ++ ss.incoming.drop nread =
            pending ++ ss.incoming := by rw [append_assoc, take_append_drop]
        have sized := frames.sized
        rw [layout, length_append] at sized
        refine ⟨0, _, delivered ++ ss.incoming.take nread, pending ++ ss.incoming.take nread, rfl,
          ?_, ⟨before, after.drop nread, ?_, atPos⟩, ?_, ?_, ?_, ?_, fun more => ?_⟩
        · rw [append_assoc, take_append_drop]
          exact frames.split
        · simp only
          rw [layout, place, overwrite_tail, length_take_of_le small.2]
          simp
        · simp only
          rw [layout, place, overwrite_tail]
          simp
          simp at sized place
          omega
        · simp only [frames.used, length_append, length_take_of_le small.2]
          omega
        · simp only [whole]
          exact frames.proper
        · simp only [whole]
          exact frames.short
        · rw [append_assoc, append_assoc]
          exact frames.framed _

theorem Frames.getLine (frames : Frames bufsz stream lines ss delivered pending) :
    ∃ line next pending', getNextLine bufsz ss = .ok (line, next) ∧
      Frames bufsz stream (lines ++ line.toList) next delivered pending' ∧
      (line = none ↔ newline ∉ pending) := by
  obtain ⟨before, after, layout, atPos⟩ := frames.layout
  have used := frames.used
  have unread : (ss.readBuf.take ss.readBufUsed).drop ss.readBufPos = pending := by
    rw [layout, used, ← atPos, ← length_append, take_left, drop_left]
  rw [getNextLine, unread]
  by_cases nothing : ss.readBufPos ≥ ss.readBufUsed
  · obtain rfl : pending = [] := eq_nil_of_length_eq_zero (by omega)
    rw [if_pos nothing]
    refine ⟨none, _, [], rfl, ⟨frames.split, ⟨[], ss.readBuf, rfl, rfl⟩, frames.sized, rfl,
      frames.proper, frames.short, ?_⟩, by simp⟩
    simpa using frames.framed
  · rw [if_neg nothing]
    by_cases broken : newline ∈ pending
    · obtain ⟨line, rest, rfl, unbroken⟩ := eq_append_cons_of_mem broken
      have found : (line ++ newline :: rest).findIdx? (· = newline) = some line.length := by
        rw [findIdx?_append, findIdx?_unbroken unbroken, findIdx?_cons]
        simp
      have proper := frames.proper
      obtain ⟨before', text, sameBefore, sameLine, ended, isLine⟩ :=
        @endLine_spec line before (rest ++ after) fun isNul => proper (by simp [isNul])
      have isBuf : ss.readBuf = before ++ line ++ newline :: (rest ++ after) := by
        simp [layout]
      dsimp only
      rw [found]
      dsimp only
      rw [← atPos, isBuf, ended]
      refine ⟨_, _, rest, rfl, ⟨frames.split, ⟨before' ++ text ++ [nul], after, by simp, ?_⟩, ?_,
        ?_, ?_, ?_, fun more => ?_⟩, by simp⟩
      · simp [sameBefore, sameLine, Nat.add_assoc]
      · have sized := frames.sized
        rw [isBuf] at sized
        simpa [sameBefore, sameLine] using sized
      · simp only [used, ← atPos, length_append, length_cons]
        omega
      · exact fun isNul => proper (by
          rw [mem_append] at isNul ⊢
          exact isNul.imp_left fun inRest => by simp [inRest])
      · have short := frames.short
        rw [append_assoc, cons_append, splitOn_append_cons_self_of_not_mem unbroken] at short
        exact fun piece isPiece => short piece (mem_cons_of_mem _ isPiece)
      · rw [frames.framed, append_assoc line, cons_append, completeLines_line unbroken,
          append_assoc before', ← sameBefore, drop_left, isLine]
        simp
    · have roomLeft : ¬ (ss.readBufPos = 0 ∧ ss.readBufUsed = bufsz) := by
        rintro ⟨atStart, full⟩
        obtain ⟨line, isLine, long⟩ := length_le_line broken ss.incoming
        have short := frames.short line isLine
        omega
      dsimp only
      rw [findIdx?_unbroken broken]
      dsimp only
      rw [if_neg roomLeft]
      have moved := overwrite_tail [] ss.readBuf pending
      rw [nil_append, length_nil, nil_append] at moved
      have sized := frames.sized
      have fits : pending.length ≤ ss.readBuf.length := by
        rw [layout]
        simp
        omega
      refine ⟨none, _, pending, rfl, ⟨frames.split, ⟨[], ss.readBuf.drop pending.length, ?_, rfl⟩,
        ?_, ?_, frames.proper, frames.short, by simpa using frames.framed⟩, by simp [broken]⟩
      · rw [moved, nil_append]
      · rw [moved, length_append, length_drop]
        omega
      · simp only [used]
        omega

theorem Frames.step (frames : Frames bufsz stream lines ss delivered pending) {op : SockOp}
    (allowed : op.Allowed ss) :
    ∃ emitted next, (readMachine bufsz).step ss op = (emitted, .ok next) ∧
      ∃ delivered pending, Frames bufsz stream (lines ++ emitted) next delivered pending := by
  cases op with
  | fill poll =>
    obtain ⟨code, next, delivered, pending, filled, framesNext⟩ := frames.fill allowed
    refine ⟨[], next, ?_, delivered, pending, by rwa [append_nil]⟩
    simp [readMachine, sockStep, filled]
  | getLine =>
    obtain ⟨line, next, pending', got, framesNext, -⟩ := frames.getLine
    refine ⟨line.toList, next, ?_, delivered, pending', framesNext⟩
    simp [readMachine, sockStep, got]

end Runs

end TelegraphCQ.Wrapper
