import TelegraphCQ.Flux.TsbPages

/-!
# The order in which a skew buffer is installed

Whatever the pages are, the installation appends the tuples of one partition after the other
and finishes each partition once.  The pages decide only whether a partition is finished in
the middle of a page, when there is more on it, or at the end of one.
-/

namespace TelegraphCQ.Flux

open Foundation List

variable {Tuple : Type}

inductive InstallAction (Tuple : Type) where
  | tuple (record : TsbRecord Tuple)
  | finish (more : Bool)

def passPart (state : Installing Tuple) : Except TransferFault (Installing Tuple) := do
  checkPart state
  .ok { state with currPart := state.currPart + 1 }

def runAction (state : Installing Tuple) :
    InstallAction Tuple → Except TransferFault (Installing Tuple)
  | .tuple record => .ok (installRecord record state)
  | .finish true => finishPart state
  | .finish false => passPart state

def runActions (actions : List (InstallAction Tuple)) (state : Installing Tuple) :
    Except TransferFault (Installing Tuple) :=
  actions.foldlM runAction state

/-- The actions for what is to come of the current partition and of those after it, when there
are some records left on the page and the pages after it have the given lengths. -/
inductive Schedule : Nat → List Nat → List (TsbRecord Tuple) → List (List (TsbRecord Tuple)) →
    List (InstallAction Tuple) → Prop where
  | tuple {left : Nat} {pages : List Nat} {record : TsbRecord Tuple}
      {records : List (TsbRecord Tuple)} {later : List (List (TsbRecord Tuple))}
      {actions : List (InstallAction Tuple)} :
      Schedule left pages records later actions →
      Schedule (left + 1) pages (record :: records) later (.tuple record :: actions)
  | finish {left : Nat} {pages : List Nat} {records : List (TsbRecord Tuple)}
      {later : List (List (TsbRecord Tuple))} {actions : List (InstallAction Tuple)} :
      Schedule left pages records later actions →
      Schedule left pages [] (records :: later) (.finish (decide (0 < left)) :: actions)
  | page {left : Nat} {pages : List Nat} {record : TsbRecord Tuple}
      {records : List (TsbRecord Tuple)} {later : List (List (TsbRecord Tuple))}
      {actions : List (InstallAction Tuple)} :
      Schedule left pages (record :: records) later actions →
      Schedule 0 (left :: pages) (record :: records) later actions
  | last : Schedule 0 [] [] [] [.finish false]

theorem schedule_records {later : List (List (TsbRecord Tuple))}
    (finished : ∀ left pages, (∀ length ∈ pages, 0 < length) →
      left + pages.sum = (later.map List.length).sum →
      ∃ actions, Schedule left pages [] later actions)
    (records : List (TsbRecord Tuple)) (left : Nat) (pages : List Nat)
    (notEmpty : ∀ length ∈ pages, 0 < length)
    (total : left + pages.sum = records.length + (later.map List.length).sum) :
    ∃ actions, Schedule left pages records later actions := by
  induction records generalizing left pages with
  | nil => exact finished left pages notEmpty (by simpa using total)
  | cons record records ih =>
    rw [length_cons] at total
    cases left with
    | succ left =>
      obtain ⟨actions, schedule⟩ := ih left pages notEmpty (by omega)
      exact ⟨_, .tuple schedule⟩
    | zero =>
      cases pages with
      | nil =>
        rw [sum_nil] at total
        omega
      | cons length pages =>
        have some := notEmpty length mem_cons_self
        rw [sum_cons] at total
        obtain ⟨left, rfl⟩ : ∃ left, length = left + 1 := ⟨length - 1, by omega⟩
        obtain ⟨actions, schedule⟩ := ih left pages
          (fun other isOther => notEmpty other (mem_cons_of_mem _ isOther)) (by omega)
        exact ⟨_, .page (.tuple schedule)⟩

theorem exists_schedule (later : List (List (TsbRecord Tuple))) (records : List (TsbRecord Tuple))
    (left : Nat) (pages : List Nat) (notEmpty : ∀ length ∈ pages, 0 < length)
    (total : left + pages.sum = records.length + (later.map List.length).sum) :
    ∃ actions, Schedule left pages records later actions := by
  refine schedule_records ?_ records left pages notEmpty total
  clear notEmpty total
  intro left pages notEmpty total
  induction later generalizing left pages with
  | nil =>
    rw [map_nil, sum_nil, Nat.add_eq_zero_iff] at total
    obtain ⟨rfl, none⟩ := total
    cases pages with
    | nil => exact ⟨_, .last⟩
    | cons length pages =>
      have some := notEmpty length mem_cons_self
      rw [sum_cons] at none
      omega
  | cons part later ih =>
    obtain ⟨actions, schedule⟩ := schedule_records ih part left pages notEmpty (by simpa using total)
    exact ⟨_, .finish schedule⟩

/-! ## The installation follows its schedule -/

structure Awaits (numParts : Nat) (state : Installing Tuple) (records : List (TsbRecord Tuple))
    (later : List (List (TsbRecord Tuple))) : Prop where
  parts : state.prod.tsb.numParts = numParts
  place : state.currPart + later.length + 1 = numParts
  current : state.counts state.currPart = records.length
  after : ∀ k < later.length,
    state.counts (state.currPart + 1 + k) = ((later.getD k []).length : Int)

theorem appendResultTsb_counts (record : TsbRecord Tuple) (part : Nat) (tsb : Tsb Tuple) :
    (appendResultTsb record part tsb).2.numParts = tsb.numParts ∧
      (appendResultTsb record part tsb).2.counts part ≤ tsb.counts part + 1 := by
  rcases allocEntryWLast_takes part tsb with refused | ⟨a, alloced, ran, takes⟩
  · simp [appendResultTsb, refused]
  · simp [appendResultTsb, ran, Tsb.setEntry, takes.numParts, takes.counts]

variable {numParts : Nat} {state next : Installing Tuple} {record : TsbRecord Tuple}
  {records : List (TsbRecord Tuple)} {later : List (List (TsbRecord Tuple))}

theorem Awaits.installRecord (awaits : Awaits numParts state (record :: records) later) :
    Awaits numParts (Flux.installRecord record state) records later where
  parts := (appendResultTsb_counts _ _ _).1.trans awaits.parts
  place := awaits.place
  current := by
    simp [Flux.installRecord, awaits.current]
  after := fun k inside => by
    rw [← awaits.after k inside]
    exact Function.update_of_ne (by simp only [Flux.installRecord]; omega) _ _

theorem Awaits.advance (awaits : Awaits numParts state [] (records :: later))
    (parts : next.prod.tsb.numParts = state.prod.tsb.numParts)
    (counts : next.counts = state.counts) (place : next.currPart = state.currPart + 1) :
    Awaits numParts next records later := by
  have whole := awaits.place
  rw [length_cons] at whole
  refine ⟨parts.trans awaits.parts, by omega, ?_, ?_⟩
  · rw [counts, place]
    have first := awaits.after 0 (by simp)
    simpa using first
  · intro k inside
    rw [counts, place]
    have some := awaits.after (k + 1) (by simpa using inside)
    rw [getD_cons_succ] at some
    rw [← some]
    congr 1
    omega

theorem finishPart_fields (ran : finishPart state = .ok next) :
    next.prod.tsb.numParts = state.prod.tsb.numParts ∧ next.counts = state.counts ∧
      next.currPart = state.currPart + 1 := by
  unfold finishPart at ran
  cases checked : checkPart state with
  | error fault => simp [checked, bind, Except.bind] at ran
  | ok passed =>
    simp only [checked, bind, Except.bind] at ran
    split_ifs at ran
    · cases ran
      exact ⟨rfl, rfl, rfl⟩
    · unfold returnLastEntTsb at ran
      cases isLast : state.prod.tsb.lastEnts state.currPart with
      | none => simp [isLast] at ran
      | some entry =>
        simp only [isLast, Except.ok.injEq] at ran
        cases ran
        exact ⟨rfl, rfl, rfl⟩

theorem passPart_fields (ran : passPart state = .ok next) :
    next.prod = state.prod ∧ next.counts = state.counts ∧ next.currPart = state.currPart + 1 := by
  unfold passPart at ran
  cases checked : checkPart state with
  | error fault => simp [checked, bind, Except.bind] at ran
  | ok passed =>
    simp only [checked, bind, Except.bind, Except.ok.injEq] at ran
    cases ran
    exact ⟨rfl, rfl, rfl⟩

section Movement

variable (tLen : Tuple → Nat) (bsize : Nat) (source : Producer Tuple)

def finishMove (actions : List (InstallAction Tuple)) (state : Installing Tuple) :
    Except TransferFault (Producer Tuple) :=
  runActions actions state >>= fun state => adjustTsbPointers state.metaData state.prod

def afterPage (pages : Nat) (smcb : SerCursor) (state : Installing Tuple) :
    Except TransferFault (Producer Tuple) :=
  if smcb.currPart < source.tsb.numParts then
    if state.currPart < state.prod.tsb.numParts then
      movePages tLen bsize source pages smcb state
    else .error .outOfStep
  else if state.currPart < state.prod.tsb.numParts then .error .outOfStep
  else adjustTsbPointers state.metaData state.prod

/-- The rest of the movement, from within the loop over a page. -/
def restOfMove (pages : Nat) (smcb : SerCursor) (rounds : Nat) (page : List (TsbRecord Tuple))
    (state : Installing Tuple) : Except TransferFault (Producer Tuple) := do
  let state ← deserTuplesLoop rounds page state
  let state ← passFinished (state.prod.tsb.numParts + 1) state
  afterPage tLen bsize source pages smcb state

def restAfterPage (pages : Nat) (smcb : SerCursor) (rounds : Nat) (state : Installing Tuple) :
    Except TransferFault (Producer Tuple) := do
  let state ← passFinished rounds state
  afterPage tLen bsize source pages smcb state

variable {tLen bsize source} {cells : Nat → List Nat}

structure Remains (tLen : Tuple → Nat) (bsize : Nat) (source : Producer Tuple)
    (cells : Nat → List Nat) (pages : Nat) (smcb : SerCursor) (page : List (TsbRecord Tuple))
    (lengths : List Nat) (records : List (TsbRecord Tuple))
    (later : List (List (TsbRecord Tuple))) : Prop where
  left : ∃ left, Stands source.tsb source.fmasks cells smcb left ∧
    (smcb.currPart < source.tsb.numParts ↔ left ≠ []) ∧
    records ++ later.flatten = page ++ left.map source.tsb.recordAt ∧
    lengths = (if left = [] then []
      else pageLengths bsize 4 0 (left.map (sizeAt tLen source.tsb))) ∧
    ∀ a ∈ left, 4 + sizeAt tLen source.tsb a < bsize
  enough : lengths.length ≤ pages

theorem runActions_cons (action : InstallAction Tuple) (actions : List (InstallAction Tuple))
    (state : Installing Tuple) :
    runActions (action :: actions) state = runAction state action >>= runActions actions :=
  foldlM_cons

theorem finishMove_cons (action : InstallAction Tuple) (actions : List (InstallAction Tuple))
    (state : Installing Tuple) :
    finishMove (action :: actions) state = runAction state action >>= finishMove actions := by
  rw [finishMove, runActions_cons, bind_assoc]
  rfl

variable {pages : Nat} {smcb : SerCursor} {page : List (TsbRecord Tuple)}

theorem restOfMove_nil (rounds : Nat) (state : Installing Tuple) :
    restOfMove tLen bsize source pages smcb (rounds + 1) [] state =
      restAfterPage tLen bsize source pages smcb (state.prod.tsb.numParts + 1) state := rfl

theorem restOfMove_record (rounds : Nat) (page : List (TsbRecord Tuple))
    (awaits : Awaits numParts state (record :: records) later) (other : TsbRecord Tuple) :
    restOfMove tLen bsize source pages smcb (rounds + 1) (other :: page) state =
      restOfMove tLen bsize source pages smcb rounds page (installRecord other state) := by
  have place := awaits.place
  have parts := awaits.parts
  have some : ¬ state.counts state.currPart = 0 := by
    rw [awaits.current, length_cons]
    omega
  rw [restOfMove, deserTuplesLoop, if_neg (by omega), if_neg some]
  rfl

theorem restOfMove_finish (rounds : Nat) (page : List (TsbRecord Tuple))
    (awaits : Awaits numParts state [] later) (other : TsbRecord Tuple) :
    restOfMove tLen bsize source pages smcb (rounds + 1) (other :: page) state =
      finishPart state >>= restOfMove tLen bsize source pages smcb rounds (other :: page) := by
  have place := awaits.place
  have parts := awaits.parts
  rw [restOfMove, deserTuplesLoop, if_neg (by omega), if_pos (by simpa using awaits.current)]
  cases finishPart state with
  | error fault => rfl
  | ok next => rfl

theorem restAfterPage_pass (rounds : Nat) (awaits : Awaits numParts state [] later) :
    restAfterPage tLen bsize source pages smcb (rounds + 1) state =
      passPart state >>= restAfterPage tLen bsize source pages smcb rounds := by
  have place := awaits.place
  have parts := awaits.parts
  rw [restAfterPage, passFinished, if_pos ⟨by omega, by simpa using awaits.current⟩, passPart]
  cases checkPart state with
  | error fault => rfl
  | ok passed => rfl

theorem movePages_eq {next : SerCursor}
    (extracted : serTsbTuples tLen source.tsb source.fmasks bsize smcb = .ok (next, page)) :
    movePages tLen bsize source (pages + 1) smcb state =
      restOfMove tLen bsize source pages next (page.length + state.prod.tsb.numParts + 1) page
        state := by
  rw [movePages, extracted]
  simp only [bind, Except.bind, deserTsbTuples, restOfMove]
  cases deserTuplesLoop (page.length + state.prod.tsb.numParts + 1) page state with
  | error fault => rfl
  | ok installed =>
    simp only
    cases passFinished (installed.prod.tsb.numParts + 1) installed with
    | error fault => rfl
    | ok passed => rfl

variable (listed : ∀ part < source.tsb.numParts,
  Listed source.tsb (source.fmasks part) part (cells part))

variable {lengths : List Nat}

include listed in
theorem turn_page {left : List Nat} {length : Nat} {fewer : Nat}
    (stands : Stands source.tsb source.fmasks cells smcb left)
    (split : records ++ later.flatten = left.map source.tsb.recordAt)
    (fits : ∀ a ∈ left, 4 + sizeAt tLen source.tsb a < bsize)
    (isLengths : length :: lengths = pageLengths bsize 4 0 (left.map (sizeAt tLen source.tsb)))
    (enough : lengths.length ≤ fewer) : ∃ next page, page.length = length ∧
      serTsbTuples tLen source.tsb source.fmasks bsize smcb = .ok (next, page) ∧
      Remains tLen bsize source cells fewer next page lengths records later := by
  rw [pageLengths_eq _ _ _ (by simpa using fits)] at isLengths
  obtain ⟨isLength, isRest⟩ := List.cons.inj isLengths
  rw [Nat.zero_add] at isLength
  obtain ⟨next, extracted, standsNext, isNext⟩ :=
    @serTsbTuples_eq _ tLen _ _ _ bsize listed smcb left stands
  rw [← isLength] at extracted standsNext isNext
  have short : length ≤ left.length := by
    rw [isLength]
    simpa using fitting_le 4 (left.map (sizeAt tLen source.tsb))
  refine ⟨next, (left.take length).map source.tsb.recordAt, by simpa using short, extracted,
    ⟨left.drop length, standsNext, isNext, ?_, ?_, ?_⟩, enough⟩
  · rw [split, ← map_append, take_append_drop]
  · rw [isRest, ← isLength]
    by_cases all : length < left.length
    · rw [if_pos (by simpa using all), if_neg (by simpa using all), map_drop]
    · rw [if_neg (by simpa using all), if_pos (by simpa using Nat.le_of_not_lt all)]
  · exact fun a isCell => fits a (mem_of_mem_drop isCell)

include listed in
theorem restAfterPage_page {pages length rounds : Nat} {lengths : List Nat} {smcb : SerCursor}
    (remains : Remains tLen bsize source cells pages smcb [] (length :: lengths)
      (record :: records) later)
    (awaits : Awaits source.tsb.numParts state (record :: records) later) :
    ∃ next page fewer, page.length = length ∧
      Remains tLen bsize source cells fewer next page lengths (record :: records) later ∧
      restAfterPage tLen bsize source pages smcb (rounds + 1) state =
        restOfMove tLen bsize source fewer next
          (page.length + state.prod.tsb.numParts + 1) page state := by
  obtain ⟨⟨left, stands, isLeft, split, isLengths, fits⟩, enough⟩ := remains
  have place := awaits.place
  have parts := awaits.parts
  have some : left ≠ [] := by
    rintro rfl
    simp at split
  rw [if_neg some] at isLengths
  obtain ⟨fewer, rfl⟩ : ∃ fewer, pages = fewer + 1 := ⟨pages - 1, by simp at enough; omega⟩
  obtain ⟨next, page, onPage, extracted, remainsNext⟩ :=
    turn_page listed stands split fits isLengths (by simpa using enough)
  refine ⟨next, page, fewer, onPage, remainsNext, ?_⟩
  have waiting : ¬ (state.currPart < state.prod.tsb.numParts ∧
      state.counts state.currPart = 0) := by
    rw [awaits.current, length_cons]
    omega
  rw [restAfterPage, passFinished, if_neg waiting]
  have inside : smcb.currPart < source.tsb.numParts := isLeft.mpr some
  have insideToo : state.currPart < state.prod.tsb.numParts := by omega
  have begins : afterPage tLen bsize source (fewer + 1) smcb state =
      movePages tLen bsize source (fewer + 1) smcb state := by
    rw [afterPage, if_pos inside, if_pos insideToo]
  exact begins.trans (movePages_eq extracted)

def Finishes (tLen : Tuple → Nat) (bsize : Nat) (source : Producer Tuple) (pages : Nat)
    (smcb : SerCursor) (state : Installing Tuple) (later : List (List (TsbRecord Tuple)))
    (actions : List (InstallAction Tuple)) : Prop :=
  ∀ rounds, later.length + 1 < rounds →
    restAfterPage tLen bsize source pages smcb rounds state = finishMove actions state

variable {actions : List (InstallAction Tuple)}

theorem restOfMove_of_finishes (awaits : Awaits source.tsb.numParts state records later)
    (after : Finishes tLen bsize source pages smcb state later actions) (rounds : Nat)
    (enough : 0 + later.length + 1 < rounds) :
    restOfMove tLen bsize source pages smcb rounds [] state = finishMove actions state := by
  obtain ⟨rounds, rfl⟩ : ∃ fewer, rounds = fewer + 1 := ⟨rounds - 1, by omega⟩
  have place := awaits.place
  have parts := awaits.parts
  rw [restOfMove_nil]
  exact after _ (by omega)

include listed in
theorem movement_eq {left : Nat}
    (schedule : Schedule left lengths records later actions) (onPage : page.length = left)
    (remains : Remains tLen bsize source cells pages smcb page lengths records later)
    (awaits : Awaits source.tsb.numParts state records later) :
    (∀ rounds, left + later.length + 1 < rounds →
      restOfMove tLen bsize source pages smcb rounds page state = finishMove actions state) ∧
    (left = 0 → Finishes tLen bsize source pages smcb state later actions) := by
  induction schedule generalizing page smcb pages state with
  | @tuple left lengths record records later actions schedule ih =>
    obtain ⟨other, page, rfl⟩ := exists_of_length_succ page onPage
    obtain ⟨⟨leftCells, stands, isLeft, split, isLengths, fits⟩, enough⟩ := remains
    obtain ⟨rfl, splitRest⟩ := List.cons.inj split
    have remainsNext : Remains tLen bsize source cells pages smcb page lengths records later :=
      ⟨⟨leftCells, stands, isLeft, splitRest, isLengths, fits⟩, enough⟩
    have rest := ih (by simpa using onPage) remainsNext awaits.installRecord
    refine ⟨fun rounds enoughRounds => ?_, fun none => by omega⟩
    obtain ⟨rounds, rfl⟩ : ∃ fewer, rounds = fewer + 1 := ⟨rounds - 1, by omega⟩
    rw [restOfMove_record rounds page awaits, finishMove_cons]
    exact rest.1 rounds (by omega)
  | @finish left lengths records later actions schedule ih =>
    have place := awaits.place
    have parts := awaits.parts
    rw [length_cons] at place
    have remainsNext : Remains tLen bsize source cells pages smcb page lengths records later :=
      ⟨remains.left, remains.enough⟩
    have after : left = 0 → Finishes tLen bsize source pages smcb state (records :: later)
        (.finish (decide (0 < left)) :: actions) := by
      intro none rounds enoughRounds
      rw [length_cons] at enoughRounds
      obtain ⟨rounds, rfl⟩ : ∃ fewer, rounds = fewer + 1 := ⟨rounds - 1, by omega⟩
      rw [restAfterPage_pass rounds awaits, finishMove_cons, none]
      simp only [lt_irrefl, decide_false, runAction]
      cases passed : passPart state with
      | error fault => rfl
      | ok next =>
        obtain ⟨sameProd, sameCounts, isNext⟩ := passPart_fields passed
        have awaitsNext := awaits.advance (by rw [sameProd]) sameCounts isNext
        exact (ih onPage remainsNext awaitsNext).2 none rounds (by omega)
    refine ⟨fun rounds enoughRounds => ?_, after⟩
    cases left with
    | zero =>
      rw [length_eq_zero_iff.mp onPage]
      exact restOfMove_of_finishes awaits (after rfl) rounds enoughRounds
    | succ left =>
      obtain ⟨other, page, rfl⟩ := exists_of_length_succ page onPage
      rw [length_cons] at enoughRounds
      obtain ⟨rounds, rfl⟩ : ∃ fewer, rounds = fewer + 1 := ⟨rounds - 1, by omega⟩
      rw [restOfMove_finish rounds page awaits other, finishMove_cons]
      simp only [Nat.succ_pos, decide_true, runAction]
      cases finished : finishPart state with
      | error fault => rfl
      | ok next =>
        obtain ⟨sameParts, sameCounts, isNext⟩ := finishPart_fields finished
        have awaitsNext := awaits.advance sameParts sameCounts isNext
        exact (ih onPage remainsNext awaitsNext).1 rounds (by omega)
  | @page left lengths record records later actions schedule ih =>
    obtain rfl := length_eq_zero_iff.mp onPage
    have after : Finishes tLen bsize source pages smcb state later actions := by
      intro rounds enoughRounds
      obtain ⟨rounds, rfl⟩ : ∃ fewer, rounds = fewer + 1 := ⟨rounds - 1, by omega⟩
      obtain ⟨next, page, fewer, onNext, remainsNext, moved⟩ :=
        @restAfterPage_page _ state record records later tLen bsize source cells listed pages
          left rounds lengths smcb remains awaits
      have place := awaits.place
      have parts := awaits.parts
      rw [moved]
      exact (ih onNext remainsNext awaits).1 _ (by omega)
    exact ⟨restOfMove_of_finishes awaits after, fun _ => after⟩
  | last =>
    obtain rfl := length_eq_zero_iff.mp onPage
    have after : Finishes tLen bsize source pages smcb state [] [.finish false] := by
      intro rounds enoughRounds
      rw [length_nil] at enoughRounds
      obtain ⟨rounds, rfl⟩ : ∃ fewer, rounds = fewer + 2 := ⟨rounds - 2, by omega⟩
      rw [restAfterPage_pass _ awaits, finishMove_cons]
      simp only [runAction]
      cases passed : passPart state with
      | error fault => rfl
      | ok next =>
        obtain ⟨sameProd, sameCounts, isNext⟩ := passPart_fields passed
        have place := awaits.place
        have parts := awaits.parts
        obtain ⟨left, -, isLeft, split, -, -⟩ := remains.left
        have pastLast : ¬ smcb.currPart < source.tsb.numParts := by
          rw [isLeft, not_not]
          simpa using split
        have overToo : ¬ next.currPart < next.prod.tsb.numParts := by
          rw [sameProd, isNext]
          simp at place
          omega
        have passedAll : passFinished (rounds + 1) next = .ok next := by
          rw [passFinished, if_neg (fun both => overToo both.1)]
        simp only [bind, Except.bind, restAfterPage, passedAll, afterPage, if_neg pastLast,
          if_neg overToo]
        rfl
    exact ⟨restOfMove_of_finishes awaits after, fun _ => after⟩

def startInstall (sending : Client → Nat → Bool) (source target : Producer Tuple) :
    Installing Tuple where
  prod :=
    { target with
      fmasks := fun part => flipTsbMask (source.fmasks part)
      scanslot := source.scanslot.or target.scanslot }
  metaData :=
    { scantuple := source.scanslot
      maxSize := source.tsb.maxSize
      size := source.tsb.size
      numParts := source.tsb.numParts
      fmasks := source.fmasks
      counts := source.tsb.counts
      lents := fun part => (source.tsb.lastEnts part).isSome
      ack := fun client part =>
        if client.other = .produced ∨ client.other ∈ source.fmasks part then
          (source.tsb.heap (source.tsb.ack client.other part)).seqnum
        else -1
      head := fun client part =>
        if client.other ∈ source.fmasks part ∧ sending client.other part = true then
          (source.tsb.heap (source.head client.other part)).seqnum
        else -1 }
  counts := source.tsb.counts
  currPart := 0

def partRecords (source : Producer Tuple) (cells : Nat → List Nat) (part : Nat) :
    List (TsbRecord Tuple) :=
  (cells part).map source.tsb.recordAt

def moveLengths (tLen : Tuple → Nat) (bsize : Nat) (source : Producer Tuple)
    (cells : Nat → List Nat) : List Nat :=
  pageLengths bsize 4 0 ((cellsFrom cells source.tsb.numParts 0).map (sizeAt tLen source.tsb))

theorem pageLengths_notEmpty {sizes : List Nat} {first : Nat}
    (fits : ∀ size ∈ sizes, 4 + size < bsize) (more : first < sizes.length) :
    ∀ length ∈ pageLengths bsize 4 0 (sizes.drop first), 0 < length := by
  obtain ⟨size, rest, split⟩ := exists_cons_of_ne_nil
    (fun none => absurd (drop_eq_nil_iff.mp none) (Nat.not_le_of_lt more))
  have isSize : size ∈ sizes := mem_of_mem_drop (split ▸ mem_cons_self)
  rw [split, pageLengths, if_pos (fits size isSize)]
  exact pageLengths_pos Nat.one_pos _ _

include listed in
theorem startInstall_awaits {sending : Client → Nat → Bool} {target : Producer Tuple}
    (some : 0 < source.tsb.numParts) (sameParts : source.tsb.numParts = target.tsb.numParts) :
    Awaits source.tsb.numParts (startInstall sending source target)
      (partRecords source cells 0)
      ((List.range' 1 (source.tsb.numParts - 1)).map (partRecords source cells)) := by
  refine ⟨sameParts.symm, by simp [startInstall]; omega, ?_, fun k inside => ?_⟩
  · rw [partRecords, length_map]
    exact (listed 0 some).count
  · rw [length_map, length_range'] at inside
    have isPart : (((List.range' 1 (source.tsb.numParts - 1)).map
        (partRecords source cells)).getD k []) = partRecords source cells (1 + k) := by
      simp [List.getD, inside]
    rw [isPart, partRecords, length_map, startInstall]
    simpa using (listed (1 + k) (by omega)).count

include listed in
theorem moveState_eq {sending : Client → Nat → Bool} {target : Producer Tuple}
    (some : 0 < source.tsb.numParts) (sameSize : source.tsb.maxSize = target.tsb.maxSize)
    (sameParts : source.tsb.numParts = target.tsb.numParts) (space : mdSize tLen source < bsize)
    (fits : ∀ part < source.tsb.numParts, ∀ a ∈ cells part, 4 + sizeAt tLen source.tsb a < bsize) :
    ∃ first lengths actions, moveLengths tLen bsize source cells = first :: lengths ∧
      Schedule first lengths (partRecords source cells 0)
        ((List.range' 1 (source.tsb.numParts - 1)).map (partRecords source cells)) actions ∧
      moveState tLen sending bsize source target =
        runActions actions (startInstall sending source target) >>=
          fun state => adjustTsbPointers state.metaData state.prod := by
  have all : ∀ a ∈ cellsFrom cells source.tsb.numParts 0, 4 + sizeAt tLen source.tsb a < bsize := by
    intro a isCell
    obtain ⟨part, isPart, inPart⟩ := mem_flatMap.mp isCell
    exact fits part (by simpa using isPart) a inPart
  generalize isAll : cellsFrom cells source.tsb.numParts 0 = left at all
  have records : partRecords source cells 0 ++
      ((List.range' 1 (source.tsb.numParts - 1)).map (partRecords source cells)).flatten =
      left.map source.tsb.recordAt := by
    rw [← isAll, cellsFrom_eq cells some, map_append, cellsFrom, map_flatMap]
    rfl
  have stands : Stands source.tsb source.fmasks cells ⟨0, none⟩ left :=
    .inr ⟨cells 0, Listed.atStart listed some, by rw [← isAll, cellsFrom_eq cells some]⟩
  have total := @sum_pageLengths bsize 4 0 (left.map (sizeAt tLen source.tsb))
  obtain ⟨first, lengths, isLengths, notEmpty⟩ : ∃ first lengths,
      first :: lengths = pageLengths bsize 4 0 (left.map (sizeAt tLen source.tsb)) ∧
      ∀ length ∈ lengths, 0 < length := by
    refine ⟨_, _, (pageLengths_eq 4 0 _ (by simpa using all)).symm, ?_⟩
    split_ifs with more
    · exact pageLengths_notEmpty (by simpa using all) more
    · simp
  rw [← isLengths, sum_cons, Nat.zero_add, length_map] at total
  have count := congrArg List.length records
  rw [length_append, length_flatten, length_map] at count
  obtain ⟨actions, schedule⟩ := exists_schedule
    ((List.range' 1 (source.tsb.numParts - 1)).map (partRecords source cells))
    (partRecords source cells 0) first lengths notEmpty (by omega)
  refine ⟨first, lengths, actions, by rw [moveLengths, isAll, isLengths], schedule, ?_⟩
  have whole := length_cellsFrom_le cells (Nat.zero_le source.tsb.numParts)
  rw [isAll, ← sum_counts listed] at whole
  have enough : lengths.length ≤ lengths.sum := length_le_sum_of_one_le _ notEmpty
  obtain ⟨pages, isRounds⟩ : ∃ pages, source.tsb.rounds = pages + 1 := ⟨_, rfl⟩
  obtain ⟨next, page, onPage, extracted, remains⟩ := turn_page listed stands records all isLengths
    (show lengths.length ≤ pages by rw [Tsb.rounds] at isRounds; omega)
  have awaits := @startInstall_awaits _ source cells listed sending target some sameParts
  have started : moveState tLen sending bsize source target =
      movePages tLen bsize source (pages + 1) ⟨0, none⟩
        (startInstall sending source target) := by
    rw [moveState, serTsbMetaData, if_neg (not_not.mpr space), isRounds]
    simp [bind, Except.bind, deserTsbMetaData, startInstall, sameSize, sameParts]
  rw [started, movePages_eq extracted]
  refine (movement_eq listed schedule onPage remains awaits).1 _ ?_
  have parts : (startInstall sending source target).prod.tsb.numParts = source.tsb.numParts :=
    sameParts.symm
  rw [parts, length_map, length_range', onPage]
  omega

end Movement

end TelegraphCQ.Flux
