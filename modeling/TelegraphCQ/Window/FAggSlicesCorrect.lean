import Mathlib.Data.List.Pairwise
import TelegraphCQ.Window.FAggSlices

/-!
# Slices of the sliced aggregate node

The `n`-th slice of a stream has the tuples from one edge to the next.  What the `n`-th
run of the aggregation plan pulls is the slice as soon as some run has had a result.  Up
to then the live list is never cleared, and the run pulls everything before the edge.
-/

namespace TelegraphCQ.Window

open Foundation List

section Slices

variable {Tuple Result : Type} (cycle : Cycle) (startAt : Int) (getTS : Tuple → Int)
  (plan : List Tuple → List Result) (stream : List Tuple)

def tuplesBefore (n : Nat) : List Tuple :=
  stream.filter fun tuple => getTS tuple < cycle.edge startAt n

def sliceOf (n : Nat) : List Tuple :=
  stream.filter fun tuple =>
    cycle.edge startAt n ≤ getTS tuple ∧ getTS tuple < cycle.edge startAt (n + 1)

def described : Nat → Bool
  | 0 => false
  | n + 1 => described n ||
      !(plan (if described n then sliceOf cycle startAt getTS stream n
        else tuplesBefore cycle startAt getTS stream (n + 1))).isEmpty

def pulledBy (n : Nat) : List Tuple :=
  if described cycle startAt getTS plan stream n then sliceOf cycle startAt getTS stream n
  else tuplesBefore cycle startAt getTS stream (n + 1)

def SliceEnded (n : Nat) : Prop :=
  ∃ tuple ∈ stream, cycle.edge startAt (n + 1) ≤ getTS tuple

theorem described_succ (n : Nat) : described cycle startAt getTS plan stream (n + 1) =
      (described cycle startAt getTS plan stream n ||
        !(plan (pulledBy cycle startAt getTS plan stream n)).isEmpty) := rfl

structure Cut (n : Nat) (past current waiting : List Tuple) : Prop where
  all : past ++ current ++ waiting = stream
  past : ∀ tuple ∈ past, getTS tuple < cycle.edge startAt n
  current : ∀ tuple ∈ current, cycle.edge startAt n ≤ getTS tuple ∧
    getTS tuple < cycle.edge startAt (n + 1)
  waiting : ∀ tuple ∈ waiting, cycle.edge startAt n ≤ getTS tuple

variable {cycle startAt getTS plan stream} {n : Nat} {past current waiting : List Tuple}

variable {tuple : Tuple} {node : FAggSlices Tuple Result} {pending rest : List Tuple}
  {iiht : Option Tuple} {k : Nat}

theorem Cut.file (cut : Cut cycle startAt getTS stream n past current (tuple :: waiting))
    (within : getTS tuple < cycle.edge startAt (n + 1)) :
    Cut cycle startAt getTS stream n past (current ++ [tuple]) waiting := by
  refine ⟨?_, cut.past, ?_, fun other mem => cut.waiting other (mem_cons_of_mem _ mem)⟩
  · rw [← cut.all]
    simp
  · exact forall_mem_append.mpr ⟨cut.current,
      forall_mem_singleton.mpr ⟨cut.waiting tuple mem_cons_self, within⟩⟩

theorem Cut.waiting_past (cut : Cut cycle startAt getTS stream n past current (tuple :: waiting))
    (sorted : stream.Pairwise fun first second => getTS first ≤ getTS second)
    (beyond : cycle.edge startAt (n + 1) ≤ getTS tuple) :
    ∀ other ∈ tuple :: waiting, cycle.edge startAt (n + 1) ≤ getTS other := by
  rw [← cut.all] at sorted
  have tail := (pairwise_append.mp sorted).2.1
  exact forall_mem_cons.mpr ⟨beyond, fun other later =>
    le_trans beyond ((pairwise_cons.mp tail).1 other later)⟩

theorem Cut.advance (cut : Cut cycle startAt getTS stream n past current waiting)
    (beyond : ∀ tuple ∈ waiting, cycle.edge startAt (n + 1) ≤ getTS tuple) :
    Cut cycle startAt getTS stream (n + 1) (past ++ current) [] waiting := by
  refine ⟨by rw [append_nil, cut.all], ?_, by simp, beyond⟩
  exact forall_mem_append.mpr ⟨fun tuple inPast =>
      lt_trans (cut.past tuple inPast) (cycle.edge_strictMono startAt n.lt_succ_self),
    fun tuple inCurrent => (cut.current tuple inCurrent).2⟩

section

variable (cut : Cut cycle startAt getTS stream n past current waiting)
include cut

section

variable (beyond : ∀ tuple ∈ waiting, cycle.edge startAt (n + 1) ≤ getTS tuple)
include beyond

theorem Cut.tuplesBefore_eq :
    tuplesBefore cycle startAt getTS stream (n + 1) = past ++ current := by
  have none_ : waiting.filter (fun tuple =>
      decide (getTS tuple < cycle.edge startAt (n + 1))) = [] := by
    rw [filter_eq_nil_iff]
    intro tuple mem
    simpa using beyond tuple mem
  have all : (past ++ current).filter (fun tuple =>
      decide (getTS tuple < cycle.edge startAt (n + 1))) = past ++ current := by
    rw [filter_eq_self]
    intro tuple mem
    simpa using (cut.advance beyond).past tuple mem
  rw [tuplesBefore, ← cut.all, filter_append, all, none_, append_nil]

theorem Cut.sliceOf_eq : sliceOf cycle startAt getTS stream n = current := by
  have before : past.filter (fun tuple => decide (cycle.edge startAt n ≤ getTS tuple ∧
      getTS tuple < cycle.edge startAt (n + 1))) = [] := by
    rw [filter_eq_nil_iff]
    intro tuple mem
    have := cut.past tuple mem
    simp only [decide_eq_true_eq, not_and]
    omega
  have after : waiting.filter (fun tuple => decide (cycle.edge startAt n ≤ getTS tuple ∧
      getTS tuple < cycle.edge startAt (n + 1))) = [] := by
    rw [filter_eq_nil_iff]
    intro tuple mem
    have := beyond tuple mem
    simp only [decide_eq_true_eq, not_and]
    omega
  have all : current.filter (fun tuple => decide (cycle.edge startAt n ≤ getTS tuple ∧
      getTS tuple < cycle.edge startAt (n + 1))) = current := by
    rw [filter_eq_self]
    intro tuple mem
    simpa using cut.current tuple mem
  rw [sliceOf, ← cut.all, filter_append, filter_append, before, all, after]
  simp

theorem Cut.pulledBy_eq : pulledBy cycle startAt getTS plan stream n =
      if described cycle startAt getTS plan stream n then current else past ++ current := by
  rw [pulledBy, cut.sliceOf_eq beyond, cut.tuplesBefore_eq beyond]

end

end

/-! ## One call of the node -/

theorem slicedWindowAdvance_at (n : Nat) :
    slicedWindowAdvance ⟨cycle.widths, cycle.place n, cycle.edge startAt (n + 1)⟩ =
      .ok ⟨cycle.widths, cycle.place (n + 1), cycle.edge startAt (n + 2)⟩ := by
  have next := cycle.place_succ n
  rw [cycle.place_eq (n + 1)] at next
  simp only [slicedWindowAdvance, ← next]
  rw [cycle.place_eq (n + 1)]
  rfl

theorem pullWindow_eq (tuples : List Tuple) (node : FAggSlices Tuple Result)
    (cur : node.liveTuplesCur = tuples) (running : node.state = .runningAgg) :
    pullWindow tuples node =
      .ok (tuples, { node with state := .finishingAgg, liveTuplesCur := [] }) := by
  induction tuples generalizing node with
  | nil =>
    simp only [pullWindow, execFAggSlices, running, cur, if_true]
    rfl
  | cons tuple tuples ih =>
    have rest := ih { node with liveTuplesCur := tuples } rfl running
    simp only [pullWindow, execFAggSlices, running, cur, if_true, bind, Except.bind]
    rw [running] at rest
    simp [rest, pure, Except.pure]

theorem faggScheduleSlices_started {node : FAggSlices Tuple Result}
    (running : node.state = .runningAgg) (fresh : node.aggPlan = none) :
    faggScheduleSlices plan node = match plan node.liveTuplesCur with
      | value :: rest =>
        ([.pulled node.wtime node.liveTuplesCur, .result value], .ok { node with
            state := .finishingAgg, liveTuplesCur := [], outputTdesc := true
            aggPlan := some rest })
      | [] =>
        if node.outputTdesc then
          ([.pulled node.wtime node.liveTuplesCur, .punct node.nextSlideTime], .ok { node with
              state := .punctuating, liveTuplesCur := [], aggPlan := some [] })
        else
          ([.pulled node.wtime node.liveTuplesCur],
            .ok { node with state := .reading, liveTuplesCur := [], aggPlan := none }) := by
  have pulled := pullWindow_eq node.liveTuplesCur node rfl running
  simp only [faggScheduleSlices, execAggPlan, fresh, pulled]
  cases given : plan node.liveTuplesCur with
  | nil =>
    cases node.outputTdesc <;> rfl
  | cons value rest => rfl

theorem fileTuple_before (before : getTS tuple < node.swstate.nextEdge) :
    fileTuple (getTS tuple) tuple node = .ok (addToLiveList tuple node) := by
  simp only [fileTuple, not_le.mpr before, if_false]
  rfl

theorem fileTuple_past
    (swstate : node.swstate = ⟨cycle.widths, cycle.place n, cycle.edge startAt (n + 1)⟩)
    (beyond : cycle.edge startAt (n + 1) ≤ getTS tuple) : fileTuple (getTS tuple) tuple node =
      .ok { node with
        wtime := cycle.edge startAt (n + 1)
        liveTuplesCur := node.liveTuples
        state := .runningAgg
        swstate := ⟨cycle.widths, cycle.place (n + 1), cycle.edge startAt (n + 2)⟩
        nextSlideTime := cycle.edge startAt (n + 2)
        pending := tuple :: node.pending } := by
  simp only [fileTuple, swstate, beyond, if_true, slicedWindowAdvance_at]
  rfl

theorem addNewTupleSlices_eq (accepts : node.state.AcceptsInput)
    (taken : nextTuple iiht node.pending = .ok (tuple, pending))
    (started : node.startAt ≤ getTS tuple) : addNewTupleSlices getTS iiht node =
      fileTuple (getTS tuple) tuple { node with pending := pending, state := .reading } := by
  rcases accepts with before | reading
  · simp [addNewTupleSlices, taken, before, started, bind, Except.bind]
  · simp [addNewTupleSlices, taken, reading, bind, Except.bind]

theorem processNextFAggSlices_take {filed : FAggSlices Tuple Result}
    (accepts : node.state.AcceptsInput) (taken : nextTuple iiht node.pending = .ok (tuple, pending))
    (added : addNewTupleSlices getTS iiht node = .ok filed)
    (phase : filed.state = .reading ∨ filed.state = .runningAgg) :
    processNextFAggSlices getTS plan iiht node =
      if filed.state = .runningAgg then faggScheduleSlices plan filed else ([], .ok filed) := by
  cases iiht with
  | some given =>
    simp only [processNextFAggSlices, added]
    rcases phase with reading | running
    · simp [processStateSlices, reading]
    · simp [processStateSlices, running]
  | none =>
    have some_ : node.pending ≠ [] := by
      intro none_
      rw [none_] at taken
      cases taken
    simp only [processNextFAggSlices]
    rcases accepts with before | reading
    · simp [processStateSlices, before, some_, added]
    · simp [processStateSlices, reading, some_, added]

/-! ## Runs -/

variable (cycle startAt getTS plan stream) in
def InPhase (n : Nat) (past current : List Tuple) (node : FAggSlices Tuple Result) : Prop :=
  match node.state with
  | .beforeStart | .reading =>
    node.liveTuples = (if described cycle startAt getTS plan stream n then current
      else past ++ current) ∧ node.aggPlan = none
  | .runningAgg => False
  | .finishingAgg =>
    current = [] ∧ described cycle startAt getTS plan stream n = true ∧
      node.aggPlan.isSome = true
  | .punctuating => current = [] ∧ described cycle startAt getTS plan stream n = true

variable (cycle startAt getTS plan stream) in
/-- The node has made `n` runs, with what they have to pull. -/
structure Follows (n : Nat) (past current : List Tuple)
    (outs : List (SlicesOut Tuple Result)) (feed : SlicesFeed Tuple Result) : Prop where
  cut : Cut cycle startAt getTS stream n past current (feed.node.pending ++ feed.stream)
  start : feed.node.startAt = startAt
  swstate : feed.node.swstate =
    ⟨cycle.widths, cycle.place n, cycle.edge startAt (n + 1)⟩
  tdesc : feed.node.outputTdesc = described cycle startAt getTS plan stream n
  pulled : pulledRuns outs = (List.range n).map (pulledBy cycle startAt getTS plan stream)
  ended : ∀ k < n, SliceEnded cycle startAt getTS stream k
  phase : InPhase cycle startAt getTS plan stream n past current feed.node

variable {outs : List (SlicesOut Tuple Result)} {feed : SlicesFeed Tuple Result}

theorem pulledRuns_append (left right : List (SlicesOut Tuple Result)) :
    pulledRuns (left ++ right) = pulledRuns left ++ pulledRuns right := by
  simp [pulledRuns]

variable (follows : Follows cycle startAt getTS plan stream n past current outs feed)
  (sorted : stream.Pairwise fun first second => getTS first ≤ getTS second)

include follows in
theorem Follows.accepting (accepts : feed.node.state.AcceptsInput) :
    feed.node.liveTuples = (if described cycle startAt getTS plan stream n then current
        else past ++ current) ∧ feed.node.aggPlan = none := by
  have phase := follows.phase
  rcases accepts with before | reading
  · simpa [InPhase, before] using phase
  · simpa [InPhase, reading] using phase

include follows in
theorem Follows.started (mem : tuple ∈ feed.node.pending ++ feed.stream) :
    feed.node.startAt ≤ getTS tuple := by
  have first : cycle.edge startAt 0 ≤ cycle.edge startAt n :=
    (cycle.edge_strictMono startAt).monotone (Nat.zero_le n)
  rw [follows.start]
  exact le_trans first (follows.cut.waiting tuple mem)

def startRun (edge : Int) (swstate : SlicedWindowState) (tuple : Tuple) (pending : List Tuple)
    (node : FAggSlices Tuple Result) : FAggSlices Tuple Result :=
  { node with
    wtime := edge
    liveTuplesCur := node.liveTuples
    state := .runningAgg
    swstate := swstate
    nextSlideTime := swstate.nextEdge
    pending := tuple :: pending }

include follows sorted in
theorem Follows.startRun (accepts : feed.node.state.AcceptsInput)
    (waiting : feed.node.pending ++ feed.stream = tuple :: (pending ++ rest))
    (beyond : cycle.edge startAt (n + 1) ≤ getTS tuple) : ∃ emitted next,
      faggScheduleSlices plan (startRun (cycle.edge startAt (n + 1))
        ⟨cycle.widths, cycle.place (n + 1), cycle.edge startAt (n + 2)⟩ tuple pending
        feed.node) = (emitted, .ok next) ∧
      Follows cycle startAt getTS plan stream (n + 1) (past ++ current) []
        (outs ++ emitted) ⟨next, rest⟩ := by
  obtain ⟨live, fresh⟩ := follows.accepting accepts
  have cut := follows.cut
  rw [waiting] at cut
  have later := cut.waiting_past sorted beyond
  have seen : feed.node.liveTuples = pulledBy cycle startAt getTS plan stream n := by
    rw [live, cut.pulledBy_eq later]
  have ended : ∀ k < n + 1, SliceEnded cycle startAt getTS stream k := by
    intro k upTo
    rcases Nat.lt_succ_iff_lt_or_eq.mp upTo with before | rfl
    · exact follows.ended k before
    · refine ⟨tuple, ?_, beyond⟩
      rw [← cut.all]
      simp
  have pulled : ∀ (wtime : Int) (more : List (SlicesOut Tuple Result)), pulledRuns more = [] →
      pulledRuns (outs ++ .pulled wtime feed.node.liveTuples :: more) =
        (List.range (n + 1)).map (pulledBy cycle startAt getTS plan stream) := by
    intro wtime more none_
    rw [append_cons, pulledRuns_append, none_, pulledRuns_append, follows.pulled,
      range_succ, map_append, seen]
    simp [pulledRuns]
  have cutNext := cut.advance later
  have describedNext := described_succ cycle startAt getTS plan stream n
  rw [← seen] at describedNext
  have ran := @faggScheduleSlices_started Tuple Result plan (Window.startRun
    (cycle.edge startAt (n + 1)) ⟨cycle.widths, cycle.place (n + 1),
      cycle.edge startAt (n + 2)⟩ tuple pending feed.node) rfl fresh
  rw [ran]
  simp only [Window.startRun]
  cases given : plan feed.node.liveTuples with
  | cons value results =>
    rw [given] at describedNext
    have known : described cycle startAt getTS plan stream (n + 1) = true := by
      simpa using describedNext
    exact ⟨_, _, rfl, cutNext, follows.start, rfl, known.symm, pulled _ _ rfl, ended,
      rfl, known, rfl⟩
  | nil =>
    rw [given] at describedNext
    have same : described cycle startAt getTS plan stream (n + 1) =
        described cycle startAt getTS plan stream n := by
      simpa using describedNext
    have tdesc := follows.tdesc.trans same.symm
    cases known : described cycle startAt getTS plan stream (n + 1) with
    | true =>
      simp only [tdesc, known, if_true]
      exact ⟨_, _, rfl, cutNext, follows.start, rfl, known.symm, pulled _ _ rfl, ended, rfl, known⟩
    | false =>
      simp only [tdesc, known, Bool.false_eq_true, if_false]
      refine ⟨_, _, rfl, cutNext, follows.start, rfl, known.symm, pulled _ _ rfl, ended, ?_, rfl⟩
      simp [live, ← same, known]

def phaseWeight (node : FAggSlices Tuple Result) : Nat :=
  match node.state with
  | .finishingAgg => (node.aggPlan.getD []).length + 2
  | .punctuating => 1
  | _ => 0

def Onward (n n' : Nat) (feed next : SlicesFeed Tuple Result) : Prop :=
  n < n' ∨ n = n' ∧
    Prod.Lex (· < ·) (· < ·)
      ((next.node.pending ++ next.stream).length, phaseWeight next.node)
      ((feed.node.pending ++ feed.stream).length, phaseWeight feed.node)

include follows sorted in
theorem Follows.take (accepts : feed.node.state.AcceptsInput)
    (taken : nextTuple iiht feed.node.pending = .ok (tuple, pending))
    (waiting : feed.node.pending ++ feed.stream = tuple :: (pending ++ rest)) :
    ∃ emitted next n' past' current',
      processNextFAggSlices getTS plan iiht feed.node = (emitted, .ok next) ∧
      Follows cycle startAt getTS plan stream n' past' current' (outs ++ emitted)
        ⟨next, rest⟩ ∧ Onward n n' feed ⟨next, rest⟩ := by
  have started : feed.node.startAt ≤ getTS tuple :=
    follows.started (by rw [waiting]; exact mem_cons_self)
  have added := addNewTupleSlices_eq accepts taken started
  rcases lt_or_ge (getTS tuple) (cycle.edge startAt (n + 1)) with within | beyond
  · rw [fileTuple_before (by simpa [follows.swstate] using within)] at added
    obtain ⟨live, fresh⟩ := follows.accepting accepts
    have cut := follows.cut
    rw [waiting] at cut
    refine ⟨[], addToLiveList tuple { feed.node with pending := pending, state := .reading },
      n, past, current ++ [tuple], ?_, ?_, .inr ⟨rfl, .left _ _ ?_⟩⟩
    · rw [processNextFAggSlices_take accepts taken added (.inl rfl)]
      exact if_neg nofun
    · refine ⟨cut.file within, follows.start, follows.swstate, follows.tdesc, ?_,
        follows.ended, ?_, fresh⟩
      · rw [append_nil, follows.pulled]
      · simp only [addToLiveList, live]
        split_ifs <;> simp
    · simp only [waiting, addToLiveList, length_cons]
      omega
  · have filed := added.trans (fileTuple_past follows.swstate beyond)
    obtain ⟨emitted, next, ran, followsNext⟩ := follows.startRun sorted accepts waiting beyond
    refine ⟨emitted, next, n + 1, _, _, ?_, followsNext, .inl n.lt_succ_self⟩
    rw [processNextFAggSlices_take accepts taken filed (.inr rfl), if_pos rfl]
    exact ran

include follows in
theorem Follows.finish (busy : ¬ feed.node.state.AcceptsInput) : ∃ emitted next,
      processNextFAggSlices getTS plan none feed.node = (emitted, .ok next) ∧
      Follows cycle startAt getTS plan stream n past current (outs ++ emitted)
        ⟨next, feed.stream⟩ ∧
      next.pending = feed.node.pending ∧ phaseWeight next < phaseWeight feed.node := by
  have phase := follows.phase
  have pulled : ∀ emitted : List (SlicesOut Tuple Result), pulledRuns emitted = [] →
      pulledRuns (outs ++ emitted) =
        (List.range n).map (pulledBy cycle startAt getTS plan stream) := by
    intro emitted none_
    rw [pulledRuns_append, none_, append_nil, follows.pulled]
  simp only [processNextFAggSlices, processStateSlices]
  cases state : feed.node.state with
  | beforeStart => exact absurd (.inl state) busy
  | reading => exact absurd (.inr state) busy
  | runningAgg => simp only [InPhase, state] at phase
  | finishingAgg =>
    simp only [InPhase, state] at phase
    obtain ⟨noneCurrent, known, started⟩ := phase
    obtain ⟨results, isSome⟩ := Option.isSome_iff_exists.mp started
    cases results with
    | nil =>
      refine ⟨[.punct feed.node.nextSlideTime],
        { feed.node with aggPlan := some [], state := .punctuating }, ?_,
        ⟨follows.cut, follows.start, follows.swstate, follows.tdesc, pulled _ rfl,
          follows.ended, noneCurrent, known⟩, rfl, ?_⟩
      · simp [faggScheduleSlices, execAggPlan, isSome, state, follows.tdesc, known]
      · simp [phaseWeight, state, isSome]
    | cons value results =>
      refine ⟨[.result value], { feed.node with aggPlan := some results, outputTdesc := true }, ?_,
        ⟨follows.cut, follows.start, follows.swstate, known.symm, pulled _ rfl,
          follows.ended, ?_⟩, rfl, ?_⟩
      · simp [faggScheduleSlices, execAggPlan, isSome]
      · simp only [InPhase, state]
        exact ⟨noneCurrent, known, rfl⟩
      · simp [phaseWeight, state, isSome]
  | punctuating =>
    simp only [InPhase, state] at phase
    obtain ⟨noneCurrent, known⟩ := phase
    refine ⟨[], _, rfl, ⟨follows.cut, follows.start, follows.swstate, follows.tdesc,
      pulled _ rfl, follows.ended, ?_, rfl⟩, rfl, ?_⟩
    · simp [known, noneCurrent]
    · simp [phaseWeight, state]

def Resting (feed : SlicesFeed Tuple Result) : Prop :=
  feed.node.state.AcceptsInput ∧ feed.node.pending ++ feed.stream = []

theorem nextTuple_stream (pending rest : List Tuple) (offer : Bool) :
    let iiht := if offer then rest.head? else none
    (pending = [] ∧ iiht = none ∧ (offer = true → rest = [])) ∨
    ∃ tuple pending', nextTuple iiht pending = .ok (tuple, pending') ∧
      pending ++ rest = tuple :: (pending' ++ if iiht.isSome then rest.tail else rest) := by
  cases offer <;> cases pending <;> cases rest <;> simp [nextTuple]

include follows sorted in
theorem feedStep_spec (offer : Bool) :
    ∃ emitted next n' past' current', feedStep getTS plan feed offer = (emitted, .ok next) ∧
      Follows cycle startAt getTS plan stream n' past' current' (outs ++ emitted) next ∧
      (offer = true → Resting feed ∨ Onward n n' feed next) := by
  by_cases accepts : feed.node.state.AcceptsInput
  · rcases nextTuple_stream feed.node.pending feed.stream offer with
      ⟨nonePending, noInput, offered⟩ | ⟨tuple, pending, taken, waiting⟩
    · refine ⟨[], feed, n, past, current, ?_, by rwa [append_nil], fun isOffer => .inl ?_⟩
      · simp only [feedStep, accepts, and_true]
        rw [noInput]
        rcases accepts with before | reading
        · simp [processNextFAggSlices, processStateSlices, before, nonePending, Except.map]
        · simp [processNextFAggSlices, processStateSlices, reading, nonePending, Except.map]
      · exact ⟨accepts, by rw [nonePending, offered isOffer]; rfl⟩
    · obtain ⟨emitted, next, n', past', current', ran, followsNext, onward⟩ :=
        follows.take sorted accepts taken waiting
      refine ⟨emitted, _, n', past', current', ?_, followsNext, fun _ => .inr onward⟩
      simp [feedStep, accepts, ran, Except.map]
  · obtain ⟨emitted, next, ran, followsNext, pending, lighter⟩ := follows.finish accepts
    refine ⟨emitted, ⟨next, feed.stream⟩, n, past, current, ?_, followsNext,
      fun _ => .inr (.inr ⟨rfl, ?_⟩)⟩
    · simp [feedStep, accepts, ran, Except.map]
    · simp only [pending]
      exact .right _ lighter

theorem faggAddSlices_follows (inside : ∀ tuple ∈ stream, startAt ≤ getTS tuple) :
    ∃ node, faggAddSlices startAt cycle.widths = .ok node ∧
      Follows cycle startAt getTS plan stream 0 [] [] [] ⟨node, stream⟩ := by
  have first : cycle.place 0 = cycle.widths := by simp [Cycle.place]
  have widths := cycle.place_eq 0
  rw [first] at widths
  have edge : cycle.edge startAt 1 = startAt + cycle.width 0 := rfl
  have created : createSlicedWindowState startAt cycle.widths =
      .ok ⟨cycle.widths, cycle.place 0, cycle.edge startAt 1⟩ := by
    rw [first, edge, widths]
    rfl
  refine ⟨_, by simp only [faggAddSlices, created]; rfl, ?_⟩
  exact ⟨⟨rfl, by simp, by simp, inside⟩, rfl, rfl, rfl, rfl, by simp, rfl, rfl⟩

theorem slicesEnded_bounded (cycle : Cycle) (startAt : Int) (getTS : Tuple → Int)
    (stream : List Tuple) : ∃ bound, ∀ n, SliceEnded cycle startAt getTS stream n → n < bound := by
  have times : ∃ bound : Nat, ∀ tuple ∈ stream, getTS tuple < startAt + bound := by
    induction stream with
    | nil => exact ⟨0, by simp⟩
    | cons tuple stream ih =>
      obtain ⟨bound, below⟩ := ih
      refine ⟨max bound ((getTS tuple - startAt).toNat + 1), ?_⟩
      intro other mem
      rcases mem_cons.mp mem with rfl | later
      · omega
      · have := below other later
        omega
  obtain ⟨bound, below⟩ := times
  refine ⟨bound, ?_⟩
  rintro n ⟨tuple, mem, beyond⟩
  have := below tuple mem
  have := cycle.add_le_edge startAt (n + 1)
  omega

include follows in
theorem Follows.ended_iff (resting : Resting feed) (k : Nat) :
    SliceEnded cycle startAt getTS stream k ↔ k < n := by
  refine ⟨?_, follows.ended k⟩
  rintro ⟨tuple, mem, beyond⟩
  have cut := follows.cut
  rw [resting.2] at cut
  rw [← cut.all, append_nil] at mem
  have within := (cut.advance (by simp)).past tuple mem
  have := (cycle.edge_strictMono startAt).lt_iff_lt.mp (lt_of_le_of_lt beyond within)
  omega

theorem runSlices_spec (sorted : stream.Pairwise fun first second => getTS first ≤ getTS second)
    (inside : ∀ tuple ∈ stream, startAt ≤ getTS tuple) (schedule : List Bool) :
    (∃ outs feed n, runSlices getTS plan startAt cycle.widths stream schedule = (outs, .ok feed) ∧
      pulledRuns outs = (List.range n).map (pulledBy cycle startAt getTS plan stream) ∧
      ∀ k < n, SliceEnded cycle startAt getTS stream k) ∧
    ∃ m outs feed n, runSlices getTS plan startAt cycle.widths stream
        (schedule ++ List.replicate m true) = (outs, .ok feed) ∧
      pulledRuns outs = (List.range n).map (pulledBy cycle startAt getTS plan stream) ∧
      ∀ k, SliceEnded cycle startAt getTS stream k ↔ k < n := by
  obtain ⟨node, added, start⟩ := @faggAddSlices_follows _ _ cycle _ _ plan _ inside
  simp only [runSlices, added]
  obtain ⟨outs, feed, ran, n, past, current, follows⟩ :=
    @Machine.run_always _ _ _ _ (feedMachine getTS plan)
      (fun _ outs feed => ∃ n past current,
        Follows cycle startAt getTS plan stream n past current outs feed)
      (by
        rintro ops offer outs feed ⟨n, past, current, follows⟩
        obtain ⟨emitted, next, n', past', current', stepped, kept, -⟩ :=
          feedStep_spec follows sorted offer
        exact ⟨emitted, next, stepped, n', past', current', kept⟩)
      _ ⟨0, [], [], start⟩ schedule
  refine ⟨⟨outs, feed, n, ran, follows.pulled, follows.ended⟩, ?_⟩
  obtain ⟨bound, below⟩ := slicesEnded_bounded cycle startAt getTS stream
  -- a run more, or less of the stream to take in, or fewer calls until input is accepted
  obtain ⟨m, more, final, -, ranMore, ⟨n', past', current', followsFinal, -⟩, rests⟩ :=
    @Machine.run_to_rest _ _ _ _ (feedMachine getTS plan) _ _
      (WellFounded.prod_lex Nat.lt_wfRel.wf (WellFounded.prod_lex Nat.lt_wfRel.wf
        Nat.lt_wfRel.wf)) true
      (fun left outs feed => ∃ n past current,
        Follows cycle startAt getTS plan stream n past current outs feed ∧
        left = (bound - n, (feed.node.pending ++ feed.stream).length, phaseWeight feed.node))
      Resting
      (by
        rintro _ outs feed ⟨n, past, current, follows, rfl⟩
        obtain ⟨emitted, next, n', past', current', stepped, kept, onward⟩ :=
          feedStep_spec follows sorted true
        rcases onward rfl with rests | further | ⟨rfl, nearer⟩
        · exact .inl rests
        · refine .inr ⟨emitted, next, _, stepped, ⟨n', past', current', kept, rfl⟩, ?_⟩
          have := below n (kept.ended n further)
          exact .left _ _ (by show bound - n' < bound - n; omega)
        · exact .inr ⟨emitted, next, _, stepped, ⟨n, past', current', kept, rfl⟩, .right _ nearer⟩)
      _ outs feed ⟨n, past, current, follows, rfl⟩
  refine ⟨m, outs ++ more, final, n', ?_, followsFinal.pulled, followsFinal.ended_iff rests⟩
  rw [Machine.run_append_ok _ ran, ranMore]

/-! ## When the runs are the slices -/

theorem described_iff (n : Nat) : described cycle startAt getTS plan stream n = true ↔
      ∃ k < n, plan (pulledBy cycle startAt getTS plan stream k) ≠ [] := by
  induction n with
  | zero => simp [described]
  | succ n ih =>
    rw [described_succ, Bool.or_eq_true, ih]
    simp only [Nat.lt_succ_iff_lt_or_eq, Bool.not_eq_true', isEmpty_eq_false_iff]
    constructor
    · rintro (⟨k, before, given⟩ | given)
      · exact ⟨k, .inl before, given⟩
      · exact ⟨n, .inr rfl, given⟩
    · rintro ⟨k, before | rfl, given⟩
      · exact .inl ⟨k, before, given⟩
      · exact .inr given

theorem mem_sliceOf : tuple ∈ sliceOf cycle startAt getTS stream k ↔ tuple ∈ stream ∧
      cycle.edge startAt k ≤ getTS tuple ∧ getTS tuple < cycle.edge startAt (k + 1) := by
  simp [sliceOf]

theorem SliceEnded.of_le (ended : SliceEnded cycle startAt getTS stream n) (before : k ≤ n) :
    SliceEnded cycle startAt getTS stream k := by
  obtain ⟨tuple, mem, beyond⟩ := ended
  have := (cycle.edge_strictMono startAt).monotone (Nat.succ_le_succ before)
  exact ⟨tuple, mem, le_trans this beyond⟩

variable (cycle startAt getTS plan stream) in
/-- No tuple comes before the start, and a run has had a result by the time that a run
starts with tuples before its slice. -/
structure SlicesSettled : Prop where
  inside : ∀ tuple ∈ stream, startAt ≤ getTS tuple
  described : ∀ n, SliceEnded cycle startAt getTS stream n →
    (∃ tuple ∈ stream, getTS tuple < cycle.edge startAt n) →
    ∃ k < n, plan (sliceOf cycle startAt getTS stream k) ≠ []

theorem SlicesSettled.pulledBy_eq (settled : SlicesSettled cycle startAt getTS plan stream)
    (ended : SliceEnded cycle startAt getTS stream n) :
    pulledBy cycle startAt getTS plan stream n = sliceOf cycle startAt getTS stream n := by
  induction n using Nat.strong_induction_on with
  | _ n ih =>
    cases known : Window.described cycle startAt getTS plan stream n with
    | true => simp [pulledBy, known]
    | false =>
      have noneBefore : ∀ tuple ∈ stream, cycle.edge startAt n ≤ getTS tuple := by
        intro tuple mem
        by_contra before
        obtain ⟨k, earlier, given⟩ := settled.described n ended ⟨tuple, mem, not_le.mp before⟩
        rw [← ih k earlier (ended.of_le earlier.le)] at given
        rw [(described_iff n).mpr ⟨k, earlier, given⟩] at known
        cases known
      simp only [pulledBy, known, Bool.false_eq_true, if_false]
      apply filter_congr
      intro tuple mem
      simp [noneBefore tuple mem]

theorem described_of_pulledBy_eq (same : ∀ k, SliceEnded cycle startAt getTS stream k →
      pulledBy cycle startAt getTS plan stream k = sliceOf cycle startAt getTS stream k)
    (ended : SliceEnded cycle startAt getTS stream n) (mem : tuple ∈ stream)
    (before : getTS tuple < cycle.edge startAt n) :
    ∃ k < n, plan (sliceOf cycle startAt getTS stream k) ≠ [] := by
  have known : described cycle startAt getTS plan stream n = true := by
    by_contra unknown
    have kept : tuple ∈ sliceOf cycle startAt getTS stream n := by
      rw [← same n ended]
      have later := (cycle.edge_strictMono startAt) n.lt_succ_self
      simp only [pulledBy, unknown, if_false, tuplesBefore, mem_filter, mem,
        decide_eq_true_eq, true_and]
      exact lt_trans before later
    have := (mem_sliceOf.mp kept).2.1
    omega
  obtain ⟨k, earlier, given⟩ := (described_iff n).mp known
  rw [same k (ended.of_le earlier.le)] at given
  exact ⟨k, earlier, given⟩

variable (cycle startAt getTS plan stream) in
/-- Under a schedule the node does not fault; its runs pull the first slices; with enough
offers all slices that have ended get their run; and a tuple from the start on is in one
slice. -/
structure SlicesReported (schedule : List Bool) : Prop where
  runs : ∃ outs feed n,
    runSlices getTS plan startAt cycle.widths stream schedule = (outs, .ok feed) ∧
    pulledRuns outs = (List.range n).map (sliceOf cycle startAt getTS stream) ∧
    ∀ k < n, SliceEnded cycle startAt getTS stream k
  complete : ∃ m outs feed n, runSlices getTS plan startAt cycle.widths stream
      (schedule ++ List.replicate m true) = (outs, .ok feed) ∧
    pulledRuns outs = (List.range n).map (sliceOf cycle startAt getTS stream) ∧
    ∀ k, SliceEnded cycle startAt getTS stream k ↔ k < n
  once : ∀ tuple ∈ stream, startAt ≤ getTS tuple →
    ∃! k, tuple ∈ sliceOf cycle startAt getTS stream k

theorem SlicesSettled.reported (settled : SlicesSettled cycle startAt getTS plan stream)
    (sorted : stream.Pairwise fun first second => getTS first ≤ getTS second)
    (schedule : List Bool) : SlicesReported cycle startAt getTS plan stream schedule := by
  obtain ⟨⟨outs, feed, n, ran, pulled, ended⟩, m, outs', feed', n', ran', pulled', ended'⟩ :=
    @runSlices_spec _ _ cycle _ _ plan _ sorted settled.inside schedule
  refine ⟨⟨outs, feed, n, ran, ?_, ended⟩, ⟨m, outs', feed', n', ran', ?_, ended'⟩, ?_⟩
  · rw [pulled]
    apply map_congr_left
    intro k mem
    exact settled.pulledBy_eq (ended k (mem_range.mp mem))
  · rw [pulled']
    apply map_congr_left
    intro k mem
    exact settled.pulledBy_eq ((ended' k).mpr (mem_range.mp mem))
  · intro tuple mem started
    simpa [mem_sliceOf, mem] using cycle.existsUnique_slot startAt started

theorem runSlices_before_start (before : getTS tuple < startAt) (rest : List Tuple) :
    runSlices getTS plan startAt cycle.widths (tuple :: rest) [true] =
      ([], .error .nonePendingBeforeStart) := by
  have widths := cycle.place_eq 0
  simp only [Cycle.place, Nat.zero_mod, drop_zero] at widths
  have late := not_le.mpr before
  rw [widths]
  simp [runSlices, faggAddSlices, createSlicedWindowState, feedMachine, Machine.run, feedStep,
    SlicesPhase.AcceptsInput, processNextFAggSlices, addNewTupleSlices, nextTuple, late, bind,
    Except.bind, pure, Except.pure, Except.map, throw, throwThe, MonadExceptOf.throw]

/-- Whatever the offers, the runs pull the slices, for a stream in timestamp order, just
when no tuple comes before the start and some run has had a result before the first run
that starts with tuples before its slice. -/
theorem slices_reported_iff (cycle : Cycle) (startAt : Int) (getTS : Tuple → Int)
    (plan : List Tuple → List Result) (stream : List Tuple)
    (sorted : stream.Pairwise fun first second => getTS first ≤ getTS second) :
    (∀ schedule, SlicesReported cycle startAt getTS plan stream schedule) ↔
      SlicesSettled cycle startAt getTS plan stream := by
  refine ⟨fun reported => ?_, fun settled => settled.reported sorted⟩
  have inside : ∀ tuple ∈ stream, startAt ≤ getTS tuple := by
    cases stream with
    | nil => simp
    | cons first rest =>
      have started : startAt ≤ getTS first := by
        by_contra before
        obtain ⟨outs, feed, n, ran, -⟩ := (reported [true]).runs
        rw [runSlices_before_start (not_le.mp before)] at ran
        cases ran
      exact forall_mem_cons.mpr ⟨started, fun tuple later =>
        le_trans started ((pairwise_cons.mp sorted).1 tuple later)⟩
  refine ⟨inside, ?_⟩
  rintro n ended ⟨tuple, mem, before⟩
  refine described_of_pulledBy_eq (fun k endedBy => ?_) ended mem before
  obtain ⟨-, m, outs, feed, count, ran, pulled, due⟩ :=
    @runSlices_spec _ _ cycle _ _ plan _ sorted inside []
  obtain ⟨outs', feed', count', ran', pulled', -⟩ := (reported ([] ++ List.replicate m true)).runs
  rw [ran] at ran'
  cases ran'
  have sameRuns := pulled.symm.trans pulled'
  have counts : count = count' := by simpa using congrArg List.length sameRuns
  subst counts
  exact map_inj_left.mp sameRuns k (mem_range.mpr ((due k).mp endedBy))

/-- Slices of two and three units; the slice from 5 on is empty. -/
theorem slices_reported_counts :
    SlicesReported ⟨[2, 3], by decide, by decide⟩ 0 (id : Int → Int)
      (fun tuples => [tuples.length]) [0, 1, 2, 9] [true, true, false, true, true] := by
  refine (slices_reported_iff _ 0 id _ [0, 1, 2, 9] (by decide)).mpr ⟨by decide, ?_⟩ _
  rintro n ended ⟨tuple, mem, before⟩
  refine ⟨0, ?_, by simp⟩
  rcases Nat.eq_zero_or_pos n with rfl | positive
  · revert tuple
    decide
  · exact positive

/-- A tuple before the start trips the assertion that a tuple is pending.  And an aggregate
that has no result for the first slice gets its tuples again with the second one. -/
theorem slices_misreported :
    (runSlices id (fun tuples : List Int => [tuples.length]) 0 [10] [-1] [true]).2 =
      .error .nonePendingBeforeStart ∧
    ∃ outs feed, runSlices id
        (fun tuples : List Int => if 2 ≤ tuples.length then [tuples.length] else []) 0 [10]
        [1, 11, 21] [true, true, true, true] = (outs, .ok feed) ∧
      pulledRuns outs = [[1], [1, 11]] ∧
      sliceOf ⟨[10], by decide, by decide⟩ 0 id [1, 11, 21] 1 = [11] := by
  refine ⟨rfl, _, _, rfl, rfl, rfl⟩

end Slices

end TelegraphCQ.Window
