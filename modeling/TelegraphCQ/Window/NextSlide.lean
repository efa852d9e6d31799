import TelegraphCQ.Foundation.Outcome
import TelegraphCQ.Window.FAggCorrect

/-!
# The next slide of several windows

With several window clauses the node slides at the end of every window of each of them.  The time
of the next slide is the least of the ends that the clauses give for the current one, so a clause
is asked about a time that is an end of another clause's window, and that may lie well before its
own first end.
-/

namespace TelegraphCQ.Window

open Foundation List

variable {Tuple : Type}

def firstEnd (spec : WindowSpec) : Int := spec.startAt + spec.rangeBy

def AnswersNextEnd (nonFinite : Int → Int) (ws : WindowState Tuple) (time : Timestamp) : Prop :=
  ∃ ts k, time = .at ts ∧
    windowStateGetNextSlide nonFinite ws time = .ok (.at (windowEnd ws.spec k)) ∧
    1 ≤ k ∧ ts < windowEnd ws.spec k ∧
    ∀ j, 1 ≤ j → ts < windowEnd ws.spec j → windowEnd ws.spec k ≤ windowEnd ws.spec j

/-! ## One clause -/

section Clause

variable {nonFinite : Int → Int} {ws : WindowState Tuple} {ts : Int}

theorem windowEnd_one (spec : WindowSpec) : windowEnd spec 1 = firstEnd spec := by
  simp [windowEnd, windowBegin, firstEnd]

theorem windowEnd_zero (spec : WindowSpec) : windowEnd spec 0 = firstEnd spec - spec.slideBy := by
  simp only [windowEnd, windowBegin, firstEnd]
  ring

theorem AnswersNextEnd.congr {Other : Type} {other : WindowState Other} {time : Timestamp}
    (answers : AnswersNextEnd nonFinite ws time) (same : other.spec = ws.spec) :
    AnswersNextEnd nonFinite other time := by
  obtain ⟨ts, k, rfl, answered, counted, later, least⟩ := answers
  refine ⟨ts, k, rfl, ?_, counted, ?_, ?_⟩
  · simp only [windowStateGetNextSlide, same] at answered ⊢
    exact answered
  · rwa [same]
  · rwa [same]

theorem answersNextEnd_iff (positive : 0 < ws.spec.slideBy) :
    AnswersNextEnd nonFinite ws (.at ts) ↔ firstEnd ws.spec - ws.spec.slideBy ≤ ts := by
  have later := lt_windowEnd_firstWindowPast nonFinite positive ts
  rw [← windowEnd_zero]
  constructor
  · rintro ⟨ts', k, isTime, answered, -⟩
    obtain rfl := Timestamp.at_inj.mp isTime
    have counted : 0 < firstWindowPast nonFinite ws.spec ts := by
      by_contra uncounted
      simp only [windowStateGetNextSlide, if_neg uncounted] at answered
      cases answered
    refine le_trans ?_ (windowEnd_pred_firstWindowPast_le nonFinite positive counted)
    rw [windowEnd_le_iff positive]
    omega
  · intro reached
    have counted : 0 < firstWindowPast nonFinite ws.spec ts :=
      (windowEnd_lt_iff positive).mp (reached.trans_lt later)
    have before := windowEnd_pred_firstWindowPast_le nonFinite positive counted
    refine ⟨ts, firstWindowPast nonFinite ws.spec ts, rfl, ?_, by omega, later, ?_⟩
    · simp [windowStateGetNextSlide, if_pos counted]
    · intro j _ ends
      have above := (windowEnd_lt_iff positive).mp (before.trans_lt ends)
      rw [windowEnd_le_iff positive]
      omega

theorem windowEnd_le_firstEnd {spec : WindowSpec} (backward : spec.slideBy ≤ 0) {k : Int}
    (counted : 1 ≤ k) : windowEnd spec k ≤ firstEnd spec := by
  have := mul_nonpos_of_nonpos_of_nonneg backward (show 0 ≤ k - 1 by omega)
  simp only [windowEnd, windowBegin, firstEnd]
  linarith

theorem not_answersNextEnd (backward : ws.spec.slideBy ≤ 0) (ended : firstEnd ws.spec ≤ ts) :
    ¬ AnswersNextEnd nonFinite ws (.at ts) := by
  rintro ⟨ts', k, isTime, -, counted, later, -⟩
  obtain rfl := Timestamp.at_inj.mp isTime
  exact absurd later (not_lt.mpr ((windowEnd_le_firstEnd backward counted).trans ended))

end Clause

/-! ## The least of several times -/

section Least

variable {times : List Timestamp} {start bound : Timestamp}

theorem foldl_min_le {time : Timestamp} (mem : time ∈ times) : times.foldl min start ≤ time := by
  induction times generalizing start with
  | nil => cases mem
  | cons first times ih =>
    rcases mem_cons.mp mem with rfl | later
    · have least : ∀ (rest : List Timestamp) (start : Timestamp), rest.foldl min start ≤ start := by
        intro rest
        induction rest with
        | nil => exact fun _ => le_refl _
        | cons next rest ih => exact fun start => (ih _).trans (min_le_left _ _)
      exact (least times _).trans (min_le_right _ _)
    · exact ih later

theorem foldl_min_mem : times.foldl min start = start ∨ times.foldl min start ∈ times := by
  induction times generalizing start with
  | nil => exact .inl rfl
  | cons first times ih =>
    rw [foldl_cons]
    rcases @ih (min start first) with same | later
    · rw [same]
      rcases min_choice start first with isStart | isFirst
      · exact .inl isStart
      · exact .inr (by rw [isFirst]; exact mem_cons_self)
    · exact .inr (mem_cons_of_mem _ later)

theorem foldl_min_noEnd (some_time : times ≠ []) (finite : ∀ time ∈ times, time ≠ .noEnd) :
    times.foldl min .noEnd ∈ times := by
  rcases @foldl_min_mem times .noEnd with none_taken | taken
  · obtain ⟨time, mem⟩ := exists_mem_of_ne_nil times some_time
    have least := @foldl_min_le times .noEnd time mem
    rw [none_taken] at least
    exact absurd (le_antisymm (Timestamp.le_noEnd time) least) (finite time mem)
  · exact taken

end Least

/-! ## The node -/

def SameSlide (node next : FAgg Tuple) : Prop :=
  next.windowStates.map WindowState.spec = node.windowStates.map WindowState.spec ∧
    next.nextSlideTime = node.nextSlideTime

section Node

variable {nonFinite : Int → Int} {node next : FAgg Tuple}

theorem SameSlide.trans {final : FAgg Tuple} (first : SameSlide node next)
    (second : SameSlide next final) : SameSlide node final :=
  ⟨second.1.trans first.1, second.2.trans first.2⟩

theorem spec_updateMaxTS (tuple : Tuple) (ws : WindowState Tuple) :
    (windowStateUpdateMaxTS tuple ws).spec = ws.spec := by
  rw [windowStateUpdateMaxTS]
  split <;> rfl

theorem addNewTupleRangeSlide_eq (nonFinite : Int → Int) (tuple : Tuple) (node : FAgg Tuple) :
    ∃ activation deactivation,
      ((activation = node.activationGroups ∧ deactivation = node.deactivationGroups) ∨
        ∃ birth death elem, tupleLifetime nonFinite node.windowStates tuple = (birth, death) ∧
          birth < death ∧ activation = node.activationGroups.modify birth (· ++ [elem]) ∧
          deactivation = node.deactivationGroups.modify death (elem :: ·)) ∧
      addNewTupleRangeSlide nonFinite tuple node =
        (let windowStates := node.windowStates.map (windowStateUpdateMaxTS tuple)
        let newCurrentTime := windowStates.foldl (fun time ws => min time ws.lastTSSeen)
          Timestamp.noEnd
        if newCurrentTime = .noEnd then .error .currentTimeUnset
        else
          .ok
            { node with
              totalEntered := node.totalEntered + 1
              windowStates := windowStates
              currentTime := max node.currentTime newCurrentTime
              activationGroups := activation
              deactivationGroups := deactivation }) := by
  generalize isLife : tupleLifetime nonFinite node.windowStates tuple = life
  by_cases unborn : life.1 = .noEnd ∨ life.2 ≤ life.1
  · refine ⟨_, _, .inl ⟨rfl, rfl⟩, ?_⟩
    simp [addNewTupleRangeSlide, isLife, if_pos unborn]
  · by_cases late : life.2 ≤ node.lastSlideTime ∧ node.lastSlideTime ≠ .noBegin
    · refine ⟨_, _, .inl ⟨rfl, rfl⟩, ?_⟩
      simp [addNewTupleRangeSlide, isLife, if_pos late]
    · push Not at unborn
      refine ⟨_, _, .inr ⟨life.1, life.2, ⟨node.totalEntered, tuple⟩, rfl, unborn.2, rfl, rfl⟩, ?_⟩
      simp [addNewTupleRangeSlide, isLife, if_neg (not_or.mpr ⟨unborn.1, not_le.mpr unborn.2⟩),
        if_neg late, addToActivationGroup, addToDeactivationGroup]

theorem addNewTupleRangeSlide_same {tuple : Tuple}
    (added : addNewTupleRangeSlide nonFinite tuple node = .ok next) : SameSlide node next := by
  obtain ⟨activation, deactivation, -, isAdded⟩ := addNewTupleRangeSlide_eq nonFinite tuple node
  rw [isAdded] at added
  dsimp only at added
  split at added
  · cases added
  · obtain rfl := Except.ok.inj added
    refine ⟨?_, rfl⟩
    simp [Function.comp_def, spec_updateMaxTS]

theorem pullTuples_same (pulls : Nat) (pulled : pullTuples pulls node = .ok next) :
    SameSlide node next := by
  induction pulls generalizing node with
  | zero =>
    obtain rfl := Except.ok.inj pulled
    exact ⟨rfl, rfl⟩
  | succ pulls ih =>
    obtain ⟨middle, executed, rest⟩ := exists_of_bind_ok pulled
    refine SameSlide.trans ?_ (ih rest)
    rw [execFAgg] at executed
    split at executed
    · split at executed <;> obtain rfl := Except.ok.inj executed <;> exact ⟨rfl, rfl⟩
    · cases executed

variable {agg : AggCall} {α β ε : Type} {f : α → Except ε β} {xs : List α} {time : Timestamp}
  {call : FAggCall Tuple}

theorem faggScheduleAggPlan_same (scheduled : faggScheduleAggPlan agg node = .ok next) :
    SameSlide node next := by
  obtain ⟨pulled, pulls, rest⟩ := exists_of_bind_ok scheduled
  refine (pullTuples_same agg.pulls pulls).trans ?_
  split at rest
  · obtain rfl := Except.ok.inj rest
    exact ⟨rfl, rfl⟩
  · split at rest
    · obtain rfl := Except.ok.inj rest
      exact ⟨rfl, rfl⟩
    · cases rest

theorem advanceWindow_later (advanced : advanceWindow nonFinite node = .ok next) :
    next.windowStates = node.windowStates ∧ node.nextSlideTime < next.nextSlideTime ∧
      ∃ times, node.windowStates.mapM (windowStateGetNextSlide nonFinite · node.nextSlideTime) =
        .ok times ∧ next.nextSlideTime = times.foldl min .noEnd := by
  obtain ⟨activated, -, rest⟩ := exists_of_bind_ok advanced
  obtain ⟨deactivated, -, rest⟩ := exists_of_bind_ok rest
  obtain ⟨remaining, -, rest⟩ := exists_of_bind_ok rest
  obtain ⟨times, answered, rest⟩ := exists_of_bind_ok rest
  dsimp only at rest
  split at rest
  · next later =>
      obtain rfl := Except.ok.inj rest
      exact ⟨rfl, later, times, answered, rfl⟩
  · cases rest

theorem mapM_ok {ys : List β} (mapped : xs.mapM f = .ok ys) :
    ys.length = xs.length ∧ ∀ y ∈ ys, ∃ x ∈ xs, f x = .ok y := by
  induction xs generalizing ys with
  | nil =>
    obtain rfl := Except.ok.inj mapped
    exact ⟨rfl, nofun⟩
  | cons x xs ih =>
    rw [mapM_cons] at mapped
    obtain ⟨y, isFirst, rest⟩ := exists_of_bind_ok mapped
    obtain ⟨ys', isRest, same⟩ := exists_of_bind_ok rest
    obtain rfl := Except.ok.inj same
    obtain ⟨length_eq, each⟩ := ih isRest
    refine ⟨by simp [length_eq], forall_mem_cons.mpr ⟨⟨x, mem_cons_self, isFirst⟩, ?_⟩⟩
    intro y' mem
    obtain ⟨x', mem', isAnswer⟩ := each y' mem
    exact ⟨x', mem_cons_of_mem _ mem', isAnswer⟩

theorem mapM_eq_map {g : α → β} (each : ∀ x ∈ xs, f x = .ok (g x)) :
    xs.mapM f = .ok (xs.map g) := by
  induction xs with
  | nil => rfl
  | cons x xs ih =>
    rw [mapM_cons, each x mem_cons_self, ih fun x mem => each x (mem_cons_of_mem _ mem)]
    rfl

theorem windowStateGetNextSlide_finite {ws : WindowState Tuple} {answer : Timestamp}
    (answered : windowStateGetNextSlide nonFinite ws time = .ok answer) : ∃ t, answer = .at t := by
  unfold windowStateGetNextSlide at answered
  split at answered
  · dsimp only at answered
    split at answered
    · exact ⟨_, (Except.ok.inj answered).symm⟩
    · cases answered
  · cases answered

/-- The clauses, and a time of the next slide that all of them can be asked about. -/
structure InReach (specs : List WindowSpec) (node : FAgg Tuple) : Prop where
  clauses : node.windowStates.map WindowState.spec = specs
  reached : ∃ t, node.nextSlideTime = .at t ∧
    ∀ spec ∈ specs, firstEnd spec - spec.slideBy ≤ t

variable {specs : List WindowSpec}

theorem InReach.same (inReach : InReach specs node) (same : SameSlide node next) :
    InReach specs next := ⟨same.1.trans inReach.clauses, by rw [same.2]; exact inReach.reached⟩

theorem InReach.advance (inReach : InReach specs node) (some_spec : specs ≠ [])
    (advanced : advanceWindow nonFinite node = .ok next) : InReach specs next := by
  obtain ⟨states, later, times, answered, isNext⟩ := advanceWindow_later advanced
  obtain ⟨t, isTime, reached⟩ := inReach.reached
  obtain ⟨length_eq, each⟩ := mapM_ok answered
  have finite : ∀ time ∈ times, ∃ t, time = .at t := by
    intro time mem
    obtain ⟨ws, -, isAnswer⟩ := each time mem
    exact windowStateGetNextSlide_finite isAnswer
  have some_time : times ≠ [] := by
    rintro rfl
    apply some_spec
    rw [← inReach.clauses, length_eq_zero_iff.mp length_eq.symm]
    rfl
  have taken := foldl_min_noEnd some_time fun time mem => by
    obtain ⟨t, rfl⟩ := finite time mem
    exact Timestamp.at_ne_noEnd t
  obtain ⟨t', isLeast⟩ := finite _ taken
  refine ⟨by rw [states]; exact inReach.clauses, t', by rw [isNext, isLeast], ?_⟩
  rw [isTime, isNext, isLeast, Timestamp.at_lt_at] at later
  exact fun spec mem => (reached spec mem).trans later.le

theorem processStateFAgg_inReach (inReach : InReach specs node) (some_spec : specs ≠ [])
    (ran : (processStateFAgg nonFinite agg node).2 = .ok next) : InReach specs next := by
  rw [processStateFAgg] at ran
  split at ran
  · split at ran
    · split at ran
      · cases ran
      · next advanced isAdvanced =>
          have timed : InReach specs { node with wtime := node.nextSlideTime } :=
            ⟨inReach.clauses, inReach.reached⟩
          have moved := timed.advance some_spec isAdvanced
          have running : InReach specs
              { advanced with state := .runningAgg, liveTuplesCur := advanced.liveTuples } :=
            ⟨moved.clauses, moved.reached⟩
          exact running.same (faggScheduleAggPlan_same ran)
    · obtain rfl := Except.ok.inj ran
      exact inReach
  · exact inReach.same (faggScheduleAggPlan_same ran)
  · exact inReach.same (faggScheduleAggPlan_same ran)
  · obtain rfl := Except.ok.inj ran
    exact ⟨inReach.clauses, inReach.reached⟩
  · cases ran

def withInput (nonFinite : Int → Int) (call : FAggCall Tuple) (node : FAgg Tuple) :
    Except FAggFault (FAgg Tuple) :=
  match call.input with
  | none => .ok node
  | some tuple => addNewTupleRangeSlide nonFinite tuple node

def askedAbout (nonFinite : Int → Int) (node : FAgg Tuple) (call : FAggCall Tuple) :
    Option Timestamp :=
  match withInput nonFinite call node with
  | .error _ => none
  | .ok node =>
    if node.state = .reading ∧ node.nextSlideTime ≤ node.currentTime then
      some node.nextSlideTime
    else none

theorem withInput_same (given : withInput nonFinite call node = .ok next) :
    SameSlide node next := by
  rw [withInput] at given
  split at given
  · obtain rfl := Except.ok.inj given
    exact ⟨rfl, rfl⟩
  · exact addNewTupleRangeSlide_same given

theorem askedAbout_eq (asked : askedAbout nonFinite node call = some time) :
    node.nextSlideTime = time := by
  rw [askedAbout] at asked
  split at asked
  · cases asked
  · next given isGiven =>
      split at asked
      · rw [← Option.some.inj asked]
        exact (withInput_same isGiven).2.symm
      · cases asked

theorem step_eq (ready : node.state ≠ .noWindowExpr) : (faggMachine nonFinite).step node call =
      match withInput nonFinite call node with
      | .error fault => ([], .error fault)
      | .ok node => processStateFAgg nonFinite call.agg node := by
  simp only [faggMachine, processNextFAggRangeSlide, if_neg ready, withInput]
  cases call.input <;> rfl

theorem step_inReach (inReach : InReach specs node) (some_spec : specs ≠ [])
    (ran : ((faggMachine nonFinite).step node call).2 = .ok next) : InReach specs next := by
  by_cases ready : node.state = .noWindowExpr
  · simp only [faggMachine, processNextFAggRangeSlide, if_pos ready] at ran
    cases ran
  · rw [step_eq ready] at ran
    split at ran
    · cases ran
    · next given isGiven =>
        exact processStateFAgg_inReach (inReach.same (withInput_same isGiven)) some_spec ran

/-! ## The first slide -/

theorem max_ne_noBegin (time : Timestamp) (ts : Int) : max time (.at ts) ≠ .noBegin := by
  intro isBottom
  have above : Timestamp.at ts ≤ .noBegin := isBottom ▸ le_max_right time (.at ts)
  exact Timestamp.at_ne_noBegin ts (le_antisymm above (Timestamp.noBegin_le _))

theorem foldl_firstChange (windowStates : List (WindowState Tuple)) (node : FAgg Tuple) :
    ∃ latest wtime, windowStates.foldl (fun node ws =>
        let next := min node.nextSlideTime (windowStateGetFirstChange ws)
        { node with
          nextSlideTime := next
          latestSlideTime := max next (windowStateGetFirstChange ws)
          lastSlideTime := min node.lastSlideTime (.at ws.spec.startAt)
          wtime := next }) node = { node with
          nextSlideTime := (windowStates.map windowStateGetFirstChange).foldl min node.nextSlideTime
          lastSlideTime := (windowStates.map fun ws => Timestamp.at ws.spec.startAt).foldl min
            node.lastSlideTime
          latestSlideTime := latest
          wtime := wtime } ∧
      (node.latestSlideTime ≠ .noBegin ∨ windowStates ≠ [] → latest ≠ .noBegin) := by
  induction windowStates generalizing node with
  | nil => exact ⟨node.latestSlideTime, node.wtime, rfl, fun known => known.resolve_right (· rfl)⟩
  | cons ws windowStates ih =>
    obtain ⟨latest, wtime, folded, known⟩ := ih
      { node with
        nextSlideTime := min node.nextSlideTime (windowStateGetFirstChange ws)
        latestSlideTime := max (min node.nextSlideTime (windowStateGetFirstChange ws))
          (windowStateGetFirstChange ws)
        lastSlideTime := min node.lastSlideTime (.at ws.spec.startAt)
        wtime := min node.nextSlideTime (windowStateGetFirstChange ws) }
    refine ⟨latest, wtime, folded, fun _ => known (.inl ?_)⟩
    exact max_ne_noBegin _ _

theorem faggAddWindowExprs_eq {windowStates : List (WindowState Tuple)}
    (some_state : windowStates ≠ []) :
    ∃ last latest wtime, faggAddWindowExprs windowStates processInitFAgg = .ok
        { processInitFAgg with
          state := .reading
          windowStates := windowStates.reverse
          nextSlideTime := (windowStates.reverse.map windowStateGetFirstChange).foldl min .noEnd
          lastSlideTime := last
          latestSlideTime := latest
          wtime := wtime } := by
  have some_reverse : windowStates.reverse ≠ [] := by simpa using some_state
  obtain ⟨latest, wtime, folded, known⟩ := foldl_firstChange windowStates.reverse
    { (processInitFAgg : FAgg Tuple) with
      windowStates := windowStates.reverse
      nextSlideTime := .noEnd
      lastSlideTime := .noEnd
      latestSlideTime := .noBegin }
  have finite : ∀ time : WindowState Tuple → Int,
      (windowStates.reverse.map fun ws => Timestamp.at (time ws)).foldl min .noEnd ≠ .noEnd := by
    intro time isEnd
    have taken := @foldl_min_noEnd (windowStates.reverse.map fun ws => Timestamp.at (time ws))
      (by simpa using some_state) (by simp [Timestamp.at_ne_noEnd])
    rw [isEnd] at taken
    obtain ⟨ws, -, isTime⟩ := mem_map.mp taken
    exact Timestamp.at_ne_noEnd _ isTime
  refine ⟨(windowStates.reverse.map fun ws => Timestamp.at ws.spec.startAt).foldl min .noEnd,
    latest, wtime, ?_⟩
  simp only [faggAddWindowExprs]
  rw [folded, if_neg]
  rintro (noNext | noLast | noLatest)
  · exact finite _ noNext
  · exact finite _ noLast
  · exact known (.inr some_reverse) noLatest

end Node

/-! ## Runs -/

/-- Whatever the tuples and the calls, the clauses answer each time they are asked. -/
def NextSlidesRight (nonFinite : Int → Int) (specs : List WindowSpec) : Prop :=
  ∀ (Tuple : Type) (windowStates : List (WindowState Tuple)),
    windowStates.map WindowState.spec = specs → ∀ start,
    faggAddWindowExprs windowStates processInitFAgg = .ok start → ∀ calls reports node,
    (faggMachine nonFinite).run start calls = (reports, .ok node) → ∀ call time,
    askedAbout nonFinite node call = some time →
    ∀ ws ∈ node.windowStates, AnswersNextEnd nonFinite ws time

/-- All clauses slide forward, and the first end of each lies at most one of its slides after that
of any other. -/
def SlidesMeet (specs : List WindowSpec) : Prop :=
  (∀ spec ∈ specs, 0 < spec.slideBy) ∧
    ∀ spec ∈ specs, ∀ other ∈ specs, firstEnd spec - spec.slideBy ≤ firstEnd other

section Runs

variable {nonFinite : Int → Int} {specs : List WindowSpec}

theorem first_slide {windowStates : List (WindowState Tuple)} (some_state : windowStates ≠ []) :
    ∃ ws ∈ windowStates, (windowStates.reverse.map windowStateGetFirstChange).foldl min .noEnd =
        .at (firstEnd ws.spec) ∧
      ∀ other ∈ windowStates, firstEnd ws.spec ≤ firstEnd other.spec := by
  have taken := @foldl_min_noEnd (windowStates.reverse.map windowStateGetFirstChange)
    (by simpa using some_state) (by simp [windowStateGetFirstChange, Timestamp.at_ne_noEnd])
  obtain ⟨ws, mem, isFirst⟩ := mem_map.mp taken
  refine ⟨ws, mem_reverse.mp mem, isFirst.symm, fun other isOther => ?_⟩
  have least := @foldl_min_le (windowStates.reverse.map windowStateGetFirstChange) .noEnd
    (windowStateGetFirstChange other)
    (mem_map.mpr ⟨other, mem_reverse.mpr isOther, rfl⟩)
  rw [← isFirst] at least
  exact Timestamp.at_le_at.mp least

theorem nextSlidesRight_of_meet (meet : SlidesMeet specs) : NextSlidesRight nonFinite specs := by
  intro Tuple windowStates clauses start started calls reports node ran call time asked ws mem
  by_cases some_state : windowStates = []
  · rw [some_state] at started
    cases started
  obtain ⟨last, latest, wtime, isStart⟩ := faggAddWindowExprs_eq some_state
  obtain ⟨first, isFirst, slide, -⟩ := first_slide some_state
  have some_spec : specs.reverse ≠ [] := by
    rw [Ne, reverse_eq_nil_iff, ← clauses, map_eq_nil_iff]
    exact some_state
  have inReach : InReach specs.reverse start := by
    obtain rfl := Except.ok.inj (isStart.symm.trans started)
    refine ⟨by rw [← clauses]; simp, firstEnd first.spec, slide, fun spec isSpec => ?_⟩
    refine meet.2 spec (mem_reverse.mp isSpec) first.spec ?_
    rw [← clauses]
    exact mem_map.mpr ⟨first, isFirst, rfl⟩
  have kept := (faggMachine nonFinite).run_keeps
    (fun _ _ _ inReach stepped => step_inReach inReach some_spec stepped) inReach ran
  obtain ⟨t, isTime, reached⟩ := kept.reached
  have isSpec : ws.spec ∈ specs.reverse := by
    rw [← kept.clauses]
    exact mem_map.mpr ⟨ws, mem, rfl⟩
  rw [← askedAbout_eq asked, isTime, answersNextEnd_iff (meet.1 _ (mem_reverse.mp isSpec))]
  exact reached _ isSpec

/-! A tuple that all clauses see at one time, and calls without input after it. -/

def clauseAt (now : Int) (seen : Timestamp) (spec : WindowSpec) : WindowState Unit :=
  ⟨spec, fun _ => now, seen⟩

structure Quiet (specs : List WindowSpec) (now : Int) (node : FAgg Unit) : Prop where
  state : node.state = .reading
  clauses : node.windowStates = specs.reverse.map (clauseAt now (.at now))
  current : node.currentTime = .at now
  live : node.liveTuples = []
  undescribed : node.outputTdesc = false
  activation : ∀ key ∈ node.activationGroups.keys, .at now < key
  deactivation : ∀ key ∈ node.deactivationGroups.keys, .at now < key

theorem dueGroup_ahead {behind : FAggFault} {slide : Timestamp}
    {groups : Groups Timestamp (TupleNode Tuple)} (ahead : ∀ key ∈ groups.keys, slide < key) :
    dueGroup behind slide groups = .ok ([], groups) := by
  cases groups with
  | nil => rfl
  | cons group groups =>
    have later := ahead group.1 (by simp [Groups.keys])
    simp [dueGroup, if_neg later.ne', if_pos later]

variable {now t : Int} {node : FAgg Unit}

theorem Quiet.step (quiet : Quiet specs now node) (slide : node.nextSlideTime = .at t)
    (due : t ≤ now) {answer : WindowState Unit → Int} (answered : ∀ ws ∈ node.windowStates,
      windowStateGetNextSlide nonFinite ws (.at t) = .ok (.at (answer ws)) ∧ t < answer ws) :
    ∃ reports next, processStateFAgg nonFinite ⟨1, false⟩ node = (reports, .ok next) ∧
      Quiet specs now next ∧
      next.nextSlideTime = (node.windowStates.map fun ws => .at (answer ws)).foldl min .noEnd := by
  have ahead : ∀ groups : Groups Timestamp (TupleNode Unit),
      (∀ key ∈ groups.keys, .at now < key) → ∀ key ∈ groups.keys, .at t < key :=
    fun groups ahead key mem => lt_of_le_of_lt (Timestamp.at_le_at.mpr due) (ahead key mem)
  have mapped : node.windowStates.mapM (windowStateGetNextSlide nonFinite · (.at t)) =
      .ok (node.windowStates.map fun ws => .at (answer ws)) :=
    mapM_eq_map fun ws mem => (answered ws mem).1
  set times := node.windowStates.map fun ws => Timestamp.at (answer ws) with isTimes
  have later : .at t < times.foldl min .noEnd := by
    rcases @foldl_min_mem times .noEnd with none_taken | taken
    · rw [none_taken]
      exact lt_of_le_of_ne (Timestamp.le_noEnd _) (Timestamp.at_ne_noEnd t)
    · obtain ⟨ws, mem, isAnswer⟩ := mem_map.mp taken
      rw [← isAnswer]
      exact Timestamp.at_lt_at.mpr (answered ws mem).2
  have advanced : advanceWindow nonFinite { node with wtime := node.nextSlideTime } = .ok
      { node with
        wtime := .at t
        lastSlideTime := .at t
        nextSlideTime := times.foldl min .noEnd
        latestSlideTime := times.foldl max .noBegin } := by
    simp [advanceWindow, slide, dueGroup_ahead (ahead _ quiet.activation),
      dueGroup_ahead (ahead _ quiet.deactivation), bind, Except.bind, mapped, pure, Except.pure,
      if_pos later, quiet.live]
  have isDue : node.nextSlideTime ≤ node.currentTime := by
    rw [slide, quiet.current]
    exact Timestamp.at_le_at.mpr due
  refine ⟨[⟨.at t, []⟩], { node with
      state := .reading
      wtime := .at t
      liveTuplesCur := []
      lastSlideTime := .at t
      nextSlideTime := times.foldl min .noEnd
      latestSlideTime := times.foldl max .noBegin }, ?_,
    ⟨rfl, quiet.clauses, quiet.current, quiet.live, quiet.undescribed, quiet.activation,
      quiet.deactivation⟩, rfl⟩
  -- the aggregation plan pulls once, finds no tuple and ends
  simp only [processStateFAgg, quiet.state, if_pos isDue]
  rw [show node.state = .reading from quiet.state] at advanced
  simp only [advanced]
  simp [faggScheduleAggPlan, pullTuples, execFAgg, bind, Except.bind, pure, Except.pure,
    quiet.live, quiet.undescribed]

theorem updateMaxTS_clauseAt (now : Int) (spec : WindowSpec) :
    windowStateUpdateMaxTS () (clauseAt now .noBegin spec) = clauseAt now (.at now) spec := by
  simp [windowStateUpdateMaxTS, clauseAt, Timestamp.noBegin, WithBot.bot_lt_coe]

theorem birth_le {windowStates : List (WindowState Tuple)} {ws : WindowState Tuple} (tuple : Tuple)
    (mem : ws ∈ windowStates) : (windowStateGetLifetime nonFinite ws tuple).1 ≤
      (tupleLifetime nonFinite windowStates tuple).1 := by
  have grows : ∀ (windowStates : List (WindowState Tuple)) (life : Timestamp × Timestamp),
      life.1 ≤ (windowStates.foldl (fun life ws =>
        let cur := windowStateGetLifetime nonFinite ws tuple
        (max life.1 cur.1, (cur.2.map (min life.2)).getD life.2)) life).1 := by
    intro windowStates
    induction windowStates with
    | nil => exact fun life => le_refl _
    | cons ws windowStates ih =>
      intro life
      refine le_trans ?_ (ih _)
      exact le_max_left _ _
  obtain ⟨before, after, isSplit⟩ := append_of_mem mem
  rw [tupleLifetime, isSplit, foldl_append, foldl_cons]
  refine le_trans ?_ (grows after _)
  exact le_max_right _ _

theorem lt_birth {ws : WindowState Tuple} (positive : 0 < ws.spec.slideBy) (tuple : Tuple) :
    .at (ws.getTS tuple) < (windowStateGetLifetime nonFinite ws tuple).1 := by
  simp only [windowStateGetLifetime]
  by_cases found : firstWindowNo nonFinite ws.spec (ws.getTS tuple) = -1
  · rw [if_pos found]
    exact lt_of_le_of_ne (Timestamp.le_noEnd _) (Timestamp.at_ne_noEnd _)
  · obtain ⟨counted, -, least⟩ := firstWindowNo_spec nonFinite positive found
    rw [if_neg found]
    exact Timestamp.at_lt_at.mpr ((least _ counted).mp (le_refl _))

/-- The first tuple sets the current time, and a clause that slides forward puts its windows
after it. -/
abbrev TakesFirst (nonFinite : Int → Int) (specs : List WindowSpec) (now : Int)
    (start : FAgg Unit) : Prop :=
  ∃ node, addNewTupleRangeSlide nonFinite () start = .ok node ∧ node.state = .reading ∧
    node.nextSlideTime = start.nextSlideTime ∧ node.currentTime = .at now ∧
    node.windowStates = specs.reverse.map (clauseAt now (.at now)) ∧
    ((∃ spec ∈ specs, 0 < spec.slideBy) → Quiet specs now node)

theorem first_input {start : FAgg Unit} (some_spec : specs ≠ []) (state : start.state = .reading)
    (clauses : start.windowStates = specs.reverse.map (clauseAt now .noBegin))
    (current : start.currentTime = .noBegin) (live : start.liveTuples = [])
    (undescribed : start.outputTdesc = false) (activation : start.activationGroups = [])
    (deactivation : start.deactivationGroups = []) : TakesFirst nonFinite specs now start := by
  obtain ⟨activated, deactivated, filed, added⟩ := addNewTupleRangeSlide_eq nonFinite () start
  have seen : start.windowStates.map (windowStateUpdateMaxTS ()) =
      specs.reverse.map (clauseAt now (.at now)) := by
    rw [clauses, map_map]
    exact map_congr_left fun spec _ => updateMaxTS_clauseAt now spec
  have least : (specs.reverse.map (clauseAt now (.at now))).foldl
      (fun time ws => min time ws.lastTSSeen) Timestamp.noEnd = .at now := by
    rw [← foldl_map]
    have taken := @foldl_min_noEnd
      ((specs.reverse.map (clauseAt now (.at now))).map WindowState.lastTSSeen)
      (by simpa using some_spec) (by simp [clauseAt, Timestamp.at_ne_noEnd])
    obtain ⟨ws, mem, isSeen⟩ := mem_map.mp taken
    obtain ⟨spec, -, rfl⟩ := mem_map.mp mem
    exact isSeen.symm
  simp only [seen, least, Timestamp.at_ne_noEnd, if_false] at added
  have isNow : max start.currentTime (.at now) = .at now := by
    rw [current]
    exact max_eq_right (Timestamp.noBegin_le _)
  refine ⟨_, added, state, rfl, isNow, rfl, fun forward => ?_⟩
  obtain ⟨spec, mem, positive⟩ := forward
  -- the tuple is born after `now`, if at all
  have ahead : (∀ key ∈ Groups.keys activated, .at now < key) ∧
      ∀ key ∈ Groups.keys deactivated, .at now < key := by
    rcases filed with ⟨rfl, rfl⟩ | ⟨birth, death, elem, isLife, alive, rfl, rfl⟩
    · rw [activation, deactivation]
      exact ⟨nofun, nofun⟩
    · have isClause : clauseAt now .noBegin spec ∈ start.windowStates := by
        rw [clauses]
        exact mem_map.mpr ⟨spec, mem_reverse.mpr mem, rfl⟩
      have born : .at now < birth := by
        have latest := @birth_le Unit nonFinite start.windowStates _ () isClause
        rw [isLife] at latest
        exact lt_of_lt_of_le (@lt_birth Unit nonFinite (clauseAt now .noBegin spec) positive ())
          latest
      rw [activation, deactivation]
      constructor
      · intro key isKey
        rcases Groups.mem_keys_modify isKey with rfl | old
        · exact born
        · cases old
      · intro key isKey
        rcases Groups.mem_keys_modify isKey with rfl | old
        · exact born.trans alive
        · cases old
  exact ⟨state, rfl, isNow, live, undescribed, ahead.1, ahead.2⟩

def Asks (nonFinite : Int → Int) (specs : List WindowSpec) (now : Int) (node : FAgg Unit) : Prop :=
  ∃ start calls reports before call,
    faggAddWindowExprs (specs.map (clauseAt now .noBegin)) processInitFAgg = .ok start ∧
    (faggMachine nonFinite).run start calls = (reports, .ok before) ∧
    before.state ≠ .noWindowExpr ∧ withInput nonFinite call before = .ok node ∧
    call.agg = ⟨1, false⟩

theorem Asks.answers (asks : Asks nonFinite specs now node)
    (right : NextSlidesRight nonFinite specs) (state : node.state = .reading)
    (slide : node.nextSlideTime = .at t) (due : .at t ≤ node.currentTime) :
    ∀ ws ∈ node.windowStates, AnswersNextEnd nonFinite ws (.at t) := by
  obtain ⟨start, calls, reports, before, call, started, ran, -, given, -⟩ := asks
  have clauses : (specs.map (clauseAt now .noBegin)).map WindowState.spec = specs := by
    rw [map_map]
    exact map_id _
  have asked : askedAbout nonFinite before call = some (.at t) := by
    simp [askedAbout, given, state, slide, due]
  intro ws mem
  have isSpec : ws.spec ∈ before.windowStates.map WindowState.spec := by
    rw [← (withInput_same given).1]
    exact mem_map.mpr ⟨ws, mem, rfl⟩
  obtain ⟨earlier, isEarlier, same⟩ := mem_map.mp isSpec
  have answers := right Unit _ clauses start started calls reports before ran call _ asked
  exact (answers earlier isEarlier).congr same.symm

theorem Asks.next {next : FAgg Unit} {reports : List (FAggReport Unit)}
    (asks : Asks nonFinite specs now node)
    (ran : processStateFAgg nonFinite ⟨1, false⟩ node = (reports, .ok next))
    (state : next.state = .reading) : Asks nonFinite specs now next := by
  obtain ⟨start, calls, earlier, before, call, started, ranBefore, ready, given, isAgg⟩ := asks
  have stepped : (faggMachine nonFinite).step before call = (reports, .ok next) := by
    rw [step_eq ready, given, isAgg]
    exact ran
  refine ⟨start, calls ++ [call], earlier ++ reports, next, ⟨none, ⟨1, false⟩⟩, started, ?_, ?_,
    rfl, rfl⟩
  · rw [(faggMachine nonFinite).run_append_ok ranBefore,
      (faggMachine nonFinite).run_cons_ok stepped, Machine.run_nil, append_nil]
  · rw [state]
    simp

/-- The slides go on to the first end of a clause that does not slide forward, and then there is no
answer. -/
theorem Quiet.stuck {spec : WindowSpec} (right : NextSlidesRight nonFinite specs)
    (mem : spec ∈ specs) (backward : spec.slideBy ≤ 0) (ends : firstEnd spec = now)
    (quiet : Quiet specs now node) (asks : Asks nonFinite specs now node)
    (slide : node.nextSlideTime = .at t) : now < t := by
  induction left : (now - t).toNat using Nat.strong_induction_on generalizing node t with
  | _ left ih =>
    by_contra notAfter
    have due : t ≤ now := not_lt.mp notAfter
    have answers := asks.answers right quiet.state slide (by
      rw [quiet.current]
      exact Timestamp.at_le_at.mpr due)
    have isClause : clauseAt now (.at now) spec ∈ node.windowStates := by
      rw [quiet.clauses]
      exact mem_map.mpr ⟨spec, mem_reverse.mpr mem, rfl⟩
    have before : t < now := by
      rcases due.lt_or_eq with before | atEnd
      · exact before
      · exact absurd (answers _ isClause)
          (not_answersNextEnd backward (ends.trans atEnd.symm).le)
    have each : ∀ ws : WindowState Unit, ∃ answer : Int, ws ∈ node.windowStates →
        (windowStateGetNextSlide nonFinite ws (.at t) = .ok (.at answer) ∧ t < answer) ∧
        ∀ j, 1 ≤ j → t < windowEnd ws.spec j → answer ≤ windowEnd ws.spec j := by
      intro ws
      by_cases isState : ws ∈ node.windowStates
      · obtain ⟨ts, k, isTime, answered, -, later, least⟩ := answers ws isState
        obtain rfl := Timestamp.at_inj.mp isTime
        exact ⟨windowEnd ws.spec k, fun _ => ⟨⟨answered, later⟩, least⟩⟩
      · exact ⟨0, fun mem => absurd mem isState⟩
    choose answer answered using each
    obtain ⟨reports, next, ran, quietNext, slideNext⟩ :=
      quiet.step slide due fun ws mem => (answered ws mem).1
    set times := node.windowStates.map fun ws => Timestamp.at (answer ws) with isTimes
    have isTime : .at (answer (clauseAt now (.at now) spec)) ∈ times :=
      mem_map.mpr ⟨_, isClause, rfl⟩
    have taken := @foldl_min_noEnd times (ne_nil_of_mem isTime) (by
      simp [isTimes, Timestamp.at_ne_noEnd])
    obtain ⟨ws, isState, isNext⟩ := mem_map.mp taken
    have atMost : answer ws ≤ now := by
      have least := @foldl_min_le times .noEnd _ isTime
      rw [← isNext, Timestamp.at_le_at] at least
      have byFirst := (answered _ isClause).2 1 (le_refl 1) (by
        rw [windowEnd_one]
        exact before.trans_eq ends.symm)
      rw [windowEnd_one] at byFirst
      exact least.trans (byFirst.trans_eq ends)
    have later := (answered ws isState).1.2
    have after := ih (now - answer ws).toNat (by omega) quietNext
      (asks.next ran quietNext.state) (slideNext.trans isNext.symm) rfl
    omega

theorem meet_of_nextSlidesRight (right : NextSlidesRight nonFinite specs) : SlidesMeet specs := by
  by_cases some_spec : specs = []
  · rw [some_spec]
    exact ⟨nofun, nofun⟩
  -- a tuple at time `now` makes the node ask about the first slide, if that is due
  have asked : ∀ now : Int, ∃ node first, Asks nonFinite specs now node ∧ node.state = .reading ∧
      node.nextSlideTime = .at (firstEnd first) ∧ node.currentTime = .at now ∧
      node.windowStates = specs.reverse.map (clauseAt now (.at now)) ∧ first ∈ specs ∧
      (∀ spec ∈ specs, firstEnd first ≤ firstEnd spec) ∧
      ((∃ spec ∈ specs, 0 < spec.slideBy) → Quiet specs now node) := by
    intro now
    have some_state : specs.map (clauseAt now .noBegin) ≠ [] := by simpa using some_spec
    obtain ⟨last, latest, wtime, isStart⟩ := faggAddWindowExprs_eq some_state
    obtain ⟨ws, isState, slide, least⟩ := first_slide some_state
    obtain ⟨first, isFirst, rfl⟩ := mem_map.mp isState
    obtain ⟨start, started, input⟩ : ∃ start,
        faggAddWindowExprs (specs.map (clauseAt now .noBegin)) processInitFAgg = .ok start ∧
        start.state = .reading ∧ start.nextSlideTime = .at (firstEnd first) ∧
        TakesFirst nonFinite specs now start :=
      ⟨_, isStart, rfl, slide, first_input some_spec rfl map_reverse.symm rfl rfl rfl rfl rfl⟩
    obtain ⟨ready, slide, node, added, state, sameSlide, current, clauses, quiet⟩ := input
    refine ⟨node, first, ⟨start, [], [], start, ⟨some (), ⟨1, false⟩⟩, started, rfl,
      by simp [ready], added, rfl⟩,
      state, sameSlide.trans slide, current, clauses, isFirst, fun spec mem => ?_, quiet⟩
    exact least _ (mem_map.mpr ⟨spec, mem, rfl⟩)
  have forward : ∀ spec ∈ specs, 0 < spec.slideBy := by
    intro spec mem
    by_contra backward
    have backward : spec.slideBy ≤ 0 := not_lt.mp backward
    obtain ⟨node, first, asks, state, slide, current, clauses, isFirst, least, quiet⟩ :=
      asked (firstEnd spec)
    by_cases some_forward : ∃ spec ∈ specs, 0 < spec.slideBy
    · have after := (quiet some_forward).stuck right mem backward rfl asks slide
      exact absurd (least spec mem) (not_le.mpr after)
    · -- then the first clause has no later end
      have answers := asks.answers right state slide (by
        rw [current]
        exact Timestamp.at_le_at.mpr (least spec mem))
      have isClause : clauseAt (firstEnd spec) (.at (firstEnd spec)) first ∈ node.windowStates := by
        rw [clauses]
        exact mem_map.mpr ⟨first, mem_reverse.mpr isFirst, rfl⟩
      exact not_answersNextEnd (not_lt.mp fun positive => some_forward ⟨first, isFirst, positive⟩)
        (le_refl _) (answers _ isClause)
  refine ⟨forward, fun spec mem other isOther => ?_⟩
  obtain ⟨node, first, asks, state, slide, current, clauses, isFirst, least, -⟩ :=
    asked (firstEnd other)
  have answers := asks.answers right state slide (by
    rw [current]
    exact Timestamp.at_le_at.mpr (least other isOther))
  have isClause : clauseAt (firstEnd other) (.at (firstEnd other)) spec ∈ node.windowStates := by
    rw [clauses]
    exact mem_map.mpr ⟨spec, mem_reverse.mpr mem, rfl⟩
  have reached := (answersNextEnd_iff (forward spec mem)).mp (answers _ isClause)
  exact reached.trans (least other isOther)

end Runs

end TelegraphCQ.Window
