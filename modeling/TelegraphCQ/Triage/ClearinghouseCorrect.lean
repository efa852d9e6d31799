import TelegraphCQ.Triage.InPhase

/-!
# Epochs of a shed stream

In a run of the driver the queue stays in phase with its epoch as long as it is never more
than one epoch behind when a tuple leaves it, a full queue changes to an epoch that all
its tuples are of, and no tuple comes for an epoch that is over.  None of the checks of
the queue then fails, and the summaries are of the epochs they are for.
-/

namespace TelegraphCQ.Triage

open Foundation Window List

section Driver

variable {Tuple : Type}

def streamArrivals (ops : List (WrapchOp Tuple)) : List Tuple :=
  ops.filterMap fun
    | .tuple tup => some tup
    | .service _ _ => none

section Conditions

variable (config : TriageConfig Tuple)

def frontInEpoch (q : TriageQueue Tuple) : Bool :=
  (triagePeek q).all fun item => windowNo config (getTimestampVal config item) = q.epochnum

/-- A full queue has only tuples of the next epoch when its summaries are taken. -/
def canSwitch (now : Int) (q : TriageQueue Tuple) : Bool :=
  !triageSummariesReady config q now || decide (q.nelem ≠ config.qlen) ||
    (contents config q).all fun item =>
      windowNo config (getTimestampVal config item) = q.epochnum + 1

def okAnd {α : Type} (result : Except TriageFault α) (holds : α → Bool) : Bool :=
  match result with
  | .ok value => holds value
  | .error _ => true

def tupleInStep (tup : Tuple) (q : TriageQueue Tuple) : Bool :=
  decide (Regular config (config.timestamp tup)) && canSwitch config (config.timestamp tup) q &&
    okAnd (sendLossSummaries config q (config.timestamp tup)).2 fun q =>
      (!q.haveTs || decide (q.epochnum ≤ windowNo config (config.timestamp tup))) &&
        (decide (q.nelem ≠ config.qlen) || frontInEpoch config q)

def serviceInStep (now : Int) (accepted : Bool) (q : TriageQueue Tuple) : Bool :=
  okAnd (triageCleanupExpiredTuples config q now) fun q =>
    canSwitch config now q && okAnd (sendLossSummaries config q now).2 fun q =>
      !accepted || frontInEpoch config q

def InStep (first : FirstWindow) (state : Wrapch Tuple) : WrapchOp Tuple → Prop
  | .tuple tup => tupleInStep
      (config.startingAt (state.triageSummaryWindowStart.getD (first.start config tup))) tup
      state.triageq = true
  | .service now accepted => ∀ start ∈ state.triageSummaryWindowStart,
      serviceInStep (config.startingAt start) now accepted state.triageq = true

instance (first : FirstWindow) (state : Wrapch Tuple) :
    ∀ op, Decidable (InStep config first state op)
  | .tuple _ => inferInstanceAs (Decidable (_ = _))
  | .service _ _ => inferInstanceAs (Decidable (∀ start ∈ _, _ = _))

end Conditions

variable {config : TriageConfig Tuple} {q next : TriageQueue Tuple} {tup : Tuple} {now : Int}
  {current later : List (Queued Tuple)} {ops : List (TriageOp Tuple)}
  {outs emitted : List (TriageOut Tuple)}

/-! ## One call -/

theorem Accounts.step (long : 0 < config.qlen) (accounts : Accounts config ops outs q)
    {op : TriageOp Tuple} (ran : triageStep config q op = (emitted, .ok next)) :
    Accounts config (ops ++ [op]) (outs ++ emitted) next := by
  have accounted := accounted_step long accounts op
  simp only [triageMachine, ran] at accounted
  exact accounted

theorem Accounts.queued (long : 0 < config.qlen) (accounts : Accounts config ops outs q)
    (holds : QueueHolds config q (current ++ later)) :
    ∃ gone, arrivals ops = gone ++ streamTuples (current ++ later) := by
  obtain ⟨items, departures, holdsItems, ledger⟩ := accounts
  have same : items = current ++ later := by
    rw [← holdsItems.contents_eq long, holds.contents_eq long]
  rw [← same]
  exact ⟨_, ledger.arrived.symm⟩

structure Tracked (config : TriageConfig Tuple) (arrived : List Tuple)
    (outs : List (TriageOut Tuple)) (q : TriageQueue Tuple) : Prop where
  window : 0 < config.epochLen
  regular : ∀ tup ∈ arrived, Regular config (config.timestamp tup)
  accounts : ∃ ops, arrivals ops = arrived ∧ Accounts config ops outs q
  phase : ∃ current later, InPhase config q current later

section Calls

variable {arrived : List Tuple} (long : 0 < config.qlen)

theorem InPhase.later_eq (phase : InPhase config q current later) :
    later = (streamTuples later).map Queued.tuple := by
  have tuples := phase.tuples
  clear phase
  induction later with
  | nil => rfl
  | cons item rest ih =>
    obtain ⟨tup, rfl⟩ := tuples item mem_cons_self
    have same := ih fun other isOther => tuples other (mem_cons_of_mem _ isOther)
    simpa [streamTuples] using same

variable (tracked : Tracked config arrived outs q)
  (ordered : arrived.Pairwise fun first second => config.timestamp first ≤ config.timestamp second)

include long tracked in
theorem Tracked.later_arrived (phase : InPhase config q current later) :
    ∃ gone, arrived = gone ++ streamTuples later := by
  obtain ⟨ops, rfl, accounts⟩ := tracked.accounts
  obtain ⟨gone, split⟩ := accounts.queued long phase.holds
  refine ⟨gone ++ streamTuples current, ?_⟩
  simpa [streamTuples, filterMap_append] using split

include long tracked ordered in
theorem Tracked.sorted (phase : InPhase config q current later) : later.Pairwise fun first second =>
      getTimestampVal config first ≤ getTimestampVal config second := by
  obtain ⟨gone, rfl⟩ := tracked.later_arrived long phase
  rw [phase.later_eq, pairwise_map]
  exact (pairwise_append.mp ordered).2.1

include long tracked ordered in
theorem Tracked.getSummaries (isReady : q.nextDequeueIx = q.nextEpochIx ∨ q.nelem = 0)
    (switch : q.nelem = config.qlen → ∀ item ∈ contents config q,
      windowNo config (getTimestampVal config item) = q.epochnum + 1) :
    ∃ emitted next, triageStep config q .getSummaries = (emitted, .ok next) ∧
      Tracked config arrived (outs ++ emitted) next := by
  obtain ⟨current, later, phase⟩ := tracked.phase
  obtain ⟨ops, arrivedOps, accounts⟩ := tracked.accounts
  rw [phase.holds.contents_eq long] at switch
  obtain ⟨⟨kept, dropped⟩, next, current', later', ran, phaseNext⟩ := phase.summaries
    tracked.window isReady (fun full item isItem => switch full item
      (mem_append_right _ isItem)) long (tracked.sorted long ordered phase)
  have stepped : triageStep config q .getSummaries = ([.summaries kept dropped], .ok next) := by
    rw [triageStep, ran]
  refine ⟨_, next, stepped, tracked.window, tracked.regular,
    ⟨_, ?_, accounts.step long stepped⟩, current', later', phaseNext⟩
  simpa [arrivals] using arrivedOps

include long tracked ordered in
theorem Tracked.sendLossSummaries (switch : canSwitch config now q = true) :
    ∃ emitted next, Triage.sendLossSummaries config q now = (emitted, .ok next) ∧
      Tracked config arrived (outs ++ emitted) next := by
  by_cases ready : triageSummariesReady config q now = true
  · have isReady : q.nextDequeueIx = q.nextEpochIx ∨ q.nelem = 0 := by
      simp only [triageSummariesReady, Bool.or_eq_true, Bool.and_eq_true,
        decide_eq_true_eq] at ready
      exact ready.imp_right And.left
    have inNext : q.nelem = config.qlen → ∀ item ∈ contents config q,
        windowNo config (getTimestampVal config item) = q.epochnum + 1 := by
      intro full
      simpa [canSwitch, ready, full] using switch
    obtain ⟨emitted, next, stepped, trackedNext⟩ := tracked.getSummaries long ordered isReady inNext
    exact ⟨emitted, next, (if_pos ready).trans stepped, trackedNext⟩
  · exact ⟨[], q, if_neg ready, by rwa [append_nil]⟩

include long tracked in
theorem Tracked.cleanup (now : Int) : ∃ next, triageCleanupExpiredTuples config q now = .ok next ∧
      Tracked config arrived outs next := by
  obtain ⟨current, later, phase⟩ := tracked.phase
  obtain ⟨ops, arrivedOps, accounts⟩ := tracked.accounts
  obtain ⟨next, rest, ran, phaseNext, -, -⟩ := phase.cleanup tracked.window now
  have stepped : triageStep config q (.cleanup now) = ([], .ok next) := by rw [triageStep, ran]
  have accountsNext := accounts.step long stepped
  rw [append_nil] at accountsNext
  refine ⟨next, ran, tracked.window, tracked.regular, ⟨_, ?_, accountsNext⟩, rest, later, phaseNext⟩
  simpa [arrivals] using arrivedOps

theorem InPhase.front (phase : InPhase config q current later)
    (inEpoch : frontInEpoch config q = true) (notEmpty : q.nelem ≠ 0) :
    ∃ item rest, current = item :: rest ∧ triagePeek q = some item ∧
      windowNo config (getTimestampVal config item) = q.epochnum := by
  have count := phase.holds.count
  cases current with
  | nil =>
    cases later with
    | nil =>
      simp at count
      omega
    | cons item rest =>
      have front : triagePeek q = some item := (if_neg notEmpty).trans phase.holds.occupies.head
      have after := (phase.ahead item mem_cons_self).2
      rw [frontInEpoch, front, Option.all_some, decide_eq_true_eq] at inEpoch
      omega
  | cons item rest =>
    have front : triagePeek q = some item := (if_neg notEmpty).trans phase.holds.occupies.head
    rw [frontInEpoch, front, Option.all_some, decide_eq_true_eq] at inEpoch
    exact ⟨item, rest, rfl, front, inEpoch⟩

include long tracked in
theorem Tracked.dequeue (inEpoch : frontInEpoch config q = true) (notEmpty : q.nelem ≠ 0) :
    ∃ emitted next, triageStep config q .dequeue = (emitted, .ok next) ∧
      Tracked config arrived (outs ++ emitted) next := by
  obtain ⟨current, later, phase⟩ := tracked.phase
  obtain ⟨ops, arrivedOps, accounts⟩ := tracked.accounts
  obtain ⟨item, rest, rfl, -, ofEpoch⟩ := phase.front inEpoch notEmpty
  obtain ⟨next, ran, phaseNext⟩ := phase.dequeue ofEpoch
  have stepped : triageStep config q .dequeue = ([.returned (some item)], .ok next) := by
    rw [triageStep, ran]
  refine ⟨_, next, stepped, tracked.window, tracked.regular,
    ⟨_, ?_, accounts.step long stepped⟩, rest, later, phaseNext⟩
  simpa [arrivals] using arrivedOps

include long tracked in
theorem Tracked.offerNext {accepted : Bool}
    (inEpoch : accepted = true → frontInEpoch config q = true) :
    ∃ emitted next, Triage.offerNext config accepted q = (emitted, .ok next) ∧
      Tracked config arrived (outs ++ emitted) next := by
  by_cases offered : ((triagePeek q).isSome && accepted) = true
  · obtain ⟨isFront, taken⟩ := Bool.and_eq_true_iff.mp offered
    have notEmpty : q.nelem ≠ 0 := by
      intro empty
      simp [triagePeek, empty] at isFront
    obtain ⟨emitted, next, stepped, trackedNext⟩ := tracked.dequeue long (inEpoch taken) notEmpty
    exact ⟨emitted, next, (if_pos offered).trans stepped, trackedNext⟩
  · exact ⟨[], q, if_neg offered, by rwa [append_nil]⟩

include long tracked in
theorem Tracked.enqueue (inOrder : ∀ other ∈ arrived, config.timestamp other ≤ config.timestamp tup)
    (regular : Regular config (config.timestamp tup))
    (notBefore : q.haveTs = true → q.epochnum ≤ windowNo config (config.timestamp tup))
    (atFront : q.nelem = config.qlen → frontInEpoch config q = true) :
    ∃ next, triageEnqueue config tup q = .ok next ∧
      Tracked config (arrived ++ [tup]) outs next := by
  obtain ⟨current, later, phase⟩ := tracked.phase
  obtain ⟨ops, rfl, accounts⟩ := tracked.accounts
  obtain ⟨gone, split⟩ := tracked.later_arrived long phase
  have laterBefore : ∀ item ∈ later, getTimestampVal config item ≤ config.timestamp tup := by
    intro item isItem
    obtain ⟨other, rfl⟩ := phase.tuples item isItem
    refine inOrder other ?_
    rw [split]
    exact mem_append_right _ (Ledger.mem_streamTuples.mpr isItem)
  obtain ⟨next, current', later', ran, phaseNext⟩ := phase.enqueue tracked.window regular
    notBefore laterBefore long (fun full => by
      obtain ⟨item, rest, isCurrent, -, ofEpoch⟩ := phase.front (atFront full) (by omega)
      exact ⟨item, rest, isCurrent, ofEpoch⟩)
  have stepped : triageStep config q (.enqueue tup) = ([], .ok next) := by rw [triageStep, ran]
  have accountsNext := accounts.step long stepped
  rw [append_nil] at accountsNext
  refine ⟨next, ran, tracked.window, ?_, ⟨_, by simp [arrivals], accountsNext⟩, current',
    later', phaseNext⟩
  exact forall_mem_append.mpr ⟨tracked.regular, forall_mem_singleton.mpr regular⟩

end Calls

/-! ## Runs -/

section Runs

variable (config) (first : FirstWindow)

def Underway (ops : List (WrapchOp Tuple)) (outs : List (TriageOut Tuple))
    (state : Wrapch Tuple) : Prop :=
  match state.triageSummaryWindowStart with
  | none => streamArrivals ops = [] ∧ outs = [] ∧ state.triageq = triageCreate
  | some start => Tracked (config.startingAt start) (streamArrivals ops) outs state.triageq

variable {config} (long : 0 < config.qlen)

variable {arrived : List Tuple}

include long in
theorem processTuple_tracked (tracked : Tracked config arrived outs q)
    (ordered : (arrived ++ [tup]).Pairwise fun first second =>
      config.timestamp first ≤ config.timestamp second) (inStep : tupleInStep config tup q = true) :
    ∃ emitted next, processTupleUnarchivedDrop config tup q = (emitted, .ok next) ∧
      Tracked config (arrived ++ [tup]) (outs ++ emitted) next := by
  obtain ⟨orderedBefore, -, inOrder⟩ := pairwise_append.mp ordered
  simp only [tupleInStep, Bool.and_eq_true, decide_eq_true_eq] at inStep
  obtain ⟨⟨regular, switch⟩, checks⟩ := inStep
  obtain ⟨emitted, mid, sent, trackedMid⟩ := tracked.sendLossSummaries long orderedBefore switch
  simp only [sent, okAnd, Bool.and_eq_true, Bool.or_eq_true, decide_eq_true_eq,
    Bool.not_eq_true'] at checks
  obtain ⟨notBefore, atFront⟩ := checks
  obtain ⟨next, ran, trackedNext⟩ := trackedMid.enqueue long
    (fun other isOther => inOrder other isOther tup mem_cons_self) regular
    (fun started => notBefore.resolve_left (by rw [started]; decide))
    (fun full => atFront.resolve_left (fun other => other full))
  exact ⟨emitted, next, by simp [processTupleUnarchivedDrop, sent, ran], trackedNext⟩

include long in
theorem serviceTriageQueue_tracked {accepted : Bool} (tracked : Tracked config arrived outs q)
    (ordered : arrived.Pairwise fun first second =>
      config.timestamp first ≤ config.timestamp second)
    (inStep : serviceInStep config now accepted q = true) :
    ∃ emitted next, serviceTriageQueue config now accepted q = (emitted, .ok next) ∧
      Tracked config arrived (outs ++ emitted) next := by
  obtain ⟨cleaned, ranCleanup, trackedCleaned⟩ := tracked.cleanup long now
  simp only [serviceInStep, ranCleanup, okAnd, Bool.and_eq_true] at inStep
  obtain ⟨switch, check⟩ := inStep
  obtain ⟨emitted, mid, sent, trackedMid⟩ := trackedCleaned.sendLossSummaries long ordered switch
  simp only [sent, Bool.or_eq_true, Bool.not_eq_true'] at check
  have inEpoch : accepted = true → frontInEpoch config mid = true :=
    fun taken => check.resolve_left (by rw [taken]; decide)
  obtain ⟨offered, next, ran, trackedNext⟩ := trackedMid.offerNext long inEpoch
  refine ⟨emitted ++ offered, next, ?_, by rwa [← append_assoc]⟩
  rw [serviceTriageQueue, ranCleanup]
  simp [sent, ran]

theorem streamArrivals_tuple (before : List (WrapchOp Tuple)) (tup : Tuple) :
    streamArrivals (before ++ [.tuple tup]) = streamArrivals before ++ [tup] := by
  simp [streamArrivals]

theorem streamArrivals_service (before : List (WrapchOp Tuple)) (now : Int) (accepted : Bool) :
    streamArrivals (before ++ [.service now accepted]) = streamArrivals before := by
  simp [streamArrivals]

theorem created_tracked (window : 0 < config.epochLen) (long : 0 < config.qlen) :
    Tracked config [] [] triageCreate where
  window := window
  regular := fun tup isTuple => by cases isTuple
  accounts := ⟨[], rfl, created_accounts long⟩
  phase := ⟨[], [], created_holds long, rfl, fun item isItem => (by cases isItem),
    fun item isItem => (by cases isItem), fun item isItem => (by cases isItem)⟩

include long in
theorem underway_step {before : List (WrapchOp Tuple)} {op : WrapchOp Tuple} {state : Wrapch Tuple}
    (ordered : (streamArrivals (before ++ [op])).Pairwise fun first second =>
      config.timestamp first ≤ config.timestamp second)
    (inStep : InStep config first state op) (underway : Underway config before outs state) :
    ∃ emitted next, wrapchStep config first state op = (emitted, .ok next) ∧
      Underway config (before ++ [op]) (outs ++ emitted) next := by
  obtain ⟨start?, q⟩ := state
  have longFrom : ∀ start, 0 < (config.startingAt start).qlen := fun _ => long
  cases op with
  | tuple tup =>
    rw [streamArrivals_tuple] at ordered
    have regular : Regular (config.startingAt (start?.getD (first.start config tup)))
        (config.timestamp tup) := by
      simp only [InStep, tupleInStep, Bool.and_eq_true, decide_eq_true_eq] at inStep
      exact inStep.1.1
    have tracked : Tracked (config.startingAt (start?.getD (first.start config tup)))
        (streamArrivals before) outs q := by
      cases start? with
      | none =>
        obtain ⟨noArrivals, rfl, rfl⟩ := underway
        rw [noArrivals]
        exact created_tracked regular.1 (longFrom _)
      | some start => exact underway
    obtain ⟨emitted, next, ran, trackedNext⟩ :=
      processTuple_tracked (longFrom _) tracked ordered inStep
    refine ⟨emitted, ⟨some (start?.getD (first.start config tup)), next⟩, ?_, ?_⟩
    · simp [wrapchStep, ran, Except.map]
    · rw [← streamArrivals_tuple] at trackedNext
      exact trackedNext
  | service now accepted =>
    rw [streamArrivals_service] at ordered
    cases start? with
    | none =>
      refine ⟨[], ⟨none, q⟩, rfl, ?_⟩
      obtain ⟨noArrivals, rfl, rfl⟩ := underway
      exact ⟨(streamArrivals_service before now accepted).trans noArrivals, rfl, rfl⟩
    | some start =>
      obtain ⟨emitted, next, ran, trackedNext⟩ :=
        serviceTriageQueue_tracked (longFrom start) underway ordered (inStep start rfl)
      refine ⟨emitted, ⟨some start, next⟩, ?_, ?_⟩
      · simp [wrapchStep, ran, Except.map]
      · rw [← streamArrivals_service before now accepted] at trackedNext
        exact trackedNext

theorem Tracked.inEpoch (tracked : Tracked config arrived outs q) {summary : SummaryTuples Tuple}
    (isSummary : summary ∈ allKept config outs q ++ allDropped config outs q)
    (isCounted : tup ∈ streamTuples summary.summary) :
    summary.epochstart ≤ config.timestamp tup ∧ config.timestamp tup < summary.epochend := by
  obtain ⟨ops, rfl, items, departures, -, ledger⟩ := tracked.accounts
  have gone : ∀ fate, ∀ other ∈ ofFate fate departures, other ∈ arrivals ops := by
    intro fate other isOther
    rw [← ledger.arrived]
    obtain ⟨pair, isPair, rfl⟩ := mem_map.mp isOther
    exact mem_append_left _
      (mem_map.mpr ⟨pair, (mem_filter.mp isPair).1, rfl⟩)
  have mem_counted : ∀ {summaries : List (SummaryTuples Tuple)}, summary ∈ summaries →
      tup ∈ counted summaries := fun isMember =>
    Ledger.mem_streamTuples.mpr
      (mem_flatMap.mpr ⟨_, isMember, Ledger.mem_streamTuples.mp isCounted⟩)
  rcases mem_append.mp isSummary with kept | dropped
  · refine ((ledger.kept.labelled summary kept).inEpoch_iff isCounted).mpr (tracked.regular tup ?_)
    have isKept := mem_counted kept
    rw [allKept, ledger.kept.counts] at isKept
    split_ifs at isKept with disabled
    · cases isKept
    · exact gone _ tup isKept
  · refine ((ledger.dropped.labelled summary dropped).inEpoch_iff isCounted).mpr
      (tracked.regular tup (gone .dropped tup ?_))
    rw [← ledger.dropped.counts]
    exact mem_counted dropped

def fromZero : FirstWindow := ⟨some 0, 0⟩

end Runs

end Driver

end TelegraphCQ.Triage
