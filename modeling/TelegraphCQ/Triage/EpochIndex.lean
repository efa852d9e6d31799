import TelegraphCQ.Triage.Bounds
import TelegraphCQ.Triage.ClearinghouseCorrect

/-!
# The index of the next epoch

The index of the next epoch is that of the first tuple beyond the current epoch.  In a full
buffer the loop of `triage_get_summaries` does not look at a single tuple, since its start
is the position that it stops at, and takes the whole buffer for the new epoch.
-/

namespace TelegraphCQ.Triage

open Foundation Window List

variable {Tuple : Type}

section Index

variable (config : TriageConfig Tuple)

/-- A punctuation tuple that the queue has made stands for the current epoch. -/
def liesBeyond (q : TriageQueue Tuple) : Queued Tuple → Bool
  | .tuple tup => simpleTsPastWindow config (config.timestamp tup) q.epochnum
  | .punctuation _ => false

def inCurrentEpoch (q : TriageQueue Tuple) : Queued Tuple → Bool
  | .tuple tup => InWindow config.epochs q.epochnum (config.timestamp tup)
  | .punctuation _ => true

def firstBeyond (q : TriageQueue Tuple) : Int :=
  match (contents config q).findIdx? (liesBeyond config q) with
  | none => notAnIndex
  | some j => place config.qlen q.nextDequeueIx j

def IndexExact (q : TriageQueue Tuple) : Prop :=
  q.nextEpochIx = firstBeyond config q ∧
    (q.nextEpochIx = notAnIndex ↔ ∀ item ∈ contents config q, inCurrentEpoch config q item)

/-- The tuples that arrive are in the epoch that the source numbers them with, and a full
queue has only tuples of the next epoch when its summaries are taken. -/
def KeepsIndex (q : TriageQueue Tuple) : TriageOp Tuple → Prop
  | .enqueue tup => Regular config (config.timestamp tup)
  | .getSummaries => q.nelem = config.qlen → ∀ item ∈ contents config q,
      windowNo config (getTimestampVal config item) = q.epochnum + 1
  | .dequeue | .cleanup _ => True

instance (q : TriageQueue Tuple) : ∀ op, Decidable (KeepsIndex config q op)
  | .enqueue _ => inferInstanceAs (Decidable (_ ∧ _))
  | .getSummaries => inferInstanceAs (Decidable (_ → _))
  | .dequeue | .cleanup _ => .isTrue trivial

end Index

section Steps

variable {config : TriageConfig Tuple} {q next : TriageQueue Tuple} {tup : Tuple}
  {current later : List (Queued Tuple)} {outs : List (TriageOut Tuple)} {arrived : List Tuple}

theorem InPhase.not_beyond (positive : 0 < config.epochLen)
    (phase : InPhase config q current later) :
    ∀ item ∈ current, liesBeyond config q item = false := by
  intro item isItem
  cases item with
  | punctuation ts => rfl
  | tuple tup =>
    obtain inEpoch | ⟨ts, isPunct⟩ := phase.inEpoch _ isItem
    · rw [liesBeyond, ← Bool.not_eq_true]
      exact fun past => windowNo_ne_of_past positive past inEpoch
    · cases isPunct

theorem InPhase.beyond (phase : InPhase config q current later) :
    ∀ item ∈ later, liesBeyond config q item = true ∧ inCurrentEpoch config q item = false := by
  intro item isItem
  obtain ⟨tup, rfl⟩ := phase.tuples item isItem
  obtain ⟨regular, ahead⟩ := phase.ahead _ isItem
  have past := (past_iff regular q.epochnum).mpr ahead
  refine ⟨past, decide_eq_false ?_⟩
  rintro ⟨-, unfinished⟩
  rw [getTimestampVal, simpleTsPastWindow, timestampPastWindow, Bool.not_eq_true',
    decide_eq_false_iff_not] at past
  exact past unfinished

section

variable (long : 0 < config.qlen) (tracked : Tracked config arrived outs q)
include long tracked

theorem Tracked.indexExact : IndexExact config q := by
  obtain ⟨current, later, phase⟩ := tracked.phase
  have contentsEq := phase.holds.contents_eq long
  have index := phase.index
  have inEpoch : ∀ item ∈ current, inCurrentEpoch config q item = true := by
    intro item isItem
    cases item with
    | punctuation ts => rfl
    | tuple tup =>
      obtain sameEpoch | ⟨ts, isPunct⟩ := phase.inEpoch _ isItem
      · obtain ⟨ops, rfl, accounts⟩ := tracked.accounts
        obtain ⟨gone, split⟩ := accounts.queued long phase.holds
        have regular : Regular config (config.timestamp tup) := by
          apply tracked.regular
          rw [split]
          exact mem_append_right _
            (Ledger.mem_streamTuples.mpr (mem_append_left _ isItem))
        apply decide_eq_true
        rw [← sameEpoch]
        exact (inWindow_windowNo_iff _).mpr regular
      · cases isPunct
  have before : current.findIdx? (liesBeyond config q) = none :=
    findIdx?_eq_none_iff.mpr (phase.not_beyond tracked.window)
  rw [IndexExact, firstBeyond, contentsEq, findIdx?_append, before]
  cases later with
  | nil =>
    refine ⟨index, iff_of_true index ?_⟩
    rwa [append_nil]
  | cons item rest =>
    obtain ⟨beyond, notCurrent⟩ := phase.beyond item mem_cons_self
    refine ⟨?_, iff_of_false (phase.index_ne tracked.window (by simp)) ?_⟩
    · simpa [findIdx?_cons, beyond] using index
    · intro all
      rw [all item (by simp)] at notCurrent
      cases notCurrent

theorem Tracked.notBefore
    (inOrder : ∀ other ∈ arrived, config.timestamp other ≤ config.timestamp tup)
    (regular : Regular config (config.timestamp tup)) (started : q.haveTs = true)
    (ran : triageEnqueue config tup q = .ok next) :
    q.epochnum ≤ windowNo config (config.timestamp tup) := by
  obtain ⟨current, later, phase⟩ := tracked.phase
  cases later with
  | cons item rest =>
    obtain ⟨gone, split⟩ := tracked.later_arrived long phase
    obtain ⟨other, rfl⟩ := phase.tuples item mem_cons_self
    obtain ⟨regularOther, ahead⟩ := phase.ahead _ mem_cons_self
    have sooner := windowNo_mono regularOther regular
      (inOrder other (by simp [split, streamTuples]))
    exact ahead.le.trans sooner
  | nil =>
    rw [triageEnqueue_eq] at ran
    obtain ⟨appended, appending, -⟩ := exists_of_bind_ok ran
    obtain ⟨mid, room, checking⟩ := exists_of_bind_ok appending
    obtain ⟨checked, checking, -⟩ := exists_of_bind_ok checking
    have same : mid.epochnum = q.epochnum ∧ mid.nextEpochIx = q.nextEpochIx := by
      rw [madeRoom, startEpoch, if_pos started] at room
      split_ifs at room
      · unfold dropOldest at room
        split at room
        · cases room
        · split_ifs at room
          cases room
          exact ⟨rfl, rfl⟩
      · cases room
        exact ⟨rfl, rfl⟩
    have noIndex : mid.nextEpochIx = notAnIndex := same.2.trans phase.index
    rw [checkEpoch, if_pos noIndex, same.1] at checking
    split_ifs at checking with past other
    · exact ((past_iff regular _).mp past).le
    · exact (not_not.mp other).ge

theorem Tracked.atFront (full : q.nelem = config.qlen) (ran : triageEnqueue config tup q = .ok next)
    : frontInEpoch config q = true := by
  obtain ⟨current, later, phase⟩ := tracked.phase
  have started : q.haveTs = true := by
    by_contra notStarted
    have count := phase.holds.count
    rw [(phase.holds.unstarted (by simpa using notStarted)).1, length_nil] at count
    omega
  have same : startEpoch config tup q = q := if_pos started
  rw [triageEnqueue, same, if_pos full] at ran
  obtain ⟨dropped, dropping, -⟩ := exists_of_bind_ok ran
  unfold dropOldest at dropping
  split at dropping
  · cases dropping
  next oldest front =>
    split_ifs at dropping with other
    rw [frontInEpoch, front]
    simpa using other

end

theorem frontInEpoch_of_dequeue (notEmpty : q.nelem ≠ 0)
    (stepped : (triageStep config q .dequeue).2 = .ok next) : frontInEpoch config q = true := by
  rw [frontInEpoch, triagePeek, if_neg notEmpty]
  cases front : q.buf q.nextDequeueIx with
  | none => rfl
  | some item =>
    rw [Option.all_some, decide_eq_true_eq]
    by_contra other
    simp [triageStep, triageDequeue, notEmpty, front, other] at stepped

theorem Tracked.step (long : 0 < config.qlen) (tracked : Tracked config arrived outs q)
    {op : TriageOp Tuple} (keeps : KeepsIndex config q op)
    (ordered : (arrived ++ arrivals [op]).Pairwise fun first second =>
      config.timestamp first ≤ config.timestamp second)
    (stepped : ((triageMachine config).step q op).2 = .ok next) :
    ∃ outs, Tracked config (arrived ++ arrivals [op]) outs next := by
  cases op with
  | enqueue tup =>
    have inOrder : ∀ other ∈ arrived, config.timestamp other ≤ config.timestamp tup :=
      fun other isOther => (pairwise_append.mp ordered).2.2 other isOther tup (by simp [arrivals])
    have ran : triageEnqueue config tup q = .ok next := stepped
    obtain ⟨reached, enqueued, trackedNext⟩ := tracked.enqueue long inOrder keeps
      (fun started => tracked.notBefore long inOrder keeps started ran)
      (fun full => tracked.atFront long full ran)
    cases ran.symm.trans enqueued
    exact ⟨outs, trackedNext⟩
  | cleanup now =>
    have ran : triageCleanupExpiredTuples config q now = .ok next := stepped
    obtain ⟨reached, cleaned, trackedNext⟩ := tracked.cleanup long now
    cases ran.symm.trans cleaned
    exact ⟨outs, by simpa [arrivals] using trackedNext⟩
  | dequeue =>
    have none : arrivals [TriageOp.dequeue] = ([] : List Tuple) := rfl
    rw [none, append_nil]
    by_cases empty : q.nelem = 0
    · simp only [triageMachine, triageStep, triageDequeue, empty, if_true, Except.ok.injEq]
        at stepped
      exact ⟨outs, stepped ▸ tracked⟩
    · obtain ⟨emitted, reached, dequeued, trackedNext⟩ :=
        tracked.dequeue long (frontInEpoch_of_dequeue empty stepped) empty
      cases stepped.symm.trans (congrArg Prod.snd dequeued)
      exact ⟨_, trackedNext⟩
  | getSummaries =>
    have none : arrivals [TriageOp.getSummaries] = ([] : List Tuple) := rfl
    rw [none, append_nil] at ordered ⊢
    have isReady : q.nextDequeueIx = q.nextEpochIx ∨ q.nelem = 0 := by
      by_contra notReady
      simp [triageMachine, triageStep, triageGetSummaries, notReady] at stepped
    obtain ⟨emitted, reached, extracted, trackedNext⟩ :=
      tracked.getSummaries long ordered isReady keeps
    cases stepped.symm.trans (congrArg Prod.snd extracted)
    exact ⟨_, trackedNext⟩

theorem Tracked.throughout (long : 0 < config.qlen) (tracked : Tracked config arrived outs q)
    {ops : List (TriageOp Tuple)} (ordered : (arrived ++ arrivals ops).Pairwise fun first second =>
      config.timestamp first ≤ config.timestamp second)
    (keeps : (triageMachine config).Along (KeepsIndex config) q ops) :
    (triageMachine config).Throughout (IndexExact config) q ops := by
  induction ops generalizing arrived outs q with
  | nil => exact tracked.indexExact long
  | cons op ops ih =>
    have split : arrivals (op :: ops) = arrivals [op] ++ arrivals ops :=
      filterMap_append (l := [op])
    rw [split, ← append_assoc] at ordered
    refine ⟨tracked.indexExact long, fun next stepped => ?_⟩
    obtain ⟨met, later⟩ := keeps next stepped
    obtain ⟨outs', trackedNext⟩ := tracked.step long met (pairwise_append.mp ordered).1 stepped
    exact ih trackedNext ordered later

end Steps

end TelegraphCQ.Triage
