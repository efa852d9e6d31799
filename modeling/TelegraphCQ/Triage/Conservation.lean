import TelegraphCQ.Triage.TriageCorrect

/-!
# What becomes of the tuples of a shed stream

The tuples leave the queue in the order of their arrival.  Each departure is a return or
a drop, and the summaries count the departures: those handed over and the two that are
being collected.  All tuples that a summary counts have the number of its epoch; they lie
in the epoch when the number is that of the window around their timestamp.
-/

namespace TelegraphCQ.Triage

open Foundation Window List

/-! ## Observations -/

section Observations

variable {Tuple : Type} (config : TriageConfig Tuple)

def streamTuples (items : List (Queued Tuple)) : List Tuple :=
  items.filterMap fun
    | .tuple tup => some tup
    | .punctuation _ => none

def arrivals (ops : List (TriageOp Tuple)) : List Tuple :=
  ops.filterMap fun
    | .enqueue tup => some tup
    | _ => none

def returnedItems (outs : List (TriageOut Tuple)) : List (Queued Tuple) :=
  outs.filterMap fun
    | .returned item => item
    | .summaries _ _ => none

def keptSummaries (outs : List (TriageOut Tuple)) : List (SummaryTuples Tuple) :=
  outs.filterMap fun
    | .returned _ => none
    | .summaries kept _ => some kept

def droppedSummaries (outs : List (TriageOut Tuple)) : List (SummaryTuples Tuple) :=
  outs.filterMap fun
    | .returned _ => none
    | .summaries _ dropped => some dropped

def allKept (outs : List (TriageOut Tuple)) (q : TriageQueue Tuple) :
    List (SummaryTuples Tuple) :=
  keptSummaries outs ++ [getSynopsis config q q.keepSum]

def allDropped (outs : List (TriageOut Tuple)) (q : TriageQueue Tuple) :
    List (SummaryTuples Tuple) :=
  droppedSummaries outs ++ [getSynopsis config q q.dropSum]

def counted (summaries : List (SummaryTuples Tuple)) : List Tuple :=
  streamTuples (summaries.flatMap SummaryTuples.summary)

def contentsFrom (q : TriageQueue Tuple) : Nat → Int → List (Queued Tuple)
  | 0, _ => []
  | count + 1, index =>
    (q.buf index).toList ++ contentsFrom q count (nextIndex config index)

def contents (q : TriageQueue Tuple) : List (Queued Tuple) :=
  contentsFrom config q q.nelem.toNat q.nextDequeueIx

end Observations

inductive Fate where
  | returned
  | dropped
  deriving DecidableEq, Repr

def ofFate {Tuple : Type} (fate : Fate) (departures : List (Fate × Tuple)) : List Tuple :=
  (departures.filter fun departure => departure.1 = fate).map Prod.snd

/-- The departures account for the history: they and the contents of the queue are the
arrivals, they are returned or dropped, and are counted accordingly in a summary whose
epoch they lie in. -/
structure Conserved {Tuple : Type} (config : TriageConfig Tuple) (ops : List (TriageOp Tuple))
    (outs : List (TriageOut Tuple)) (q : TriageQueue Tuple)
    (departures : List (Fate × Tuple)) : Prop where
  arrived : departures.map Prod.snd ++ streamTuples (contents config q) = arrivals ops
  returned : streamTuples (returnedItems outs) = ofFate .returned departures
  kept : counted (allKept config outs q) = ofFate .returned departures
  dropped : counted (allDropped config outs q) = ofFate .dropped departures
  inEpoch : ∀ summary ∈ allKept config outs q ++ allDropped config outs q,
    ∀ tup ∈ streamTuples summary.summary,
      summary.epochstart ≤ config.timestamp tup ∧ config.timestamp tup < summary.epochend

section Observations

variable {Tuple : Type} {config : TriageConfig Tuple} {q : TriageQueue Tuple}
  {items : List (Queued Tuple)}

@[simp] theorem streamTuples_append (first second : List (Queued Tuple)) :
    streamTuples (first ++ second) = streamTuples first ++ streamTuples second := filterMap_append

theorem Punctuated.streamTuples_eq {rest : List (Queued Tuple)}
    (punctuated : Punctuated rest items) : streamTuples items = streamTuples rest := by
  rcases punctuated with rfl | ⟨ts, rfl⟩
  · rfl
  · rfl

@[simp] theorem ofFate_append {fate : Fate} (first second : List (Fate × Tuple)) :
    ofFate fate (first ++ second) = ofFate fate first ++ ofFate fate second := by
  simp [ofFate]

theorem ofFate_map_same (fate : Fate) (tuples : List Tuple) :
    ofFate fate (tuples.map fun tup => (fate, tup)) = tuples := by
  induction tuples with
  | nil => rfl
  | cons tup tuples ih => simpa [ofFate] using ih

theorem ofFate_map_other {fate other : Fate} (different : other ≠ fate)
    (tuples : List Tuple) : ofFate fate (tuples.map fun tup => (other, tup)) = [] := by
  simp [ofFate, different]

theorem contentsFrom_eq (positive : 0 < config.qlen) {front : Int}
    (occupies : Occupies config.qlen q.buf front items) (above : -1 ≤ front) :
    contentsFrom config q items.length front = items := by
  induction items generalizing front with
  | nil => rfl
  | cons item items ih =>
    have bounds := @place_nonneg config.qlen front positive 1 (by omega)
    simp only [length_cons, contentsFrom, occupies.head, nextIndex_eq above]
    rw [ih occupies.tail (by omega)]
    rfl

theorem QueueHolds.contents_eq (positive : 0 < config.qlen)
    (holds : QueueHolds config q items) : contents config q = items := by
  have length : q.nelem.toNat = items.length := by
    rw [holds.count]
    rfl
  rw [contents, length, contentsFrom_eq positive holds.occupies holds.above]

end Observations

/-! ## The ledger -/

structure Labelled {Tuple : Type} (config : TriageConfig Tuple)
    (summary : SummaryTuples Tuple) : Prop where
  epochstart : summary.epochstart = simpleWindowEnd config (summary.epochnum - 1)
  epochend : summary.epochend = simpleWindowEnd config summary.epochnum
  number : ∀ tup ∈ streamTuples summary.summary,
    windowNo config (config.timestamp tup) = summary.epochnum

structure Book {Tuple : Type} (config : TriageConfig Tuple) (handed : List (SummaryTuples Tuple))
    (q : TriageQueue Tuple) (current : List (Queued Tuple)) (tuples : List Tuple) : Prop where
  counts : counted (handed ++ [getSynopsis config q current]) = tuples
  labelled : ∀ summary ∈ handed ++ [getSynopsis config q current], Labelled config summary

structure Ledger {Tuple : Type} (config : TriageConfig Tuple) (arrived : List Tuple)
    (outs : List (TriageOut Tuple)) (q : TriageQueue Tuple) (queued : List Tuple)
    (departures : List (Fate × Tuple)) : Prop where
  arrived : departures.map Prod.snd ++ queued = arrived
  returned : streamTuples (returnedItems outs) = ofFate .returned departures
  kept : Book config (keptSummaries outs) q q.keepSum
    (if config.disableKeptSummaries then [] else ofFate .returned departures)
  dropped : Book config (droppedSummaries outs) q q.dropSum (ofFate .dropped departures)

namespace Ledger

variable {Tuple : Type} {config : TriageConfig Tuple} {q next : TriageQueue Tuple}
  {arrived : List Tuple} {outs : List (TriageOut Tuple)} {queued : List Tuple}
  {departures : List (Fate × Tuple)} {item : Queued Tuple} {gone rest : List (Queued Tuple)}

theorem counted_concat (summaries : List (SummaryTuples Tuple))
    (summary : SummaryTuples Tuple) :
    counted (summaries ++ [summary]) = counted summaries ++ streamTuples summary.summary := by
  simp [counted]

theorem mem_streamTuples {tup : Tuple} {items : List (Queued Tuple)} :
    tup ∈ streamTuples items ↔ .tuple tup ∈ items := by
  unfold streamTuples
  rw [mem_filterMap]
  constructor
  · rintro ⟨item, member, isTup⟩
    cases item with
    | tuple other =>
      obtain rfl : other = tup := by simpa using isTup
      exact member
    | punctuation ts => simp at isTup
  · intro member
    exact ⟨.tuple tup, member, rfl⟩

section Books

variable {handed : List (SummaryTuples Tuple)} {current : List (Queued Tuple)}
  {tuples : List Tuple}

theorem add (book : Book config handed q current tuples)
    (sameEpoch : next.epochnum = q.epochnum)
    (inEpoch : ∀ item ∈ gone, windowNo config (getTimestampVal config item) = q.epochnum) :
    Book config handed next (current ++ gone) (tuples ++ streamTuples gone) := by
  obtain ⟨counts, labelled⟩ := book
  rw [forall_mem_append, forall_mem_singleton] at labelled
  refine ⟨?_, forall_mem_append.mpr ⟨labelled.1, forall_mem_singleton.mpr ⟨rfl, rfl, ?_⟩⟩⟩
  · rw [← counts, counted_concat, counted_concat, append_assoc]
    exact congrArg _ (streamTuples_append current gone)
  · intro tup member
    simp only [getSynopsis, streamTuples_append, mem_append] at member ⊢
    rw [sameEpoch]
    cases member with
    | inl old => exact labelled.2.number tup old
    | inr new => exact inEpoch (.tuple tup) (mem_streamTuples.mp new)

theorem labelled_nil (q : TriageQueue Tuple) : Labelled config (getSynopsis config q []) :=
  ⟨rfl, rfl, by simp [getSynopsis, streamTuples]⟩

theorem collect (counts : counted handed = tuples)
    (labelled : ∀ summary ∈ handed, Labelled config summary) :
    Book config handed next [] tuples := by
  refine ⟨?_, forall_mem_append.mpr ⟨labelled, forall_mem_singleton.mpr (labelled_nil next)⟩⟩
  rw [counted_concat, counts]
  exact append_nil tuples

theorem renumber (book : Book config handed q current tuples) (empty : current = []) :
    Book config handed next current tuples := by
  subst empty
  refine collect ?_ (forall_mem_append.mp book.labelled).1
  rw [← book.counts, counted_concat]
  exact (append_nil _).symm

end Books

theorem init : Ledger config [] [] triageCreate [] [] :=
  ⟨rfl, rfl, collect (ite_self _).symm (forall_mem_nil _), collect rfl (forall_mem_nil _)⟩

variable (ledger : Ledger config arrived outs q queued departures)

include ledger in
theorem arrive (tup : Tuple) :
    Ledger config (arrived ++ [tup]) outs q (queued ++ [tup]) departures :=
  { ledger with arrived := by rw [← append_assoc, ledger.arrived] }

theorem shed (ledger : Ledger config arrived outs q (streamTuples (gone ++ rest)) departures)
    (sheds : Sheds config q gone next) : Ledger config arrived outs next (streamTuples rest)
      (departures ++ (streamTuples gone).map fun tup => (.dropped, tup)) where
  arrived := by
    rw [← ledger.arrived]
    simp [Function.comp_def]
  returned := by
    rw [ofFate_append, ofFate_map_other (by decide), append_nil, ledger.returned]
  kept := by
    rw [ofFate_append, ofFate_map_other (by decide), append_nil, sheds.keepSum]
    simpa [streamTuples] using add ledger.kept sheds.epochnum (forall_mem_nil _)
  dropped := by
    rw [ofFate_append, ofFate_map_same, sheds.dropSum]
    exact add ledger.dropped sheds.epochnum sheds.inEpoch

include ledger in
theorem start (unstarted : q.haveTs = false → q.keepSum = [] ∧ q.dropSum = []) (tup : Tuple) :
    Ledger config arrived outs (startEpoch config tup q) queued departures := by
  unfold startEpoch
  split_ifs with started
  · exact ledger
  · obtain ⟨noneKept, noneDropped⟩ := unstarted (by simpa using started)
    exact { ledger with
      kept := renumber ledger.kept noneKept, dropped := renumber ledger.dropped noneDropped }

include ledger in
theorem idle : Ledger config arrived (outs ++ [.returned none]) q queued departures := by
  refine { ledger with returned := ?_, kept := ?_, dropped := ?_ }
  · simpa [returnedItems] using ledger.returned
  · simpa [keptSummaries] using ledger.kept
  · simpa [droppedSummaries] using ledger.dropped

theorem keep (ledger : Ledger config arrived outs q (streamTuples ([item] ++ rest)) departures)
    (sameDropped : next.dropSum = q.dropSum)
    (keepSum : next.keepSum = q.keepSum ++ if config.disableKeptSummaries then [] else [item])
    (sameEpoch : next.epochnum = q.epochnum)
    (inEpoch : windowNo config (getTimestampVal config item) = q.epochnum) :
    Ledger config arrived (outs ++ [.returned (some item)]) next (streamTuples rest)
      (departures ++ (streamTuples [item]).map fun tup => (.returned, tup)) where
  arrived := by
    rw [← ledger.arrived, streamTuples_append]
    simp [Function.comp_def]
  returned := by
    rw [ofFate_append, ofFate_map_same, ← ledger.returned]
    simp [returnedItems]
  kept := by
    have book := ledger.kept
    rw [ofFate_append, ofFate_map_same, keepSum]
    split_ifs at book ⊢ with disabled
    · simpa [keptSummaries, streamTuples] using add book sameEpoch (forall_mem_nil _)
    · simpa [keptSummaries] using add book sameEpoch (forall_mem_singleton.mpr inEpoch)
  dropped := by
    rw [ofFate_append, ofFate_map_other (by decide), append_nil, sameDropped]
    simpa [droppedSummaries, streamTuples] using add ledger.dropped sameEpoch (forall_mem_nil _)

include ledger in
theorem handOver (noneKept : next.keepSum = []) (noneDropped : next.dropSum = []) :
    Ledger config arrived
      (outs ++ [.summaries (getSynopsis config q q.keepSum) (getSynopsis config q q.dropSum)])
      next queued departures := by
  refine { ledger with returned := ?_, kept := ?_, dropped := ?_ }
  · simpa [returnedItems] using ledger.returned
  · simpa [keptSummaries, noneKept] using collect ledger.kept.counts ledger.kept.labelled
  · simpa [droppedSummaries, noneDropped] using
      collect ledger.dropped.counts ledger.dropped.labelled

end Ledger

/-! ## Runs -/

section Runs

variable {Tuple : Type} (config : TriageConfig Tuple)

def Accounts (ops : List (TriageOp Tuple)) (outs : List (TriageOut Tuple))
    (q : TriageQueue Tuple) : Prop :=
  ∃ items departures, QueueHolds config q items ∧
    Ledger config (arrivals ops) outs q (streamTuples items) departures

variable {config} {q : TriageQueue Tuple} {ops : List (TriageOp Tuple)}
  {outs : List (TriageOut Tuple)}

def Accounted (config : TriageConfig Tuple) (ops : List (TriageOp Tuple))
    (outs : List (TriageOut Tuple)) (result : Except TriageFault (TriageQueue Tuple)) : Prop :=
  Ends (Harmless config) (Accounts config ops outs) result

theorem enqueue_accounted (positive : 0 < config.qlen) (accounts : Accounts config ops outs q)
    (tup : Tuple) : Accounted config (ops ++ [.enqueue tup]) outs (triageEnqueue config tup q) := by
  obtain ⟨items, departures, holds, ledger⟩ := accounts
  apply (enqueue_spec positive holds tup).imp
  rintro next ⟨gone, rest, items', split, punctuated, holdsNext, sheds⟩
  have started := (ledger.start (fun unstarted => (holds.unstarted unstarted).2) tup).arrive tup
  have queued : streamTuples items ++ [tup] = streamTuples (gone ++ rest) := by
    rw [← split, streamTuples_append]
    rfl
  rw [queued] at started
  have arrived : arrivals (ops ++ [.enqueue tup]) = arrivals ops ++ [tup] := by
    simp [arrivals]
  have ledgerNext := started.shed sheds
  rw [← punctuated.streamTuples_eq, ← arrived] at ledgerNext
  exact ⟨items', _, holdsNext, ledgerNext⟩

section

variable (accounts : Accounts config ops outs q)
include accounts

theorem cleanup_accounted (now : Int) : Accounted config (ops ++ [.cleanup now]) outs
      (triageCleanupExpiredTuples config q now) := by
  obtain ⟨items, departures, holds, ledger⟩ := accounts
  apply (cleanup_spec holds now).imp
  rintro next ⟨gone, rest, items', split, punctuated, holdsNext, sheds⟩
  rw [split] at ledger
  have arrived : arrivals (ops ++ [.cleanup now]) = arrivals ops := by simp [arrivals]
  have ledgerNext := ledger.shed sheds
  rw [← punctuated.streamTuples_eq, ← arrived] at ledgerNext
  exact ⟨items', _, holdsNext, ledgerNext⟩

theorem dequeue_accounted : Ends (Harmless config)
      (fun result => Accounts config (ops ++ [.dequeue]) (outs ++ [.returned result.1]) result.2)
      (triageDequeue config q) := by
  obtain ⟨items, departures, holds, ledger⟩ := accounts
  have arrived : arrivals (ops ++ [.dequeue]) = arrivals ops := by simp [arrivals]
  apply (dequeue_spec holds).imp
  rintro result (⟨-, rfl⟩ | ⟨item, rest, next, split, rfl, holdsNext, sameDropped, keepSum,
    sameEpoch, -, inEpoch, -⟩)
  · exact ⟨items, departures, holds, by rw [arrived]; exact ledger.idle⟩
  · rw [split, ← arrived] at ledger
    exact ⟨rest, _, holdsNext, ledger.keep sameDropped keepSum sameEpoch inEpoch⟩

theorem getSummaries_accounted : Ends (Harmless config)
      (fun result => Accounts config (ops ++ [.getSummaries])
        (outs ++ [.summaries result.1.1 result.1.2]) result.2)
      (triageGetSummaries config q) := by
  obtain ⟨items, departures, holds, ledger⟩ := accounts
  have arrived : arrivals (ops ++ [.getSummaries]) = arrivals ops := by simp [arrivals]
  apply (getSummaries_spec holds).imp
  rintro ⟨⟨kept, dropped⟩, next⟩ ⟨handed, holdsNext, noneKept, noneDropped, -⟩
  obtain ⟨rfl, rfl⟩ := Prod.mk.inj handed
  refine ⟨items, departures, holdsNext, ?_⟩
  rw [arrived]
  exact ledger.handOver noneKept noneDropped

end

section

variable (positive : 0 < config.qlen)
include positive

theorem accounted_step (accounts : Accounts config ops outs q) (op : TriageOp Tuple) :
    Accounted config (ops ++ [op]) (outs ++ ((triageMachine config).step q op).1)
      ((triageMachine config).step q op).2 := by
  cases op with
  | enqueue tup => simpa [triageMachine, triageStep] using enqueue_accounted positive accounts tup
  | cleanup now => simpa [triageMachine, triageStep] using cleanup_accounted accounts now
  | dequeue =>
    have dequeued := dequeue_accounted accounts
    simp only [triageMachine, triageStep]
    cases result : triageDequeue config q with
    | error | ok =>
      rw [result] at dequeued
      exact dequeued
  | getSummaries =>
    have extracted := getSummaries_accounted accounts
    simp only [triageMachine, triageStep]
    cases result : triageGetSummaries config q with
    | error | ok =>
      rw [result] at extracted
      exact extracted

theorem created_holds : QueueHolds config triageCreate [] := by
  refine ⟨?_, rfl, ?_, ?_, ?_, ?_, rfl, fun _ => .inl ⟨rfl, ?_⟩, ?_⟩
  · intro j item isItem
    simp at isItem
  · exact positive.le
  · simp [triageCreate]
  · exact positive
  · simp [triageCreate]
  · simp [triageCreate]
  · exact fun _ => ⟨rfl, rfl, rfl⟩

theorem created_accounts : Accounts config [] [] triageCreate :=
  ⟨[], [], created_holds positive, .init⟩

theorem run_accounted (ops : List (TriageOp Tuple)) :
    Accounted config ops ((triageMachine config).run triageCreate ops).1
      ((triageMachine config).run triageCreate ops).2 := by
  have reached := @Machine.run_spec _ _ _ _ (triageMachine config) (fun _ => True)
    (Accounts config) (fun _ _ fault => Harmless config fault) (fun _ _ _ => trivial)
    (fun ops op outs q _ accounts => by
      have stepped := accounted_step positive accounts op
      cases result : ((triageMachine config).step q op).2 with
      | error fault =>
        rw [result] at stepped
        exact ⟨ops ++ [op], prefix_refl _, stepped⟩
      | ok next =>
        rw [result] at stepped
        exact stepped)
    triageCreate (created_accounts positive) ops trivial
  cases result : ((triageMachine config).run triageCreate ops).2 with
  | error fault =>
    rw [result] at reached
    obtain ⟨_, _, harmless⟩ := reached
    exact harmless
  | ok q =>
    rw [result] at reached
    exact reached

end

/-- What is returned is summarised, and every tuple that is counted has the number of the
epoch that its timestamp is in. -/
def Countable (config : TriageConfig Tuple) (outs : List (TriageOut Tuple))
    (q : TriageQueue Tuple) : Prop :=
  (config.disableKeptSummaries = true → streamTuples (returnedItems outs) = []) ∧
  ∀ summary ∈ allKept config outs q ++ allDropped config outs q,
    ∀ tup ∈ streamTuples summary.summary, Regular config (config.timestamp tup)

theorem Labelled.inEpoch_iff {summary : SummaryTuples Tuple}
    (labelled : Labelled config summary) {tup : Tuple}
    (member : tup ∈ streamTuples summary.summary) :
    (summary.epochstart ≤ config.timestamp tup ∧ config.timestamp tup < summary.epochend) ↔
      Regular config (config.timestamp tup) := by
  rw [← inWindow_windowNo_iff, labelled.number tup member, labelled.epochstart, labelled.epochend]
  simp only [InWindow, simpleWindowEnd, windowEnd, windowBegin, TriageConfig.epochs]
  have begins : config.epochStart + config.epochLen * (summary.epochnum - 1 - 1) +
      config.epochLen = config.epochStart + config.epochLen * (summary.epochnum - 1) := by
    ring
  rw [begins]

instance (config : TriageConfig Tuple) (ts : Int) : Decidable (Regular config ts) :=
  inferInstanceAs (Decidable (_ ∧ _))

instance (config : TriageConfig Tuple) (outs : List (TriageOut Tuple))
    (q : TriageQueue Tuple) [DecidableEq Tuple] : Decidable (Countable config outs q) :=
  inferInstanceAs (Decidable (_ ∧ _))

/-- A stream of timestamps; epochs of length ten start at zero, in a queue of two. -/
def tensOfTime : TriageConfig Int where
  qlen := 2
  epochStart := 0
  epochLen := 10
  timeCstr := 1000000
  disableKeptSummaries := false
  nonFinite := id
  timestamp := id
  isPunct := fun _ => false

end Runs

end TelegraphCQ.Triage
