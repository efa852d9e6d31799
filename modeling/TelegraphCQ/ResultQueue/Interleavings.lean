import TelegraphCQ.ResultQueue.Semaphores

/-!
# Interleaved calls

To its processes a queue with a semaphore lock is one first-in first-out queue, also where FULL
and EMPTY are out of balance.  A call takes effect when it is at the buffer, under the mutex; an
`enqueue` that is refused, perhaps several times, takes effect when it returns.

With FULL and EMPTY in line, producers and consumers do not wait for each other.
-/

namespace TelegraphCQ.ResultQueue

open Foundation List

section Calls

variable {Proc Data : Type} [DecidableEq Proc]

def CallOp.callOf (proc : Proc) : CallOp Proc Data → Option (QueueOp Data)
  | .enqueue caller data _ => if caller = proc then some (.enqueue data) else none
  | .dequeue caller _ => if caller = proc then some .dequeue else none
  | .step _ => none

def CallResult.proc : CallResult Proc Data → Proc
  | .enqueued proc _ | .dequeued proc _ => proc

def resultOf (proc : Proc) : FifoEvent Data → CallResult Proc Data
  | .accepted _ => .enqueued proc true
  | .refused _ => .enqueued proc false
  | .removed data => .dequeued proc (some data)
  | .nothing => .dequeued proc none

/-- The call in progress, as long as it has had no effect. -/
def Caller.asks : Caller Data → List (QueueOp Data)
  | .emptyDown data _ _ | .enqueueLock data _ _ _ | .enqueueElt data _ _ _
  | .enqueueUnlock data _ _ false _ => [.enqueue data]
  | .fullDown _ | .dequeueLock _ | .dequeueElt _ => [.dequeue]
  | _ => []

/-- What a call that has had its effect will return. -/
def Caller.owes (proc : Proc) : Caller Data → List (CallResult Proc Data)
  | .enqueueUnlock _ _ _ true _ | .fullUp => [.enqueued proc true]
  | .dequeueUnlock ret => [.dequeued proc ret]
  | .emptyUp data => [.dequeued proc (some data)]
  | _ => []

def eventsOf (proc : Proc) (log : List (Proc × FifoEvent Data)) : List (FifoEvent Data) :=
  (log.filter (·.1 = proc)).map Prod.snd

variable [Fintype Proc]

/-- The log is a run of the abstract queue in which each process has the calls it made and the
results it was given.  At most one process is between lock and unlock. -/
structure Serialized (qs : QueueSerializer Data) (ops : List (CallOp Proc Data))
    (outs : List (CallResult Proc Data)) (s : SemQueue Proc Data)
    (log : List (Proc × FifoEvent Data)) (items : List Data) : Prop where
  trace : FifoEvent.Trace [] (log.map Prod.snd) items
  stores : Stores qs s.queue items
  mutex : s.mutex + total Caller.inside s = 1
  calls : ∀ proc, ops.filterMap (CallOp.callOf proc) =
    (eventsOf proc log).map opOf ++ (s.callers proc).asks
  results : ∀ proc, (eventsOf proc log).map (resultOf proc) =
    outs.filter (·.proc = proc) ++ (s.callers proc).owes proc

def Serial (qs : QueueSerializer Data) (ops : List (CallOp Proc Data))
    (outs : List (CallResult Proc Data)) (s : SemQueue Proc Data) : Prop :=
  ∃ log items, Serialized qs ops outs s log items

/-- The run was stopped by a call that had to fail, not by the buffer. -/
def Misused (_ : List (CallOp Proc Data)) (_ : List (CallResult Proc Data)) (fault : SemFault) :
    Prop :=
  ∀ broken, fault ≠ .queue broken

variable {qs : QueueSerializer Data} {ops : List (CallOp Proc Data)}
  {outs out : List (CallResult Proc Data)} {s t : SemQueue Proc Data} {was caller : Caller Data}
  {log : List (Proc × FifoEvent Data)} {items after : List Data} {events : List (FifoEvent Data)}
  {proc : Proc} {op : CallOp Proc Data}

omit [Fintype Proc] in
theorem eventsOf_append (other : Proc) : eventsOf other (log ++ events.map (proc, ·)) =
    eventsOf other log ++ if proc = other then events else [] := by
  by_cases same : proc = other
  all_goals simp [eventsOf, filter_map, same, Function.comp_def]

section Steps

variable (held : Serialized qs ops outs s log items)

include held

/-- One process goes on, and its call may have its effect. -/
theorem Serialized.move (here : s.callers proc = was) (callers : t.callers = s.callers)
    (trace : FifoEvent.Trace [] (log.map Prod.snd ++ events) after)
    (stores : Stores qs t.queue after) (mutex : t.mutex + caller.inside = s.mutex + was.inside)
    (others : ∀ other ≠ proc, op.callOf other = none)
    (asks : was.asks ++ (op.callOf proc).toList = events.map opOf ++ caller.asks)
    (owes : was.owes proc ++ events.map (resultOf proc) = out ++ caller.owes proc)
    (mine : ∀ result ∈ out, result.proc = proc) :
    Serial qs (ops ++ [op]) (outs ++ out) (t.goto proc caller) := by
  refine ⟨log ++ events.map (proc, ·), after, ?_, stores, ?_, fun other => ?_, fun other => ?_⟩
  · simpa [Function.comp_def] using trace
  · have moved := total_goto Caller.inside proc caller t
    have same : total Caller.inside t = total Caller.inside s := by simp [total, callers]
    have before := held.mutex
    rw [callers, here, same] at moved
    simp only [SemQueue.goto] at moved ⊢
    omega
  · rw [filterMap_append, held.calls, eventsOf_append]
    by_cases same : proc = other
    · subst same
      simp only [SemQueue.goto, here, if_true, map_append, append_assoc, Function.update_self]
      rw [← asks]
      cases called : op.callOf proc <;> simp [called]
    · simp [SemQueue.goto, callers, same, Ne.symm same, others other (Ne.symm same)]
  · rw [filter_append, eventsOf_append, map_append, held.results]
    by_cases same : proc = other
    · subst same
      have all : out.filter (·.proc = proc) = out := by simpa using mine
      simp only [SemQueue.goto, here, if_true, append_assoc, Function.update_self, all, owes]
    · have none_ : out.filter (·.proc = other) = [] := by
        simpa using fun result member => mine result member ▸ same
      simp [SemQueue.goto, callers, same, Ne.symm same, none_]

theorem Serialized.step (here : s.callers proc = was) (callers : t.callers = s.callers)
    (stores : Stores qs t.queue items) (mutex : t.mutex + caller.inside = s.mutex + was.inside)
    (asks : was.asks = caller.asks) (owes : was.owes proc = out ++ caller.owes proc)
    (mine : ∀ result ∈ out, result.proc = proc) :
    Serial qs (ops ++ [.step proc]) (outs ++ out) (t.goto proc caller) := by
  apply @Serialized.move _ _ _ _ _ _ _ _ s t was caller log items items [] proc (.step proc)
  all_goals simp_all [held.trace, CallOp.callOf]

theorem callStep_serial (proc : Proc) : ∃ out next, callStep qs proc s = (out, .ok next) ∧
    Serial qs (ops ++ [.step proc]) (outs ++ out) next := by
  have trace := held.trace
  have stores := held.stores
  have waits : Serial qs (ops ++ [.step proc]) (outs ++ []) s :=
    ⟨log, items, trace, stores, held.mutex,
      by simpa [CallOp.callOf, filterMap_cons] using held.calls,
      by simpa using held.results⟩
  have noCall : ∀ other ≠ proc, (CallOp.step proc : CallOp Proc Data).callOf other = none :=
    fun _ _ => rfl
  unfold callStep
  cases here : s.callers proc with
  | enqueueElt data isBlocking tries took =>
    -- a refusal has no effect yet: the call may try again
    obtain ⟨ret, queue, ran, stores⟩ := enqueueElt_spec data stores
    simp only [ran]
    refine ⟨_, _, rfl, ?_⟩
    cases ret with
    | true =>
      exact held.move here rfl (trace.snoc (.accepted _ data)) stores rfl noCall rfl rfl nofun
    | false => exact held.step here rfl stores rfl rfl rfl nofun
  | dequeueElt took =>
    obtain ⟨ret, queue, rest, ran, stores, event⟩ := dequeueElt_spec stores
    simp only [ran]
    refine ⟨_, _, rfl, held.move here rfl (trace.snoc event) stores rfl noCall ?_ ?_ nofun⟩
    all_goals cases ret <;> rfl
  | enqueueUnlock data isBlocking tries ret breakout =>
    cases ret with
    | true => exact ⟨_, _, rfl, held.step here rfl stores rfl rfl rfl nofun⟩
    | false =>
      simp only [Bool.false_eq_true, if_false]
      split_ifs
      · exact ⟨_, _, rfl, held.step here rfl stores rfl rfl rfl nofun⟩
      · exact ⟨_, _, rfl, held.move here rfl (trace.snoc (.refused _ data)) stores rfl noCall
          rfl rfl (by simp [CallResult.proc])⟩
  | emptyDown data isBlocking tries =>
    cases tries with
    | zero =>
      exact ⟨_, _, rfl, held.move here rfl (trace.snoc (.refused _ data)) stores rfl noCall
        rfl rfl (by simp [CallResult.proc])⟩
    | succ tries =>
      dsimp only
      split_ifs
      · exact ⟨_, _, rfl, held.step here rfl stores rfl rfl rfl nofun⟩
      · exact ⟨_, _, rfl, waits⟩
      · exact ⟨_, _, rfl, held.step here rfl stores rfl rfl rfl nofun⟩
  | fullDown isBlocking =>
    dsimp only
    split_ifs
    · exact ⟨_, _, rfl, held.step here rfl stores rfl rfl rfl nofun⟩
    · exact ⟨_, _, rfl, waits⟩
    · exact ⟨_, _, rfl, held.step here rfl stores rfl rfl rfl nofun⟩
  | enqueueLock | dequeueLock =>
    dsimp only
    split_ifs with free
    · exact ⟨_, _, rfl, held.step here rfl stores (Nat.sub_add_cancel free) rfl rfl nofun⟩
    · exact ⟨_, _, rfl, waits⟩
  | dequeueUnlock ret =>
    cases ret <;>
      exact ⟨_, _, rfl, held.step here rfl stores rfl rfl rfl (by simp [CallResult.proc])⟩
  | fullUp | emptyUp =>
    exact ⟨_, _, rfl, held.step here rfl stores rfl rfl rfl (by simp [CallResult.proc])⟩
  | idle => exact ⟨_, _, rfl, waits⟩

theorem startCall_serial (others : ∀ other ≠ proc, op.callOf other = none)
    (asks : (op.callOf proc).toList = caller.asks) (inside : caller.inside = 0)
    (owes : caller.owes proc = []) :
    Machine.Reached (Serial qs) Misused (ops ++ [op]) (outs ++ (startCall proc caller s).1)
      (startCall proc caller s).2 := by
  unfold startCall
  cases here : s.callers proc with
  | idle =>
    apply @Serialized.move _ _ _ _ _ _ _ _ s s _ caller log items items [] proc op held here
    all_goals simp_all [held.trace, held.stores, Caller.inside, Caller.asks,
      Caller.owes]
  | _ => exact ⟨_, prefix_rfl, nofun⟩

theorem semStep_serial (op : CallOp Proc Data) :
    Machine.Reached (Serial qs) Misused (ops ++ [op]) (outs ++ (semStep qs s op).1)
      (semStep qs s op).2 := by
  cases op with
  | enqueue proc data isBlocking =>
    unfold semStep
    split_ifs
    · exact ⟨_, prefix_rfl, nofun⟩
    · apply startCall_serial held _ _ rfl rfl
      · exact fun other apart => if_neg apart.symm
      · simp [CallOp.callOf, Caller.asks]
  | dequeue proc isBlocking =>
    apply startCall_serial held _ _ rfl rfl
    · exact fun other apart => if_neg apart.symm
    · simp [CallOp.callOf, Caller.asks]
  | step proc =>
    obtain ⟨out, next, stepped, serial⟩ := callStep_serial held proc
    simp only [semStep, stepped]
    exact serial

end Steps

omit [DecidableEq Proc] [Fintype Proc] in
theorem makeSemQueue_quiet {sizeofQueue : Nat} {maxeltest size : Int}
    (made : makeSemQueue Proc Data sizeofQueue maxeltest size = .ok (some s)) : s.Quiet := by
  unfold makeSemQueue at made
  rcases fresh : makeQueue sizeofQueue size with fault | none | queue
  all_goals
    rw [fresh] at made
    cases made
  exact fun _ => rfl

/-- For any processes and any order of their steps, the calls are those of one first-in
first-out queue in some order, no two processes are at the buffer at once, and no access to it
faults. -/
theorem calls_serialized (qs : QueueSerializer Data) (sizeofQueue : Nat) (maxeltest size : Int)
    (start : SemQueue Proc Data)
    (made : makeSemQueue Proc Data sizeofQueue maxeltest size = .ok (some start))
    (ops : List (CallOp Proc Data)) :
    Machine.Reached (Serial qs) Misused ops ((semMachine qs).run start ops).1
      ((semMachine qs).run start ops).2 := by
  have fresh := @makeSemQueue_accounted Proc Data qs _ _ _ _ _ made
  have quiet := makeSemQueue_quiet made
  apply @Machine.run_spec _ _ _ _ (semMachine qs) (fun _ => True)
  · exact fun _ _ _ => trivial
  · rintro ops op outs s - ⟨log, items, held⟩
    exact semStep_serial held op
  · refine ⟨[], [], .nil _, fresh.stores, fresh.mutex, fun proc => ?_, fun proc => ?_⟩
    all_goals rw [quiet proc]; rfl
  · trivial

/-! ## Standstill -/

/-- No process can go on. -/
def Standstill (qs : QueueSerializer Data) (s : SemQueue Proc Data) : Prop :=
  ∀ proc, callStep qs proc s = ([], .ok s)

/-- Calls wait for an element of an empty queue, or for room in one that is not empty. -/
def OneSided (s : SemQueue Proc Data) : Prop :=
  ∀ proc, s.callers proc = .idle ∨
    (s.callers proc = .fullDown true ∧ s.queue.IsEmpty) ∨
    (∃ data tries, s.callers proc = .emptyDown data true tries) ∧ ¬ s.queue.IsEmpty

omit [Fintype Proc] in
theorem Standstill.waits (still : Standstill qs s) (proc : Proc) :
    s.callers proc = .idle ∨ (s.callers proc = .fullDown true ∧ s.full = 0) ∨
      (∃ data tries, s.callers proc = .emptyDown data true tries ∧ s.empty = 0) ∨
      (s.callers proc).inside = 0 ∧ s.mutex = 0 := by
  have here := still proc
  have stays : ∀ {t : SemQueue Proc Data} {caller}, (([], .ok (t.goto proc caller)) :
      List (CallResult Proc Data) × Except SemFault _) = ([], .ok s) → s.callers proc = caller := by
    intro t caller same
    rw [← Except.ok.inj (congrArg Prod.snd same)]
    exact Function.update_self _ _ _
  unfold callStep returnFrom at here
  cases at_ : s.callers proc with
  | idle => exact .inl rfl
  | emptyDown data isBlocking tries =>
    cases tries with
    | zero => simp [at_] at here
    | succ tries =>
      simp only [at_] at here
      split_ifs at here with positive blocking
      · cases at_.symm.trans (stays here)
      · exact .inr (.inr (.inl ⟨data, _, by rw [blocking], by omega⟩))
      · cases at_.symm.trans (stays here)
  | fullDown isBlocking =>
    simp only [at_] at here
    split_ifs at here with positive blocking
    · cases at_.symm.trans (stays here)
    · exact .inr (.inl ⟨by rw [blocking], by omega⟩)
    · cases at_.symm.trans (stays here)
  | enqueueLock | dequeueLock =>
    simp only [at_] at here
    split_ifs at here with positive
    · cases at_.symm.trans (stays here)
    · exact .inr (.inr (.inr ⟨rfl, by omega⟩))
  | enqueueElt | dequeueElt =>
    simp only [at_] at here
    split at here
    · simp at here
    · cases at_.symm.trans (stays here)
  | enqueueUnlock =>
    simp only [at_] at here
    split_ifs at here
    · cases at_.symm.trans (stays here)
    · cases at_.symm.trans (stays here)
    · simp at here
  | dequeueUnlock ret =>
    cases ret with
    | none => simp [at_] at here
    | some data =>
      simp only [at_] at here
      cases at_.symm.trans (stays here)
  | fullUp | emptyUp => simp [at_] at here

theorem Accounted.standstill (accounted : Accounted qs s items) (still : Standstill qs s) : OneSided s := by
  intro proc
  have outside : total Caller.inside s = 0 := by
    apply Finset.sum_eq_zero
    intro p _
    rcases still.waits p with here | ⟨here, -⟩ | ⟨data, tries, here, -⟩ | ⟨here, -⟩
    all_goals first | exact here | (rw [here]; rfl)
  have mutex := accounted.mutex
  -- with nobody inside the mutex is free, so nobody waits for it
  have waits : ∀ p, s.callers p = .idle ∨ (s.callers p = .fullDown true ∧ s.full = 0) ∨
      ∃ data tries, s.callers p = .emptyDown data true tries ∧ s.empty = 0 := by
    intro p
    rcases still.waits p with idle | element | room | ⟨-, taken⟩
    · exact .inl idle
    · exact .inr (.inl element)
    · exact .inr (.inr room)
    · omega
  have nothingDue : ∀ weight : Caller Data → Nat, weight .idle = 0 → weight (.fullDown true) = 0 →
      (∀ data tries, weight (.emptyDown data true tries) = 0) → total weight s = 0 := by
    intro weight idle element room
    apply Finset.sum_eq_zero
    intro p _
    rcases waits p with here | ⟨here, -⟩ | ⟨data, tries, here, -⟩
    all_goals simp [here, idle, element, room]
  have full := accounted.full
  have empty := accounted.empty
  rw [nothingDue _ rfl rfl fun _ _ => rfl] at full empty
  rcases waits proc with idle | ⟨here, none_⟩ | ⟨data, tries, here, none_⟩
  · exact .inl idle
  · exact .inr (.inl ⟨here, (isEmpty_iff accounted.stores).mpr (length_eq_zero_iff.mp (by omega))⟩)
  · refine .inr (.inr ⟨⟨data, tries, here⟩, fun isEmpty => ?_⟩)
    have := empty ((isEmpty_iff accounted.stores).mp isEmpty)
    omega

/-- As long as FULL and EMPTY are in line with what the calls find, at most one side waits when
no process can go on, and what it waits for is not there. -/
theorem standstill_one_sided (sizeofQueue : Nat) (maxeltest size : Int) (start : SemQueue Proc Data)
    (made : makeSemQueue Proc Data sizeofQueue maxeltest size = .ok (some start))
    (ops : List (CallOp Proc Data)) (inLine : (semMachine qs).Along (InLine qs) start ops) :
    (semMachine qs).Throughout (fun s => Standstill qs s → OneSided s) start ops := by
  have accounted : (semMachine qs).Throughout (fun s => ∃ items, Accounted qs s items)
      start ops := by
    apply (semMachine qs).throughout_of_along _ ⟨[], makeSemQueue_accounted made⟩ inLine
    rintro s op next ⟨items, accounted⟩ met stepped
    exact semStep_accounted accounted met stepped
  apply Machine.Throughout.mono _ _ accounted
  rintro s ⟨items, accounted⟩
  exact accounted.standstill

end Calls

/-- The element is taken out before FULL is raised. -/
def earlyDequeue : List (CallOp Bool (Fin (256 ^ 4))) :=
  [.enqueue true 7 true, .step true, .step true, .step true, .step true, .dequeue false false,
    .step false, .step false, .step false, .step false, .step false]

theorem calls_serialized_early :
    ∃ start, makeSemQueue Bool (Fin (256 ^ 4)) 52 100 152 = .ok (some start) ∧
      Machine.Reached (Serial pointerSerializer) Misused earlyDequeue
        ((semMachine pointerSerializer).run start earlyDequeue).1
        ((semMachine pointerSerializer).run start earlyDequeue).2 :=
  ⟨_, rfl, calls_serialized pointerSerializer 52 100 152 _ rfl earlyDequeue⟩

/-- A consumer waits at a queue that nothing was put into. -/
theorem standstill_one_sided_consumer :
    ∃ start, makeSemQueue Bool (Fin (256 ^ 4)) 52 100 152 = .ok (some start) ∧
      (semMachine pointerSerializer).Throughout
        (fun s => Standstill pointerSerializer s → OneSided s) start [.dequeue false true] := by
  refine ⟨_, rfl, standstill_one_sided 52 100 152 _ rfl _ ?_⟩
  exact fun _ _ => ⟨trivial, trivial⟩

end TelegraphCQ.ResultQueue
