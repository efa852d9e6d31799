import Mathlib.Algebra.BigOperators.Group.Finset.Piecewise
import Mathlib.Algebra.Order.BigOperators.Group.Finset
import TelegraphCQ.ResultQueue.QueueCorrect

/-!
# Queues with a semaphore lock

A queue with a semaphore lock (`resultq.c`) has three semaphores: a mutex, FULL with the
number of elements, and EMPTY with an estimate of the free slots.  A producer lowers
EMPTY, puts its element in and raises FULL; a consumer lowers FULL, takes an element out
and raises EMPTY.  Calls that do not block try to lower the semaphore and go on whether
they could or not.

Any number of processes take steps in any order.  A step is an operation on a semaphore
or the access to the buffer under the mutex.  A process that waits for a semaphore takes
its step without effect.
-/

namespace TelegraphCQ.ResultQueue

open Foundation

/-- Where a process is in `enqueue` or `dequeue`.  Whether it took the semaphore is not
looked at by the code. -/
inductive Caller (Data : Type) where
  | idle
  | emptyDown (data : Data) (isBlocking : Bool) (tries : Nat)
  | enqueueLock (data : Data) (isBlocking : Bool) (tries : Nat) (took : Bool)
  | enqueueElt (data : Data) (isBlocking : Bool) (tries : Nat) (took : Bool)
  | enqueueUnlock (data : Data) (isBlocking : Bool) (tries : Nat) (ret breakout : Bool)
  | fullUp
  | fullDown (isBlocking : Bool)
  | dequeueLock (took : Bool)
  | dequeueElt (took : Bool)
  | dequeueUnlock (ret : Option Data)
  | emptyUp (data : Data)

structure SemQueue (Proc Data : Type) where
  queue : Queue
  mutex : Nat
  full : Nat
  empty : Nat
  callers : Proc → Caller Data

/-- `noTries` is the assertion of `enqueue`, and `callInProgress` a process that starts a
call within another one. -/
inductive SemFault where
  | queue (fault : QueueFault)
  | noTries
  | callInProgress
  deriving DecidableEq, Repr

inductive CallResult (Proc Data : Type) where
  | enqueued (proc : Proc) (ret : Bool)
  | dequeued (proc : Proc) (ret : Option Data)
  deriving DecidableEq, Repr

def mineltest : Int := 5

/-- The first value of EMPTY; the cap on it depends on the platform. -/
def emptyEstimate (maxeltest size : Int) : Nat :=
  let eltest := size / qhdrsz
  let eltest := if eltest > maxeltest then maxeltest - 1 else eltest
  (if eltest < mineltest then mineltest else eltest).toNat

def makeSemQueue (Proc Data : Type) (sizeofQueue : Nat) (maxeltest size : Int) :
    Except QueueFault (Option (SemQueue Proc Data)) :=
  (makeQueue sizeofQueue size).map fun made =>
    made.map fun queue => ⟨queue, 1, 0, emptyEstimate maxeltest size, fun _ => .idle⟩

section Calls

variable {Proc Data : Type} [DecidableEq Proc] (qs : QueueSerializer Data)

def SemQueue.goto (proc : Proc) (caller : Caller Data) (s : SemQueue Proc Data) :
    SemQueue Proc Data :=
  { s with callers := Function.update s.callers proc caller }

def SemQueue.Quiet (s : SemQueue Proc Data) : Prop := ∀ proc, s.callers proc = .idle

def returnFrom (proc : Proc) (result : CallResult Proc Data) (s : SemQueue Proc Data) :
    List (CallResult Proc Data) × Except SemFault (SemQueue Proc Data) :=
  ([result], .ok (s.goto proc .idle))

def callStep (proc : Proc) (s : SemQueue Proc Data) :
    List (CallResult Proc Data) × Except SemFault (SemQueue Proc Data) :=
  match s.callers proc with
  | .idle => ([], .ok s)
  | .emptyDown _ _ 0 => returnFrom proc (.enqueued proc false) s
  | .emptyDown data isBlocking (tries + 1) =>
    if 0 < s.empty then
      ([], .ok (SemQueue.goto proc (.enqueueLock data isBlocking tries true)
        { s with empty := s.empty - 1 }))
    else if isBlocking then ([], .ok s)
    else ([], .ok (s.goto proc (.enqueueLock data isBlocking tries false)))
  | .enqueueLock data isBlocking tries took =>
    if 0 < s.mutex then
      ([], .ok (SemQueue.goto proc (.enqueueElt data isBlocking tries took)
        { s with mutex := s.mutex - 1 }))
    else ([], .ok s)
  | .enqueueElt data isBlocking tries _ =>
    match enqueueElt qs data s.queue with
    | .error fault => ([], .error (.queue fault))
    | .ok (ret, queue) =>
      ([], .ok (SemQueue.goto proc
        (.enqueueUnlock data isBlocking tries ret (decide queue.IsEmpty))
        { s with queue := queue }))
  | .enqueueUnlock data isBlocking tries ret breakout =>
    let s := { s with mutex := s.mutex + 1 }
    if ret then ([], .ok (s.goto proc .fullUp))
    else if isBlocking && !breakout then ([], .ok (s.goto proc (.emptyDown data isBlocking tries)))
    else returnFrom proc (.enqueued proc false) s
  | .fullUp => returnFrom proc (.enqueued proc true) { s with full := s.full + 1 }
  | .fullDown isBlocking =>
    if 0 < s.full then
      ([], .ok (SemQueue.goto proc (.dequeueLock true) { s with full := s.full - 1 }))
    else if isBlocking then ([], .ok s)
    else ([], .ok (s.goto proc (.dequeueLock false)))
  | .dequeueLock took =>
    if 0 < s.mutex then
      ([], .ok (SemQueue.goto proc (.dequeueElt took) { s with mutex := s.mutex - 1 }))
    else ([], .ok s)
  | .dequeueElt _ =>
    match dequeueElt qs s.queue with
    | .error fault => ([], .error (.queue fault))
    | .ok (ret, queue) =>
      ([], .ok (SemQueue.goto proc (.dequeueUnlock ret) { s with queue := queue }))
  | .dequeueUnlock ret =>
    let s := { s with mutex := s.mutex + 1 }
    match ret with
    | some data => ([], .ok (s.goto proc (.emptyUp data)))
    | none => returnFrom proc (.dequeued proc none) s
  | .emptyUp data =>
    returnFrom proc (.dequeued proc (some data)) { s with empty := s.empty + 1 }

inductive CallOp (Proc Data : Type) where
  | enqueue (proc : Proc) (data : Data) (isBlocking : Bool)
  | dequeue (proc : Proc) (isBlocking : Bool)
  | step (proc : Proc)

def startCall (proc : Proc) (caller : Caller Data) (s : SemQueue Proc Data) :
    List (CallResult Proc Data) × Except SemFault (SemQueue Proc Data) :=
  match s.callers proc with
  | .idle => ([], .ok (s.goto proc caller))
  | _ => ([], .error .callInProgress)

def semStep (s : SemQueue Proc Data) :
    CallOp Proc Data → List (CallResult Proc Data) × Except SemFault (SemQueue Proc Data)
  | .enqueue proc data isBlocking =>
    if s.queue.spaceToEnd 0 / qhdrsz ≤ 0 then ([], .error .noTries)
    else startCall proc
      (.emptyDown data isBlocking (s.queue.spaceToEnd 0 / qhdrsz).toNat) s
  | .dequeue proc isBlocking => startCall proc (.fullDown isBlocking) s
  | .step proc => callStep qs proc s

def semMachine :
    Machine (SemQueue Proc Data) (CallOp Proc Data) (CallResult Proc Data) SemFault where
  step := semStep qs

/-! ## Accounting -/

def Caller.inside : Caller Data → Nat
  | .enqueueElt .. | .enqueueUnlock .. | .dequeueElt .. | .dequeueUnlock .. => 1
  | _ => 0

/-- What the process still has to raise FULL by, or has lowered it by in advance. -/
def Caller.fullDue : Caller Data → Nat
  | .enqueueUnlock _ _ _ true _ | .fullUp | .dequeueLock true | .dequeueElt true => 1
  | _ => 0

def Caller.emptyDue : Caller Data → Nat
  | .enqueueLock _ _ _ true | .enqueueElt _ _ _ true | .dequeueUnlock (some _)
  | .emptyUp _ => 1
  | _ => 0

variable [Fintype Proc]

def total (weight : Caller Data → Nat) (s : SemQueue Proc Data) : Nat :=
  ∑ proc, weight (s.callers proc)

theorem total_goto (weight : Caller Data → Nat) (proc : Proc) (caller : Caller Data)
    (s : SemQueue Proc Data) : total weight (s.goto proc caller) + weight (s.callers proc) =
      total weight s + weight caller := by
  have rest := Finset.sum_erase_add Finset.univ (fun p => weight (s.callers p))
    (Finset.mem_univ proc)
  have moved := Finset.sum_erase_add Finset.univ
    (fun p => weight ((s.goto proc caller).callers p)) (Finset.mem_univ proc)
  have others : ∑ p ∈ Finset.univ.erase proc, weight ((s.goto proc caller).callers p) =
      ∑ p ∈ Finset.univ.erase proc, weight (s.callers p) := by
    apply Finset.sum_congr rfl
    intro p member
    simp [SemQueue.goto, Finset.ne_of_mem_erase member]
  simp only [total]
  rw [← rest, ← moved, others]
  simp only [SemQueue.goto, Function.update_self]
  omega

structure Accounted (qs : QueueSerializer Data) (s : SemQueue Proc Data) (items : List Data) :
    Prop where
  stores : Stores qs s.queue items
  mutex : s.mutex + total Caller.inside s = 1
  full : s.full + total Caller.fullDue s = items.length
  empty : items = [] → 0 < s.empty + total Caller.emptyDue s

/-- The semaphore that a call did or did not take is in line with what it finds: an
element is taken out only with FULL lowered, and a producer that lowered EMPTY is not
refused by an empty queue. -/
def InLine (s : SemQueue Proc Data) : CallOp Proc Data → Prop
  | .step proc =>
    match s.callers proc with
    | .dequeueElt took => took = false → s.queue.IsEmpty
    | .enqueueElt data _ _ took => took = true → s.queue.IsEmpty →
        ∃ next, enqueueElt qs data s.queue = .ok (true, next)
    | _ => True
  | _ => True

variable {qs}

omit [DecidableEq Proc] in
theorem le_total (weight : Caller Data → Nat) (proc : Proc) (s : SemQueue Proc Data) :
    weight (s.callers proc) ≤ total weight s :=
  Finset.single_le_sum (fun p _ => Nat.zero_le (weight (s.callers p))) (Finset.mem_univ proc)

theorem Accounted.move {s t : SemQueue Proc Data} {items items' : List Data}
    (accounted : Accounted qs s items) (proc : Proc) (caller : Caller Data)
    (callers : t.callers = s.callers) (stores : Stores qs t.queue items')
    (mutex : t.mutex + caller.inside = s.mutex + (s.callers proc).inside)
    (full : t.full + caller.fullDue + items.length =
      s.full + (s.callers proc).fullDue + items'.length)
    (empty : items' = [] → 0 < t.empty + caller.emptyDue ∨ items = [] ∧
      t.empty + caller.emptyDue = s.empty + (s.callers proc).emptyDue) :
    Accounted qs (t.goto proc caller) items' := by
  have totals : ∀ weight, total weight (t.goto proc caller) + weight (s.callers proc) =
      total weight s + weight caller := by
    intro weight
    have same : total weight t = total weight s := by simp [total, callers]
    rw [← same, ← callers]
    exact total_goto weight proc caller t
  have inside := totals Caller.inside
  have fullDue := totals Caller.fullDue
  have emptyDue := totals Caller.emptyDue
  refine ⟨stores, ?_, ?_, ?_⟩
  · have was := accounted.mutex
    have part := le_total Caller.inside proc s
    simp only [SemQueue.goto] at inside ⊢
    omega
  · have was := accounted.full
    have part := le_total Caller.fullDue proc s
    simp only [SemQueue.goto] at fullDue ⊢
    omega
  · intro none
    have part := le_total Caller.emptyDue proc s
    rcases empty none with positive | ⟨wasNone, kept⟩
    · simp only [SemQueue.goto] at emptyDue ⊢
      omega
    · have was := accounted.empty wasNone
      simp only [SemQueue.goto] at emptyDue ⊢
      omega

variable {s next : SemQueue Proc Data} {items : List Data} {proc : Proc} {took : Bool}

variable (accounted : Accounted qs s items)

section

include accounted

theorem Accounted.step {t : SemQueue Proc Data} {was caller : Caller Data}
    (here : s.callers proc = was) (callers : t.callers = s.callers) (queue : t.queue = s.queue)
    (mutex : t.mutex + caller.inside = s.mutex + was.inside)
    (full : t.full + caller.fullDue = s.full + was.fullDue)
    (empty : t.empty + caller.emptyDue = s.empty + was.emptyDue) :
    Accounted qs (t.goto proc caller) items := by
  subst here
  apply accounted.move proc caller callers (queue ▸ accounted.stores) mutex
  · omega
  · exact fun none => .inr ⟨none, empty⟩

theorem enqueueElt_accounted {data : Data} {isBlocking : Bool} {tries : Nat}
    (here : s.callers proc = .enqueueElt data isBlocking tries took)
    (inLine : took = true → s.queue.IsEmpty →
      ∃ next, enqueueElt qs data s.queue = .ok (true, next)) :
    ∃ ret queue items', enqueueElt qs data s.queue = .ok (ret, queue) ∧
      Accounted qs (SemQueue.goto proc
        (.enqueueUnlock data isBlocking tries ret (decide queue.IsEmpty))
        { s with queue := queue }) items' := by
  obtain ⟨ret, queue, ran, stores⟩ := enqueueElt_spec data accounted.stores
  have moved := @Accounted.move _ _ _ qs _ s { s with queue := queue } _ _ accounted proc
    (.enqueueUnlock data isBlocking tries ret (decide queue.IsEmpty)) rfl stores
  rw [here] at moved
  refine ⟨ret, queue, (if ret = true then items ++ [data] else items), ran, moved rfl ?_ ?_⟩
  · cases ret with
    | true =>
      simp [Caller.fullDue]
      omega
    | false => rfl
  · intro none
    cases ret with
    | true => simp at none
    | false =>
      have wasNone : items = [] := none
      have refused : took = false := by
        cases took with
        | false => rfl
        | true =>
          obtain ⟨next, accepted⟩ := inLine rfl ((isEmpty_iff accounted.stores).mpr wasNone)
          rw [ran] at accepted
          cases accepted
      exact .inr ⟨wasNone, by rw [refused]; rfl⟩

theorem dequeueElt_accounted (here : s.callers proc = .dequeueElt took)
    (inLine : took = false → s.queue.IsEmpty) :
    ∃ ret queue items', dequeueElt qs s.queue = .ok (ret, queue) ∧
      Accounted qs (SemQueue.goto proc (.dequeueUnlock ret) { s with queue := queue })
        items' := by
  obtain ⟨ret, queue, rest, ran, stores, event⟩ := dequeueElt_spec accounted.stores
  have moved := @Accounted.move _ _ _ qs _ s { s with queue := queue } _ _ accounted proc
    (.dequeueUnlock ret) rfl stores
  rw [here] at moved
  refine ⟨ret, queue, rest, ran, moved rfl ?_ ?_⟩
  · cases ret with
    | some data =>
      cases event
      have lowered : took = true := by
        cases took with
        | true => rfl
        | false => cases (isEmpty_iff accounted.stores).mp (inLine rfl)
      rw [lowered]
      simp [Caller.fullDue]
      omega
    | none =>
      cases event
      -- FULL lowered for the caller would mean an element
      have notLowered : took = false := by
        cases took with
        | false => rfl
        | true =>
          have part := le_total Caller.fullDue proc s
          have was := accounted.full
          rw [here] at part
          simp only [Caller.fullDue, List.length_nil] at part was
          omega
      rw [notLowered]
      simp [Caller.fullDue]
  · intro none
    cases ret with
    | some data => exact .inl (by simp [Caller.emptyDue])
    | none =>
      cases event
      exact .inr ⟨rfl, rfl⟩

theorem callStep_spec (inLine : InLine qs s (.step proc)) :
    ∃ outs next items', callStep qs proc s = (outs, .ok next) ∧ Accounted qs next items' := by
  unfold callStep
  cases here : s.callers proc with
  | idle => exact ⟨_, _, items, rfl, accounted⟩
  | emptyDown data isBlocking tries =>
    cases tries with
    | zero =>
      exact ⟨_, _, items, rfl, accounted.step here rfl rfl rfl rfl rfl⟩
    | succ tries =>
      by_cases positive : 0 < s.empty
      · simp only [positive, if_true]
        exact ⟨_, _, items, rfl, accounted.step here rfl rfl rfl rfl (Nat.sub_add_cancel positive)⟩
      · cases isBlocking with
        | true => exact ⟨[], s, items, by simp [positive], accounted⟩
        | false =>
          simp only [positive, if_false, Bool.false_eq_true]
          exact ⟨_, _, items, rfl, accounted.step here rfl rfl rfl rfl rfl⟩
  | enqueueLock data isBlocking tries took =>
    by_cases positive : 0 < s.mutex
    · simp only [positive, if_true]
      exact ⟨_, _, items, rfl, accounted.step here rfl rfl (Nat.sub_add_cancel positive) rfl
        (by cases took <;> rfl)⟩
    · exact ⟨[], s, items, by simp [positive], accounted⟩
  | enqueueElt data isBlocking tries took =>
    have line : took = true → s.queue.IsEmpty →
        ∃ next, enqueueElt qs data s.queue = .ok (true, next) := by
      simpa [InLine, here] using inLine
    obtain ⟨ret, queue, items', ran, next⟩ := enqueueElt_accounted accounted here line
    exact ⟨[], _, items', by simp [ran], next⟩
  | enqueueUnlock data isBlocking tries ret breakout =>
    cases ret with
    | true =>
      exact ⟨_, _, items, rfl, accounted.step here rfl rfl rfl rfl rfl⟩
    | false =>
      by_cases again : (isBlocking && !breakout) = true
      · simp only [again, Bool.false_eq_true, if_false, if_true]
        exact ⟨_, _, items, rfl, accounted.step here rfl rfl rfl rfl rfl⟩
      · simp only [again, Bool.false_eq_true, if_false]
        exact ⟨_, _, items, rfl, accounted.step here rfl rfl rfl rfl rfl⟩
  | fullUp =>
    exact ⟨_, _, items, rfl, accounted.step here rfl rfl rfl rfl rfl⟩
  | fullDown isBlocking =>
    by_cases positive : 0 < s.full
    · simp only [positive, if_true]
      exact ⟨_, _, items, rfl, accounted.step here rfl rfl rfl (Nat.sub_add_cancel positive) rfl⟩
    · cases isBlocking with
      | true => exact ⟨[], s, items, by simp [positive], accounted⟩
      | false =>
        simp only [positive, if_false, Bool.false_eq_true]
        exact ⟨_, _, items, rfl, accounted.step here rfl rfl rfl rfl rfl⟩
  | dequeueLock took =>
    by_cases positive : 0 < s.mutex
    · simp only [positive, if_true]
      exact ⟨_, _, items, rfl, accounted.step here rfl rfl (Nat.sub_add_cancel positive)
        (by cases took <;> rfl) rfl⟩
    · exact ⟨[], s, items, by simp [positive], accounted⟩
  | dequeueElt took =>
    have line : took = false → s.queue.IsEmpty := by
      simpa [InLine, here] using inLine
    obtain ⟨ret, queue, items', ran, next⟩ := dequeueElt_accounted accounted here line
    exact ⟨[], _, items', by simp [ran], next⟩
  | dequeueUnlock ret =>
    cases ret with
    | some | none => exact ⟨_, _, items, rfl, accounted.step here rfl rfl rfl rfl rfl⟩
  | emptyUp data =>
    exact ⟨_, _, items, rfl, accounted.step here rfl rfl rfl rfl rfl⟩

end

omit [Fintype Proc] in
theorem callStep_ok (stores : Stores qs s.queue items) (proc : Proc) :
    ∃ outs next, callStep qs proc s = (outs, .ok next) := by
  unfold callStep returnFrom
  cases s.callers proc with
  | enqueueElt data isBlocking tries took =>
    obtain ⟨ret, queue, ran, -⟩ := enqueueElt_spec data stores
    simp only [ran]
    exact ⟨_, _, rfl⟩
  | dequeueElt took =>
    obtain ⟨ret, queue, rest, ran, -⟩ := dequeueElt_spec stores
    simp only [ran]
    exact ⟨_, _, rfl⟩
  | emptyDown data isBlocking tries =>
    cases tries with
    | zero => exact ⟨_, _, rfl⟩
    | succ tries =>
      dsimp only
      split_ifs <;> exact ⟨_, _, rfl⟩
  | enqueueUnlock data isBlocking tries ret breakout =>
    dsimp only
    split_ifs <;> exact ⟨_, _, rfl⟩
  | dequeueUnlock ret => cases ret <;> exact ⟨_, _, rfl⟩
  | enqueueLock | fullDown | dequeueLock =>
    dsimp only
    split_ifs <;> exact ⟨_, _, rfl⟩
  | idle | fullUp | emptyUp => exact ⟨_, _, rfl⟩

include accounted in
theorem startCall_accounted {caller : Caller Data} (inside : caller.inside = 0)
    (fullDue : caller.fullDue = 0) (emptyDue : caller.emptyDue = 0)
    (started : (startCall proc caller s).2 = .ok next) : Accounted qs next items := by
  unfold startCall at started
  cases here : s.callers proc with
  | idle =>
    rw [here] at started
    cases started
    exact accounted.step here rfl rfl (congrArg _ inside) (congrArg _ fullDue)
      (congrArg _ emptyDue)
  | _ => simp [here] at started

include accounted in
theorem semStep_accounted {op : CallOp Proc Data} (inLine : InLine qs s op)
    (stepped : (semStep qs s op).2 = .ok next) : ∃ items', Accounted qs next items' := by
  cases op with
  | enqueue proc data isBlocking =>
    by_cases noTries : s.queue.spaceToEnd 0 / qhdrsz ≤ 0
    · simp [semStep, noTries] at stepped
    · simp only [semStep, noTries, if_false] at stepped
      exact ⟨items, startCall_accounted accounted rfl rfl rfl stepped⟩
  | dequeue proc isBlocking =>
    exact ⟨items, startCall_accounted accounted rfl rfl rfl stepped⟩
  | step proc =>
    obtain ⟨outs, after, items', ran, kept⟩ := callStep_spec accounted inLine
    simp only [semStep, ran] at stepped
    cases stepped
    exact ⟨items', kept⟩

omit [DecidableEq Proc] in
theorem makeSemQueue_accounted {sizeofQueue : Nat} {maxeltest size : Int}
    (made : makeSemQueue Proc Data sizeofQueue maxeltest size = .ok (some s)) :
    Accounted qs s [] := by
  unfold makeSemQueue at made
  cases fresh : makeQueue sizeofQueue size with
  | error fault =>
    rw [fresh] at made
    cases made
  | ok queue =>
    rw [fresh] at made
    cases queue with
    | none => cases made
    | some queue =>
      cases made
      have none_ : ∀ weight : Caller Data → Nat, weight .idle = 0 →
          total weight (⟨queue, 1, 0, emptyEstimate maxeltest size, fun _ => .idle⟩ :
            SemQueue Proc Data) = 0 := by
        intro weight isZero
        simp [total, isZero]
      refine ⟨(makeQueue_stores fresh).1, ?_, ?_, ?_⟩
      · rw [none_ _ rfl]
      · rw [none_ _ rfl]
        rfl
      · intro _
        rw [none_ _ rfl]
        simp only [emptyEstimate, mineltest]
        split_ifs <;> omega

/-- When no call is in progress FULL has the number of elements, and a producer finds
EMPTY positive on an empty queue. -/
def SemQueue.Balanced (s : SemQueue Proc Data) : Prop :=
  s.Quiet → (s.full : Int) = s.queue.numelts ∧ (s.queue.IsEmpty → 0 < s.empty)

omit [DecidableEq Proc] in
include accounted in
theorem Accounted.balanced : s.Balanced := by
  intro quiet
  have idle : ∀ weight : Caller Data → Nat, weight .idle = 0 → total weight s = 0 := by
    intro weight isZero
    apply Finset.sum_eq_zero
    intro proc _
    rw [quiet proc, isZero]
  have full := accounted.full
  rw [idle _ rfl] at full
  refine ⟨?_, fun isEmpty => ?_⟩
  · rw [accounted.stores.count]
    omega
  · have empty := accounted.empty ((isEmpty_iff accounted.stores).mp isEmpty)
    rwa [idle _ rfl] at empty

/-- For any processes and any order of their steps: as long as elements are only taken
out with FULL lowered, and no producer that lowered EMPTY is refused by the empty queue,
the semaphores are balanced, and calls do not fault. -/
theorem semaphores_balanced (sizeofQueue : Nat) (maxeltest size : Int) (start : SemQueue Proc Data)
    (made : makeSemQueue Proc Data sizeofQueue maxeltest size = .ok (some start))
    (ops : List (CallOp Proc Data)) (inLine : (semMachine qs).Along (InLine qs) start ops) :
    (semMachine qs).Throughout
      (fun s => s.Balanced ∧ ∀ proc, ∃ outs next, callStep qs proc s = (outs, .ok next))
      start ops := by
  have accounted : (semMachine qs).Throughout (fun s => ∃ items, Accounted qs s items)
      start ops := by
    apply (semMachine qs).throughout_of_along _ ⟨[], makeSemQueue_accounted made⟩ inLine
    rintro s op next ⟨items, accounted⟩ met stepped
    exact semStep_accounted accounted met stepped
  apply Machine.Throughout.mono _ _ accounted
  rintro s ⟨items, accounted⟩
  exact ⟨accounted.balanced, callStep_ok accounted.stores⟩

/-- A producer and a consumer, one after the other. -/
theorem semaphores_balanced_in_turn :
    ∃ start, makeSemQueue Bool (Fin (256 ^ 4)) 52 100 152 = .ok (some start) ∧
      (semMachine pointerSerializer).Throughout
        (fun s => s.Balanced ∧
          ∀ proc, ∃ outs next, callStep pointerSerializer proc s = (outs, .ok next))
        start [.enqueue true 7 true, .step true, .step true, .step true, .step true,
          .step true, .dequeue false false, .step false, .step false, .step false] := by
  refine ⟨_, rfl, semaphores_balanced 52 100 152 _ rfl _ ?_⟩
  iterate 3
    intro next stepped
    cases stepped
    refine ⟨trivial, ?_⟩
  intro next stepped
  cases stepped
  refine ⟨fun _ _ => ⟨_, rfl⟩, ?_⟩
  iterate 5
    intro next stepped
    cases stepped
    refine ⟨trivial, ?_⟩
  intro next stepped
  cases stepped
  exact ⟨nofun, trivial⟩

/-- A consumer that does not block takes the element out before its producer has raised
FULL, which then stays one too high.  And an element that does not fit costs EMPTY one
each time, until it is zero on an empty queue. -/
theorem semaphores_out_of_balance :
    (∃ start outs final, makeSemQueue Bool (Fin (256 ^ 4)) 52 100 152 = .ok (some start) ∧
      (semMachine pointerSerializer).run start
        [.enqueue true 7 true, .step true, .step true, .step true, .step true,
          .dequeue false false, .step false, .step false, .step false, .step false,
          .step false, .step true] = (outs, .ok final) ∧
      final.Quiet ∧ final.full = 1 ∧ final.queue.numelts = 0) ∧
    ∃ start outs final, makeSemQueue Bool (Fin (256 ^ 4)) 44 100 52 = .ok (some start) ∧
      (semMachine pointerSerializer).run start
        (List.replicate 6 [.enqueue true 7 false, .step true, .step true, .step true,
          .step true]).flatten = (outs, .ok final) ∧
      final.Quiet ∧ final.queue.IsEmpty ∧ final.empty = 0 := by
  constructor
  all_goals
    refine ⟨_, _, _, rfl, rfl, ?_, rfl, rfl⟩
    intro proc
    cases proc <;> rfl

end Calls

end TelegraphCQ.ResultQueue
