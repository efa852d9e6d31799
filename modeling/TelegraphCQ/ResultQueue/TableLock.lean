import TelegraphCQ.ResultQueue.IngresQ

/-!
# The lock of the table of ingress queues

Processes call the functions of `ingresq.c` at any time.  A call waits for the spinlock of
the table, and leaves the table as the function leaves it once it has the lock.  A process
that reads a null name dies with the lock.
-/

namespace TelegraphCQ.ResultQueue

open Foundation List Function

/-- `get` is any of the functions that read or set one entry of a slot. -/
inductive IngresCall (Name : Type) where
  | alloc (name : Name)
  | free (idx : Nat)
  | lookup (name : Name)
  | get (idx : Nat)
  deriving DecidableEq, Repr

inductive LockPhase (Name : Type) where
  | outside
  | spinning (call : IngresCall Name)
  | inside (call : IngresCall Name)
  | died
  deriving DecidableEq, Repr

structure TableLock (Process Name : Type) where
  table : IngresTable Name
  holder : Option Process
  phase : Process → LockPhase Name

inductive LockEvent (Process Name : Type) where
  | call (p : Process) (call : IngresCall Name)
  | acquire (p : Process)
  | leave (p : Process)
  deriving DecidableEq, Repr

variable {Process Name : Type} [DecidableEq Process] [DecidableEq Name]

def IngresCall.perform (table : IngresTable Name) :
    IngresCall Name → Except IngresFault (IngresTable Name)
  | .alloc name => (allocIngresQ name table).map Prod.snd
  | .free idx => freeIngresQ idx table
  | .lookup name => (getIngresQByName name table).map fun _ => table
  | .get _ => .ok table

def freshTable : TableLock Process Name := ⟨emptyIngres.table, none, fun _ => .outside⟩

/-- The lock stays with a process that returns from a call that has not released it. -/
def lockNext (state : TableLock Process Name) :
    LockEvent Process Name → TableLock Process Name
  | .call p call =>
    if state.phase p = .outside then
      { state with phase := update state.phase p (.spinning call) }
    else state
  | .acquire p =>
    match state.holder, state.phase p with
    | none, .spinning call =>
      { state with holder := some p, phase := update state.phase p (.inside call) }
    | _, _ => state
  | .leave p =>
    match state.phase p with
    | .inside call =>
      match call.perform state.table with
      | .error _ => { state with phase := update state.phase p .died }
      | .ok table =>
        ⟨{ table with locked := false }, if table.locked then some p else none,
          update state.phase p .outside⟩
    | _ => state

def lockMachine : Machine (TableLock Process Name) (LockEvent Process Name) Unit Empty where
  step := fun state event => ([], .ok (lockNext state event))

/-- The lock is free or its holder is on the way to release it. -/
def TableLock.Held (state : TableLock Process Name) : Prop :=
  ∀ p, state.holder = some p → ∃ call, state.phase p = .inside call

/-- A free is of a slot in use, and a lookup finds the name before any free slot. -/
def IngresCall.Releases (table : IngresTable Name) : IngresCall Name → Prop
  | .free idx => table.shmIngresQueuesInit idx ≠ none
  | .lookup name => ∀ i, firstSlot name table = some i → table.shmIngresQueuesInit i ≠ none
  | .alloc _ | .get _ => True

def ReleasesLock (state : TableLock Process Name) : LockEvent Process Name → Prop
  | .leave p => ∀ call, state.phase p = .inside call → call.Releases state.table
  | .call _ _ | .acquire _ => True

/-- A waiting process gets the lock when the process that has it leaves, unless another one
is faster. -/
def TableLock.Acquires (state : TableLock Process Name) : Prop :=
  ∀ p call, state.phase p = .spinning call → (∀ q, ReleasesLock state (.leave q)) →
    ((state.holder.toList.map LockEvent.leave ++ [LockEvent.acquire p]).foldl lockNext state).phase p =
      .inside call

structure TableLock.Sound (state : TableLock Process Name) : Prop where
  holder : ∀ p, state.holder = some p ↔ ∃ call, state.phase p = .inside call
  unlocked : state.table.locked = false
  freed : ∀ i, state.table.shmIngresQueuesInit i = none →
    state.table.shmIngresQueuesRefCount i = 0

section Steps

variable {state : TableLock Process Name} {table : IngresTable Name}

theorem perform_spec (call : IngresCall Name) (unlocked : table.locked = false)
    (freed : ∀ i, table.shmIngresQueuesInit i = none → table.shmIngresQueuesRefCount i = 0) :
    (call.Releases table ∧ ∃ after, call.perform table = .ok after ∧ after.locked = false ∧
      ∀ i, after.shmIngresQueuesInit i = none → after.shmIngresQueuesRefCount i = 0) ∨
    (¬ call.Releases table ∧ ∀ after, call.perform table = .ok after → after.locked = true) := by
  cases call with
  | get idx => exact .inl ⟨trivial, table, rfl, unlocked, freed⟩
  | lookup name =>
    simp only [IngresCall.perform, IngresCall.Releases, getIngresQByName, unlocked]
    cases found : firstSlot name table with
    | none => exact .inl ⟨by simp, table, rfl, unlocked, freed⟩
    | some i =>
      cases init : table.shmIngresQueuesInit i with
      | none => exact .inr ⟨by simp [init], by simp [init, Except.map]⟩
      | some other => exact .inl ⟨by simp [init], table, by simp [init, Except.map], unlocked,
        freed⟩
  | free idx =>
    simp only [IngresCall.perform, IngresCall.Releases, freeIngresQ, unlocked]
    cases init : table.shmIngresQueuesInit idx with
    | none =>
      refine .inr ⟨by simp, fun after performed => ?_⟩
      cases performed
      rfl
    | some name =>
      refine .inl ⟨by simp, ?_⟩
      by_cases last : (adjustRefCount idx (-1) table).shmIngresQueuesRefCount idx = 0
      · refine ⟨_, if_pos last, unlocked, fun i isFree => ?_⟩
        by_cases same : i = idx
        · rw [same]
          exact last
        · simp only [adjustRefCount, ne_eq, same, not_false_eq_true, update_of_ne]
            at isFree ⊢
          exact freed i isFree
      · refine ⟨_, if_neg last, unlocked, fun i isFree => ?_⟩
        have apart : i ≠ idx := by
          rintro rfl
          cases init.symm.trans isFree
        simpa [adjustRefCount, apart] using freed i isFree
  | alloc name =>
    refine .inl ⟨trivial, ?_⟩
    simp only [IngresCall.perform, allocIngresQ, unlocked]
    cases found : firstSlot name table with
    | none => exact ⟨table, rfl, unlocked, freed⟩
    | some i =>
      cases init : table.shmIngresQueuesInit i with
      | none =>
        refine ⟨adjustRefCount i 1 (makeIngresQ i name table), ?_, unlocked, fun j isFree => ?_⟩
        · simp [init, adjustRefCount, makeIngresQ, freed i init, Except.map]
        · have apart : j ≠ i := by
            rintro rfl
            simp [adjustRefCount, makeIngresQ] at isFree
          simp only [adjustRefCount, makeIngresQ, ne_eq, apart, not_false_eq_true,
            update_of_ne] at isFree ⊢
          exact freed j isFree
      | some other =>
        refine ⟨adjustRefCount i 1 table, by simp [init, Except.map], unlocked, fun j isFree => ?_⟩
        have apart : j ≠ i := by
          rintro rfl
          cases init.symm.trans isFree
        simpa [adjustRefCount, apart] using freed j isFree

theorem TableLock.Sound.leave (sound : state.Sound) {p : Process} {call : IngresCall Name}
    (isInside : state.phase p = .inside call) :
    (call.Releases state.table ∧ (lockNext state (.leave p)).Sound ∧
      (lockNext state (.leave p)).holder = none ∧
      ∀ q ≠ p, (lockNext state (.leave p)).phase q = state.phase q) ∨
    (¬ call.Releases state.table ∧ ¬ (lockNext state (.leave p)).Held) := by
  have held := (sound.holder p).mpr ⟨call, isInside⟩
  obtain ⟨releases, after, performed, unlocked, freed⟩ | ⟨keeps, locked⟩ :=
    perform_spec call sound.unlocked sound.freed
  · refine .inl ⟨releases, ?_⟩
    simp only [lockNext, isInside, performed, unlocked]
    refine ⟨⟨fun q => iff_of_false (by simp) ?_, rfl, freed⟩, rfl,
      fun q apart => update_of_ne apart _ _⟩
    rintro ⟨other, isOther⟩
    by_cases same : q = p
    · simp [same] at isOther
    · -- only one process can be inside
      have isOther := (update_of_ne same _ _).symm.trans isOther
      have heldOther := (sound.holder q).mpr ⟨other, isOther⟩
      exact same (Option.some.inj (heldOther.symm.trans held))
  · refine .inr ⟨keeps, fun stillHeld => ?_⟩
    cases performed : call.perform state.table with
    | error fault =>
      obtain ⟨other, isOther⟩ := stillHeld p (by simp [lockNext, isInside, performed, held])
      simp [lockNext, isInside, performed] at isOther
    | ok after =>
      obtain ⟨other, isOther⟩ := stillHeld p
        (by simp [lockNext, isInside, performed, locked after performed])
      simp [lockNext, isInside, performed] at isOther

theorem TableLock.Sound.step (sound : state.Sound) {event : LockEvent Process Name}
    (releases : ReleasesLock state event) : (lockNext state event).Sound := by
  have moved : ∀ p phase, (∀ call, phase ≠ .inside call) → state.holder ≠ some p →
      (TableLock.mk state.table state.holder (update state.phase p phase)).Sound := by
    intro p phase notInside notHolder
    refine ⟨fun q => ?_, sound.unlocked, sound.freed⟩
    by_cases same : q = p
    · simp [same, notInside, notHolder]
    · simpa [same] using sound.holder q
  cases event with
  | call p call =>
    simp only [lockNext]
    split_ifs with outside
    · refine moved p _ (by simp) fun held => ?_
      obtain ⟨other, isInside⟩ := (sound.holder p).mp held
      cases outside.symm.trans isInside
    · exact sound
  | acquire p =>
    simp only [lockNext]
    split
    next call free spins =>
      refine ⟨fun q => ?_, sound.unlocked, sound.freed⟩
      by_cases same : q = p
      · simp [same]
      · have notInside := (sound.holder q).not.mp (by simp [free])
        simpa [same, Ne.symm same] using notInside
    next => exact sound
  | leave p =>
    cases phase : state.phase p with
    | inside call =>
      obtain ⟨-, soundNext, -⟩ | ⟨keeps, -⟩ := sound.leave phase
      · exact soundNext
      · exact absurd (releases call phase) keeps
    | outside | spinning | died => simpa [lockNext, phase] using sound

theorem TableLock.Sound.acquires (sound : state.Sound) : state.Acquires := by
  intro p call spins releases
  cases holder : state.holder with
  | none => simp [lockNext, holder, spins]
  | some q =>
    obtain ⟨other, isInside⟩ := (sound.holder q).mp holder
    have apart : p ≠ q := by
      rintro rfl
      cases spins.symm.trans isInside
    obtain ⟨-, -, free, others⟩ | ⟨keeps, -⟩ := sound.leave isInside
    · have stillSpins := (others p apart).trans spins
      simp only [Option.toList_some, map_cons, map_nil, cons_append,
        nil_append, foldl_cons, foldl_nil]
      rw [lockNext, free, stillSpins]
      simp
    · exact absurd (releases q other isInside) keeps

end Steps

/-- In every interleaving the lock is with a process that will release it, and can be
acquired then, exactly as long as no call leaves it held. -/
theorem table_lock_released_iff (events : List (LockEvent Process Name)) :
    lockMachine.Throughout (fun state => state.Held ∧ state.Acquires) freshTable events ↔
      lockMachine.Along ReleasesLock freshTable events := by
  apply @Machine.throughout_iff_along _ _ _ _ lockMachine _ TableLock.Sound ReleasesLock
  · exact fun state sound => ⟨fun p => (sound.holder p).mp, sound.acquires⟩
  · rintro state event - sound releases ⟨⟩
    exact sound.step releases
  · rintro state event - sound ⟨⟩ ⟨held, -⟩
    cases event with
    | call | acquire => trivial
    | leave p =>
      intro call isInside
      obtain ⟨releases, -⟩ | ⟨-, notHeld⟩ := sound.leave isInside
      · exact releases
      · exact absurd held notHeld
  · exact ⟨fun p => by simp [freshTable], rfl, fun _ _ => rfl⟩

/-- Process 0 frees a slot that is not in use and returns with the lock; process 1 waits
for it forever. -/
theorem free_of_missing_queue :
    ∃ outs state, (lockMachine : Machine (TableLock Nat Nat) _ _ _).run freshTable
        [.call 0 (.free 3), .acquire 0, .leave 0, .call 1 (.alloc 7), .acquire 1] =
          (outs, .ok state) ∧
      state.phase 0 = .outside ∧ state.holder = some 0 ∧ state.phase 1 = .spinning (.alloc 7) :=
  ⟨_, _, rfl, rfl, rfl, rfl⟩

end TelegraphCQ.ResultQueue
