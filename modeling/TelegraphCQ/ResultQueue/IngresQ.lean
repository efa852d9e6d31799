import Mathlib.Data.List.Count
import TelegraphCQ.Foundation.Machine

/-!
# Named ingress queues

Wrappers and scans of a stream meet at a queue that is known by the name of the stream
(`ingresq.c`).  The queues are in a table with a name and a reference count for each
slot; an allocation takes the slot of the name or a free one, and the last one to free a
slot deletes its queue.

Queues are numbered in the order in which they are made.  Users remember the slot that an
allocation gave them and free that slot.  The sizes and the tuple descriptors of the
queues are left out.
-/

namespace TelegraphCQ.ResultQueue

open Foundation List Function

def numIngresQueues : Nat := 64

structure IngresTable (Name : Type) where
  shmIngresQueuesInit : Nat → Option Name
  shmIngresQueues : Nat → Option Nat
  shmIngresQueuesRefCount : Nat → Int
  made : Nat
  locked : Bool

structure IngresState (Name : Type) where
  table : IngresTable Name
  users : List (Name × Nat)

/-- `spins` is a wait for a lock that is never released, and `notHeld` a user that frees
what it has not allocated. -/
inductive IngresFault where
  | refCountNotOne
  | nullName
  | spins
  | notHeld
  deriving DecidableEq, Repr

section IngresQ

variable {Name : Type}

def emptyIngres : IngresState Name where
  table := ⟨fun _ => none, fun _ => none, fun _ => 0, 0, false⟩
  users := []

def adjustRefCount (qidx : Nat) (amt : Int) (table : IngresTable Name) : IngresTable Name :=
  { table with
    shmIngresQueuesRefCount := update table.shmIngresQueuesRefCount qidx
      (table.shmIngresQueuesRefCount qidx + amt) }

variable [DecidableEq Name]

def firstSlot (name : Name) (table : IngresTable Name) : Option Nat :=
  (List.range numIngresQueues).find? fun i =>
    table.shmIngresQueuesInit i = none ∨ table.shmIngresQueuesInit i = some name

def makeIngresQ (i : Nat) (name : Name) (table : IngresTable Name) : IngresTable Name :=
  { table with
    shmIngresQueuesInit := update table.shmIngresQueuesInit i (some name)
    shmIngresQueues := update table.shmIngresQueues i (some table.made)
    made := table.made + 1 }

def allocIngresQ (name : Name) (table : IngresTable Name) :
    Except IngresFault (Option Nat × IngresTable Name) :=
  if table.locked then .error .spins
  else
    match firstSlot name table with
    | none => .ok (none, table)
    | some i =>
      match table.shmIngresQueuesInit i with
      | none =>
        let table := adjustRefCount i 1 (makeIngresQ i name table)
        if table.shmIngresQueuesRefCount i = 1 then .ok (some i, table)
        else .error .refCountNotOne
      | some _ => .ok (some i, adjustRefCount i 1 table)

/-- The lock is released only if the slot is in use. -/
def freeIngresQ (idx : Nat) (table : IngresTable Name) :
    Except IngresFault (IngresTable Name) :=
  if table.locked then .error .spins
  else
    match table.shmIngresQueuesInit idx with
    | none => .ok { table with locked := true }
    | some _ =>
      let table := adjustRefCount idx (-1) table
      if table.shmIngresQueuesRefCount idx = 0 then
        .ok { table with
          shmIngresQueues := update table.shmIngresQueues idx none
          shmIngresQueuesInit := update table.shmIngresQueuesInit idx none }
      else .ok table

/-- The lookup compares the name with every slot up to the first that has it, free ones
included. -/
def getIngresQByName (name : Name) (table : IngresTable Name) :
    Except IngresFault (Option Nat) :=
  if table.locked then .error .spins
  else
    match firstSlot name table with
    | none => .ok none
    | some i =>
      match table.shmIngresQueuesInit i with
      | none => .error .nullName
      | some _ => .ok (table.shmIngresQueues i)

/-! ## Runs -/

inductive IngresOp (Name : Type) where
  | alloc (name : Name)
  | free (name : Name) (idx : Nat)
  deriving DecidableEq, Repr

def ingresStep (state : IngresState Name) :
    IngresOp Name → List (Option Nat) × Except IngresFault (IngresState Name)
  | .alloc name =>
    match allocIngresQ name state.table with
    | .error fault => ([], .error fault)
    | .ok (none, table) => ([none], .ok { state with table := table })
    | .ok (some i, table) => ([some i], .ok ⟨table, (name, i) :: state.users⟩)
  | .free name idx =>
    if (name, idx) ∈ state.users then
      match freeIngresQ idx state.table with
      | .error fault => ([], .error fault)
      | .ok table => ([], .ok ⟨table, state.users.erase (name, idx)⟩)
    else ([], .error .notHeld)

def ingresMachine :
    Machine (IngresState Name) (IngresOp Name) (Option Nat) IngresFault where
  step := ingresStep

/-! ## Consistency -/

structure IngresState.Consistent (state : IngresState Name) : Prop where
  oneSlot : ∀ i j name, state.table.shmIngresQueuesInit i = some name →
    state.table.shmIngresQueuesInit j = some name → i = j
  counted : ∀ i name, state.table.shmIngresQueuesInit i = some name →
    state.table.shmIngresQueuesRefCount i = (state.users.map Prod.fst).count name
  shared : ∀ name i j, (name, i) ∈ state.users → (name, j) ∈ state.users →
    ∃ queue, state.table.shmIngresQueues i = some queue ∧
      state.table.shmIngresQueues j = some queue
  freed : ∀ i, state.table.shmIngresQueuesInit i = none ↔
    state.table.shmIngresQueuesRefCount i = 0

/-- An allocation of a name that has a slot finds no free slot before it. -/
def NoHoleBefore (state : IngresState Name) : IngresOp Name → Prop
  | .alloc name => ∀ i, state.table.shmIngresQueuesInit i = some name →
      ∀ j < i, state.table.shmIngresQueuesInit j ≠ none
  | .free _ _ => True

structure SlotCounted (state : IngresState Name) (i : Nat) : Prop where
  inTable : ∀ name, state.table.shmIngresQueuesInit i = some name → i < numIngresQueues
  queued : (state.table.shmIngresQueues i).isSome = (state.table.shmIngresQueuesInit i).isSome
  freed : state.table.shmIngresQueuesInit i = none →
    state.table.shmIngresQueuesRefCount i = 0
  held : ∀ name, 0 < state.users.count (name, i) →
    state.table.shmIngresQueuesInit i = some name
  counted : ∀ name, state.table.shmIngresQueuesInit i = some name →
    state.table.shmIngresQueuesRefCount i = state.users.count (name, i) ∧
      0 < state.users.count (name, i)

def SlotsCounted (state : IngresState Name) : Prop :=
  state.table.locked = false ∧ ∀ i, SlotCounted state i

theorem SlotCounted.congr {state next : IngresState Name} {i : Nat} (slot : SlotCounted state i)
    (init : next.table.shmIngresQueuesInit i = state.table.shmIngresQueuesInit i)
    (queue : next.table.shmIngresQueues i = state.table.shmIngresQueues i)
    (refCount : next.table.shmIngresQueuesRefCount i = state.table.shmIngresQueuesRefCount i)
    (users : ∀ name, next.users.count (name, i) = state.users.count (name, i)) :
    SlotCounted next i := by
  constructor
  · rw [init]
    exact slot.inTable
  · rw [init, queue]
    exact slot.queued
  · rw [init, refCount]
    exact slot.freed
  · intro name
    rw [init, users]
    exact slot.held name
  · intro name
    rw [init, refCount, users]
    exact slot.counted name

theorem firstSlot_some {name : Name} {table : IngresTable Name} {i : Nat}
    (found : firstSlot name table = some i) : i < numIngresQueues ∧
      (table.shmIngresQueuesInit i = none ∨ table.shmIngresQueuesInit i = some name) ∧
      ∀ j < i, table.shmIngresQueuesInit j ≠ none ∧ table.shmIngresQueuesInit j ≠ some name := by
  obtain ⟨accepted, inTable, earlier⟩ := find?_range_eq_some.mp found
  refine ⟨mem_range.mp inTable, by simpa using accepted, fun j before => ?_⟩
  simpa using earlier j before

theorem slotsCounted_empty : SlotsCounted (emptyIngres : IngresState Name) := by
  refine ⟨rfl, fun i => ?_⟩
  constructor <;> simp [emptyIngres]

section Steps

variable {state : IngresState Name} {name : Name} {i : Nat}

section

variable (slots : SlotsCounted state)
include slots

theorem SlotsCounted.init_of_mem (member : (name, i) ∈ state.users) :
    state.table.shmIngresQueuesInit i = some name :=
  (slots.2 i).held name (count_pos_iff.mpr member)

theorem SlotsCounted.make (inTable : i < numIngresQueues)
    (free : state.table.shmIngresQueuesInit i = none) :
    SlotsCounted ⟨adjustRefCount i 1 (makeIngresQ i name state.table),
      (name, i) :: state.users⟩ := by
  refine ⟨slots.1, fun j => ?_⟩
  by_cases same : j = i
  · subst same
    have unused : ∀ other, state.users.count (other, j) = 0 := by
      intro other
      apply count_eq_zero.mpr
      intro member
      simp [slots.init_of_mem member] at free
    have zero := (slots.2 j).freed free
    constructor
    · exact fun _ _ => inTable
    · simp [adjustRefCount, makeIngresQ]
    · simp [adjustRefCount, makeIngresQ]
    · intro other positive
      have isName : name = other := by
        by_contra apart
        have pairApart : (name, j) ≠ (other, j) := fun eq => apart (Prod.mk.inj eq).1
        rw [count_cons_of_ne pairApart, unused] at positive
        exact Nat.lt_irrefl 0 positive
      simp [adjustRefCount, makeIngresQ, isName]
    · intro other named
      have isName : name = other := by simpa [adjustRefCount, makeIngresQ] using named
      subst isName
      simp [adjustRefCount, makeIngresQ, zero, unused]
  · have apart : ∀ other, (name, i) ≠ (other, j) := fun other eq => same (Prod.mk.inj eq).2.symm
    apply (slots.2 j).congr
    · simp [adjustRefCount, makeIngresQ, same]
    · simp [adjustRefCount, makeIngresQ, same]
    · simp [adjustRefCount, makeIngresQ, same]
    · exact fun other => count_cons_of_ne (apart other)

theorem SlotsCounted.join (named : state.table.shmIngresQueuesInit i = some name) :
    SlotsCounted ⟨adjustRefCount i 1 state.table, (name, i) :: state.users⟩ := by
  refine ⟨slots.1, fun j => ?_⟩
  by_cases same : j = i
  · subst same
    constructor
    · exact (slots.2 j).inTable
    · exact (slots.2 j).queued
    · intro none
      simp [adjustRefCount, named] at none
    · intro other positive
      rcases mem_cons.mp (count_pos_iff.mp positive) with isNew | old
      · cases isNew
        exact named
      · exact slots.init_of_mem old
    · intro other namedOther
      cases named.symm.trans namedOther
      have counted := (slots.2 j).counted name named
      simp only [adjustRefCount, update_self, count_cons_self]
      omega
  · have apart : ∀ other, (name, i) ≠ (other, j) := fun other eq => same (Prod.mk.inj eq).2.symm
    apply (slots.2 j).congr
    · rfl
    · rfl
    · simp [adjustRefCount, same]
    · exact fun other => count_cons_of_ne (apart other)

theorem SlotsCounted.release (member : (name, i) ∈ state.users) :
    ∃ table, freeIngresQ i state.table = .ok table ∧
      SlotsCounted ⟨table, state.users.erase (name, i)⟩ ∧ ∀ j, table.shmIngresQueuesInit j = none ∨
        table.shmIngresQueuesInit j = state.table.shmIngresQueuesInit j := by
  have named := slots.init_of_mem member
  have counted := (slots.2 i).counted name named
  have left : ((state.users.erase (name, i)).count (name, i) : Int) =
      state.table.shmIngresQueuesRefCount i - 1 := by
    rw [count_erase_self]
    omega
  have others : ∀ j, j ≠ i → ∀ other,
      (state.users.erase (name, i)).count (other, j) = state.users.count (other, j) :=
    fun j apart other => count_erase_of_ne fun eq => apart (Prod.mk.inj eq).2
  -- all users of the slot have its name
  have alone : ∀ other, 0 < (state.users.erase (name, i)).count (other, i) → other = name := by
    intro other positive
    have still := mem_of_mem_erase (count_pos_iff.mp positive)
    exact Option.some.inj ((slots.init_of_mem still).symm.trans named)
  simp only [freeIngresQ, slots.1, named]
  by_cases last : (adjustRefCount i (-1) state.table).shmIngresQueuesRefCount i = 0
  · simp only [last, if_true]
    refine ⟨_, rfl, ⟨slots.1, fun j => ?_⟩, fun j => ?_⟩
    · by_cases same : j = i
      · subst same
        constructor
        · simp
        · simp
        · exact fun _ => last
        · intro other positive
          have isName := alone other positive
          subst isName
          simp only [adjustRefCount, update_self] at last positive
          omega
        · simp
      · apply (slots.2 j).congr
        · simp [adjustRefCount, same]
        · simp [adjustRefCount, same]
        · simp [adjustRefCount, same]
        · exact others j same
    · by_cases same : j = i
      · simp [same]
      · simp [same, adjustRefCount]
  · simp only [last, if_false]
    refine ⟨_, rfl, ⟨slots.1, fun j => ?_⟩, fun j => .inr rfl⟩
    by_cases same : j = i
    · subst same
      constructor
      · exact (slots.2 j).inTable
      · exact (slots.2 j).queued
      · intro none
        simp [adjustRefCount, named] at none
      · intro other positive
        rw [alone other positive]
        exact named
      · intro other namedOther
        cases named.symm.trans namedOther
        simp only [adjustRefCount, update_self] at last ⊢
        omega
    · apply (slots.2 j).congr
      · rfl
      · rfl
      · simp [adjustRefCount, same]
      · exact others j same

theorem SlotsCounted.alloc (name : Name) : (firstSlot name state.table = none ∧
      allocIngresQ name state.table = .ok (none, state.table)) ∨
    (∃ i, firstSlot name state.table = some i ∧ state.table.shmIngresQueuesInit i = none ∧
      allocIngresQ name state.table =
        .ok (some i, adjustRefCount i 1 (makeIngresQ i name state.table))) ∨
    ∃ i, firstSlot name state.table = some i ∧ state.table.shmIngresQueuesInit i = some name ∧
      allocIngresQ name state.table = .ok (some i, adjustRefCount i 1 state.table) := by
  simp only [allocIngresQ, slots.1]
  cases found : firstSlot name state.table with
  | none => exact .inl ⟨rfl, rfl⟩
  | some i =>
    obtain ⟨-, free | named, -⟩ := firstSlot_some found
    · have zero := (slots.2 i).freed free
      refine .inr (.inl ⟨i, rfl, free, ?_⟩)
      simp [free, adjustRefCount, makeIngresQ, zero]
    · exact .inr (.inr ⟨i, rfl, named, by simp [named]⟩)

theorem ingresStep_spec (op : IngresOp Name) :
    (∃ outs, ingresStep state op = (outs, .error .notHeld)) ∨
    ∃ outs next, ingresStep state op = (outs, .ok next) ∧ SlotsCounted next := by
  cases op with
  | alloc name =>
    refine .inr ?_
    obtain ⟨-, ran⟩ | ⟨i, found, free, ran⟩ | ⟨i, found, named, ran⟩ := slots.alloc name
    · exact ⟨[none], state, by simp [ingresStep, ran], slots⟩
    · obtain ⟨inTable, -, -⟩ := firstSlot_some found
      exact ⟨[some i], _, by simp only [ingresStep, ran]; rfl, slots.make inTable free⟩
    · exact ⟨[some i], _, by simp [ingresStep, ran], slots.join named⟩
  | free name idx =>
    by_cases member : (name, idx) ∈ state.users
    · obtain ⟨table, ran, slotsNext, -⟩ := slots.release member
      exact .inr ⟨[], _, by simp [ingresStep, member, ran], slotsNext⟩
    · exact .inl ⟨[], by simp [ingresStep, member]⟩

end

/-! ## One slot for each name -/

def OneSlot (state : IngresState Name) : Prop :=
  ∀ i j name, state.table.shmIngresQueuesInit i = some name →
    state.table.shmIngresQueuesInit j = some name → i = j

theorem consistent_of_oneSlot (slots : SlotsCounted state) (one : OneSlot state) :
    state.Consistent where
  oneSlot := one
  counted := by
    intro i name named
    have same : (state.users.map Prod.fst).count name = state.users.count (name, i) := by
      rw [List.count, List.count, countP_map]
      apply countP_congr
      rintro ⟨other, j⟩ member
      have namedJ := slots.init_of_mem member
      constructor
      · intro isName
        have isName : other = name := by simpa using isName
        subst isName
        simp [one j i other namedJ named]
      · intro isEntry
        have isEntry : other = name ∧ j = i := by simpa using isEntry
        simp [isEntry.1]
    rw [same]
    exact ((slots.2 i).counted name named).1
  shared := by
    intro name i j memberI memberJ
    have namedI := slots.init_of_mem memberI
    cases one i j name namedI (slots.init_of_mem memberJ)
    have queued := (slots.2 i).queued
    rw [namedI, Option.isSome_some] at queued
    obtain ⟨queue, isQueue⟩ := Option.isSome_iff_exists.mp queued
    exact ⟨queue, isQueue, isQueue⟩
  freed := by
    intro i
    constructor
    · exact (slots.2 i).freed
    · intro zero
      cases named : state.table.shmIngresQueuesInit i with
      | none => rfl
      | some name =>
        have counted := (slots.2 i).counted name named
        omega

variable {op : IngresOp Name} {next : IngresState Name}

theorem oneSlot_step (slots : SlotsCounted state) (one : OneSlot state)
    (noHole : NoHoleBefore state op) (stepped : (ingresStep state op).2 = .ok next) :
    OneSlot next := by
  cases op with
  | alloc name =>
    obtain ⟨-, ran⟩ | ⟨i, found, free, ran⟩ | ⟨i, -, -, ran⟩ := slots.alloc name
    · simp only [ingresStep, ran] at stepped
      cases stepped
      exact one
    · simp only [ingresStep, ran] at stepped
      cases stepped
      obtain ⟨-, -, earlier⟩ := firstSlot_some found
      -- a slot with the name would come before or after the free one
      have absent : ∀ j, state.table.shmIngresQueuesInit j ≠ some name := by
        intro j named
        rcases Nat.lt_trichotomy j i with before | rfl | after
        · exact (earlier j before).2 named
        · simp [free] at named
        · exact noHole j named i after free
      intro j k other namedJ namedK
      simp only [adjustRefCount, makeIngresQ, update_apply] at namedJ namedK
      split_ifs at namedJ namedK with sameJ sameK sameK
      · exact sameJ.trans sameK.symm
      · cases namedJ
        exact absurd namedK (absent k)
      · cases namedK
        exact absurd namedJ (absent j)
      · exact one j k other namedJ namedK
    · simp only [ingresStep, ran] at stepped
      cases stepped
      exact one
  | free name idx =>
    by_cases member : (name, idx) ∈ state.users
    · obtain ⟨table, ran, -, kept⟩ := slots.release member
      simp only [ingresStep, member, ran, if_true] at stepped
      cases stepped
      have old : ∀ j other, table.shmIngresQueuesInit j = some other →
          state.table.shmIngresQueuesInit j = some other := by
        intro j other named
        rcases kept j with none | same
        · simp [none] at named
        · exact same ▸ named
      exact fun j k other namedJ namedK => one j k other (old j other namedJ) (old k other namedK)
    · simp [ingresStep, member] at stepped

/-- A free slot before the slot of a name makes the allocation take a second one. -/
theorem noHoleBefore_of_oneSlot (slots : SlotsCounted state) (one : OneSlot state)
    (stepped : (ingresStep state op).2 = .ok next) (still : OneSlot next) :
    NoHoleBefore state op := by
  cases op with
  | alloc name =>
    intro j named k before hole
    obtain ⟨none, -⟩ | ⟨i, found, free, ran⟩ | ⟨i, found, namedI, -⟩ := slots.alloc name
    · have inTable := (slots.2 j).inTable name named
      have passed := find?_eq_none.mp none k
        (mem_range.mpr (Nat.lt_trans before inTable))
      simp [hole] at passed
    · simp only [ingresStep, ran] at stepped
      cases stepped
      have apart : j ≠ i := by
        rintro rfl
        simp [free] at named
      apply apart
      apply still j i name
      · simp [adjustRefCount, makeIngresQ, apart, named]
      · simp [adjustRefCount, makeIngresQ]
    · cases one i j name namedI named
      obtain ⟨-, -, earlier⟩ := firstSlot_some found
      exact (earlier k before).1 hole
  | free name idx => trivial

end Steps

/-- Along every run the table is consistent as long as no allocation of a name that has a
slot finds a free slot before it, and no longer; the table itself never faults. -/
theorem ingresQ_consistent_iff (ops : List (IngresOp Name)) :
    (ingresMachine.Throughout IngresState.Consistent emptyIngres ops ↔
      ingresMachine.Along NoHoleBefore emptyIngres ops) ∧
    ∀ outs fault, ingresMachine.run emptyIngres ops = (outs, .error fault) →
      fault = .notHeld := by
  have oneSlot_empty : OneSlot (emptyIngres : IngresState Name) := by
    intro i j name named
    simp [emptyIngres] at named
  constructor
  · apply @Machine.throughout_iff_along _ _ _ _ ingresMachine IngresState.Consistent
      (fun state => SlotsCounted state ∧ OneSlot state) NoHoleBefore
    · rintro state ⟨slots, one⟩
      exact consistent_of_oneSlot slots one
    · rintro state op next ⟨slots, one⟩ noHole stepped
      refine ⟨?_, oneSlot_step slots one noHole stepped⟩
      obtain ⟨outs, ran⟩ | ⟨outs, other, ran, slotsNext⟩ := ingresStep_spec slots op
      · simp [ingresMachine, ran] at stepped
      · simp only [ingresMachine, ran] at stepped
        cases stepped
        exact slotsNext
    · rintro state op next ⟨slots, one⟩ stepped consistent
      exact noHoleBefore_of_oneSlot slots one stepped consistent.oneSlot
    · exact ⟨slotsCounted_empty, oneSlot_empty⟩
  · intro outs fault ran
    have reached := @Machine.run_spec _ _ _ _ ingresMachine (fun _ => True)
      (fun _ _ state => SlotsCounted state) (fun _ _ fault => fault = .notHeld)
      (fun _ _ _ => trivial)
      (by
        intro ops op outs state _ slots
        obtain ⟨shown, ran⟩ | ⟨shown, next, ran, slotsNext⟩ := ingresStep_spec slots op
        · simp only [ingresMachine, ran]
          exact ⟨_, prefix_rfl, rfl⟩
        · simp only [ingresMachine, ran]
          exact slotsNext)
      emptyIngres slotsCounted_empty ops trivial
    rw [ran] at reached
    obtain ⟨-, -, isNotHeld⟩ := reached
    exact isNotHeld

/-- The queue of the name 1 gets a second slot when it is allocated again after the slot
before it was freed. -/
theorem name_in_two_slots :
    ∃ state, ingresMachine.run (emptyIngres : IngresState Nat)
        [.alloc 0, .alloc 1, .free 0 0, .alloc 1] = ([some 0, some 1, some 0], .ok state) ∧
      state.table.shmIngresQueuesInit 0 = some 1 ∧
      state.table.shmIngresQueuesInit 1 = some 1 ∧
      state.table.shmIngresQueues 0 ≠ state.table.shmIngresQueues 1 ∧
      state.table.shmIngresQueuesRefCount 0 = 1 ∧
      state.users = [(1, 0), (1, 1)] := by
  refine ⟨_, rfl, ?_⟩
  decide

end IngresQ

end TelegraphCQ.ResultQueue
