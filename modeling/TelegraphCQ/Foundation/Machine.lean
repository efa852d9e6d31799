import Mathlib.Data.List.Infix

/-!
# Faulting machines with output

A machine consumes one operation at a time.  A step emits a list of outputs and
either continues in a new state or stops with a fault.  Every nondeterministic
choice (a routing decision, a scheduler, the behaviour of a foreign component)
is part of the operation, so that a statement about all runs is a statement
about all lists of operations.

`run_spec` is the induction rule used throughout: an invariant that relates the
history, the outputs so far and the current state, preserved by one step, holds
after every run.
-/

namespace TelegraphCQ.Foundation

open List

structure Machine (State Op Out Fault : Type*) where
  step : State → Op → List Out × Except Fault State

namespace Machine

variable {State Op Out Fault : Type*}

def run (machine : Machine State Op Out Fault) :
    State → List Op → List Out × Except Fault State
  | state, [] => ([], .ok state)
  | state, op :: ops =>
    match machine.step state op with
    | (outs, .error fault) => (outs, .error fault)
    | (outs, .ok next) =>
      let rest := run machine next ops
      (outs ++ rest.1, rest.2)

variable (machine : Machine State Op Out Fault)

@[simp] theorem run_nil (state : State) : machine.run state [] = ([], .ok state) := rfl

variable {state init : State} {op : Op} {outs : List Out} {ops : List Op} {P Inv : State → Prop}
  {Cond : State → Op → Prop}

theorem run_cons_ok {next : State} (hstep : machine.step state op = (outs, .ok next))
    (ops : List Op) : machine.run state (op :: ops) =
      (outs ++ (machine.run next ops).1, (machine.run next ops).2) := by
  simp [run, hstep]

theorem run_cons_error {fault : Fault} (hstep : machine.step state op = (outs, .error fault))
    (ops : List Op) : machine.run state (op :: ops) = (outs, .error fault) := by
  simp [run, hstep]

/-- What a run that starts from a reached configuration may claim: a live run
carries the invariant, a stopped run carries the fault's own statement for the
prefix of the history that was consumed. -/
def Reached (Inv : List Op → List Out → State → Prop)
    (Stopped : List Op → List Out → Fault → Prop)
    (ops : List Op) (outs : List Out) : Except Fault State → Prop
  | .ok state => Inv ops outs state
  | .error fault => ∃ consumed, consumed <+: ops ∧ Stopped consumed outs fault

theorem run_keeps {Inv : State → Prop}
    (step_spec : ∀ state op next, Inv state → (machine.step state op).2 = .ok next → Inv next)
    {init final : State} {ops : List Op} {outs : List Out} (start : Inv init)
    (ran : machine.run init ops = (outs, .ok final)) : Inv final := by
  induction ops generalizing init outs with
  | nil =>
    cases ran
    exact start
  | cons op ops ih =>
    cases stepped : machine.step init op with
    | mk emitted result =>
      cases result with
      | error fault =>
        rw [machine.run_cons_error stepped] at ran
        cases ran
      | ok next =>
        rw [machine.run_cons_ok stepped] at ran
        have rest : (machine.run next ops).2 = .ok final := congrArg Prod.snd ran
        exact ih (step_spec init op next start (by rw [stepped])) (Prod.ext rfl rest)

/-- Two states emit the same at a step, which takes them to related states. -/
def StepsAlike (R : State → State → Prop) (a b : State) (op : Op) : Prop :=
  ∃ emitted next other, machine.step a op = (emitted, .ok next) ∧
    machine.step b op = (emitted, .ok other) ∧ R next other

theorem run_same {R : State → State → Prop}
    (step_same : ∀ a b op, R a b → machine.StepsAlike R a b op)
    {a b : State} (related : R a b) (ops : List Op) :
    (machine.run a ops).1 = (machine.run b ops).1 := by
  induction ops generalizing a b with
  | nil => rfl
  | cons op ops ih =>
    obtain ⟨emitted, next, other, stepped, steppedOther, still⟩ := step_same a b op related
    rw [machine.run_cons_ok stepped, machine.run_cons_ok steppedOther, ih still]

/-- The step rule for `run`.  `Valid` restricts the histories considered; it
has to be closed under dropping the last operation. -/
theorem run_spec {Valid : List Op → Prop} {Inv : List Op → List Out → State → Prop}
    {Stopped : List Op → List Out → Fault → Prop}
    (valid_init : ∀ ops op, Valid (ops ++ [op]) → Valid ops)
    (step_spec : ∀ ops op outs state, Valid (ops ++ [op]) → Inv ops outs state →
      Reached Inv Stopped (ops ++ [op])
        (outs ++ (machine.step state op).1) (machine.step state op).2)
    {init : State} (init_inv : Inv [] [] init)
    (ops : List Op) (valid : Valid ops) : Reached Inv Stopped ops (machine.run init ops).1
      (machine.run init ops).2 := by
  -- the history is split into what was consumed and what is still to come
  suffices general : ∀ (rest done : List Op) (outs : List Out) (state : State),
      Valid (done ++ rest) → Inv done outs state →
      Reached Inv Stopped (done ++ rest) (outs ++ (machine.run state rest).1)
        (machine.run state rest).2 by
    simpa using general ops [] [] init (by simpa using valid) init_inv
  intro rest
  induction rest with
  | nil =>
    intro done outs state _ inv
    simpa [Reached] using inv
  | cons op rest ih =>
    intro done outs state valid inv
    have validPrefix : ∀ more : List Op, Valid (done ++ [op] ++ more) → Valid (done ++ [op]) := by
      intro more
      induction more using List.reverseRecOn with
      | nil => simp
      | append_singleton more last ihMore =>
        intro h
        refine ihMore (valid_init _ last ?_)
        simpa [append_assoc] using h
    have validNext : Valid (done ++ [op]) := validPrefix rest (by simpa using valid)
    have next := step_spec done op outs state validNext inv
    rcases hstep : machine.step state op with ⟨emitted, result⟩
    rw [hstep] at next
    cases result with
    | error fault =>
      obtain ⟨consumed, hprefix, stopped⟩ := next
      rw [machine.run_cons_error hstep]
      exact ⟨consumed, hprefix.trans ⟨rest, by simp⟩, stopped⟩
    | ok state' =>
      rw [machine.run_cons_ok hstep]
      have tail := ih (done ++ [op]) (outs ++ emitted) state'
        (by simpa using valid) next
      simpa [append_assoc] using tail

theorem run_total {Valid : List Op → Prop} {Inv : List Op → List Out → State → Prop}
    (valid_init : ∀ ops op, Valid (ops ++ [op]) → Valid ops)
    (step_spec : ∀ ops op outs state, Valid (ops ++ [op]) → Inv ops outs state →
      ∃ emitted next, machine.step state op = (emitted, .ok next) ∧
        Inv (ops ++ [op]) (outs ++ emitted) next)
    {init : State} (init_inv : Inv [] [] init)
    (ops : List Op) (valid : Valid ops) : ∃ outs state, machine.run init ops = (outs, .ok state) ∧
      Inv ops outs state := by
  have reached : Reached Inv (fun _ _ _ => False) ops
      (machine.run init ops).1 (machine.run init ops).2 := by
    refine machine.run_spec valid_init ?_ init_inv ops valid
    intro ops op outs state valid inv
    obtain ⟨emitted, next, hstep, invNext⟩ := step_spec ops op outs state valid inv
    rw [hstep]
    exact invNext
  rcases hrun : machine.run init ops with ⟨outs, result⟩
  rw [hrun] at reached
  cases result with
  | error fault =>
    obtain ⟨_, _, impossible⟩ := reached
    exact False.elim impossible
  | ok state => exact ⟨outs, state, rfl, reached⟩

theorem run_always {Inv : List Op → List Out → State → Prop}
    (step_spec : ∀ ops op outs state, Inv ops outs state →
      ∃ emitted next, machine.step state op = (emitted, .ok next) ∧
        Inv (ops ++ [op]) (outs ++ emitted) next)
    {init : State} (init_inv : Inv [] [] init) (ops : List Op) :
    ∃ outs state, machine.run init ops = (outs, .ok state) ∧ Inv ops outs state := by
  have valid : (fun _ : List Op => True) ops := trivial
  apply machine.run_total (fun _ _ _ => trivial) _ init_inv ops valid
  intro ops op outs state _ inv
  exact step_spec ops op outs state inv

theorem run_append_ok {mid : State} (ran : machine.run state ops = (outs, .ok mid))
    (more : List Op) : machine.run state (ops ++ more) =
      (outs ++ (machine.run mid more).1, (machine.run mid more).2) := by
  induction ops generalizing state outs with
  | nil =>
    cases ran
    rfl
  | cons op ops ih =>
    rcases stepped : machine.step state op with ⟨emitted, result⟩
    cases result with
    | error fault =>
      rw [machine.run_cons_error stepped] at ran
      cases ran
    | ok next =>
      rw [machine.run_cons_ok stepped, Prod.mk.injEq] at ran
      rw [cons_append, machine.run_cons_ok stepped, ih (Prod.ext rfl ran.2), ← ran.1, append_assoc]

theorem run_to_rest {α : Type*} {r : α → α → Prop} (wf : WellFounded r) (op : Op)
    {Inv : α → List Out → State → Prop} {Rest : State → Prop}
    (step_spec : ∀ a outs state, Inv a outs state → Rest state ∨
      ∃ emitted next b, machine.step state op = (emitted, .ok next) ∧
        Inv b (outs ++ emitted) next ∧ r b a)
    {a : α} {outs : List Out} {state : State} (inv : Inv a outs state) :
    ∃ m emitted next b, machine.run state (List.replicate m op) = (emitted, .ok next) ∧
      Inv b (outs ++ emitted) next ∧ Rest next := by
  induction a using wf.induction generalizing outs state with
  | _ a ih =>
    rcases step_spec a outs state inv with rests | ⟨emitted, next, b, stepped, invNext, less⟩
    · exact ⟨0, [], state, a, rfl, by rwa [append_nil], rests⟩
    · obtain ⟨m, more, final, c, ran, invFinal, rests⟩ := ih b less invNext
      refine ⟨m + 1, emitted ++ more, final, c, ?_, ?_, rests⟩
      · rw [replicate_succ, machine.run_cons_ok stepped, ran]
      · rwa [← append_assoc]

/-! ## Conditions along a run -/

/-- A property of every state that a run passes through. -/
def Throughout (P : State → Prop) : State → List Op → Prop
  | state, [] => P state
  | state, op :: ops => P state ∧ ∀ next, (machine.step state op).2 = .ok next →
      Throughout P next ops

theorem Throughout.mono {Q : State → Prop} (weaker : ∀ state, P state → Q state)
    (throughout : machine.Throughout P init ops) : machine.Throughout Q init ops := by
  induction ops generalizing init with
  | nil => exact weaker init throughout
  | cons op ops ih =>
    exact ⟨weaker init throughout.1, fun next stepped => ih (throughout.2 next stepped)⟩

def Along (Cond : State → Op → Prop) : State → List Op → Prop
  | _, [] => True
  | state, op :: ops => ∀ next, (machine.step state op).2 = .ok next →
      Cond state op ∧ Along Cond next ops

def Guarded (Cond : State → Op → Prop) : State → List Op → Prop
  | _, [] => True
  | state, op :: ops => Cond state op ∧
      ∀ next, (machine.step state op).2 = .ok next → Guarded Cond next ops

instance decidableGuarded {Cond : State → Op → Prop} [∀ state op, Decidable (Cond state op)] :
    ∀ state ops, Decidable (machine.Guarded Cond state ops)
  | _, [] => .isTrue trivial
  | state, op :: ops =>
    match stepped : (machine.step state op).2 with
    | .error fault => decidable_of_iff (Cond state op) (by simp [Guarded, stepped])
    | .ok next =>
      have : Decidable (machine.Guarded Cond next ops) := decidableGuarded next ops
      decidable_of_iff (Cond state op ∧ machine.Guarded Cond next ops)
        (by simp [Guarded, stepped])

theorem run_guarded {Valid : List Op → Prop} {Cond : State → Op → Prop}
    {Inv : List Op → List Out → State → Prop}
    (valid_take : ∀ ops more, Valid (ops ++ more) → Valid ops)
    (step_spec : ∀ ops op outs state, Valid (ops ++ [op]) → Cond state op → Inv ops outs state →
      ∃ emitted next, machine.step state op = (emitted, .ok next) ∧
        Inv (ops ++ [op]) (outs ++ emitted) next)
    {init : State} (init_inv : Inv [] [] init) (ops : List Op) (valid : Valid ops)
    (guarded : machine.Guarded Cond init ops) :
    ∃ outs state, machine.run init ops = (outs, .ok state) ∧ Inv ops outs state := by
  suffices general : ∀ (rest done : List Op) (outs : List Out) (state : State),
      Valid (done ++ rest) → Inv done outs state → machine.Guarded Cond state rest →
      ∃ more final, machine.run state rest = (more, .ok final) ∧
        Inv (done ++ rest) (outs ++ more) final by
    simpa using general ops [] [] init valid init_inv guarded
  intro rest
  induction rest with
  | nil =>
    intro done outs state _ inv _
    exact ⟨[], state, rfl, by simpa using inv⟩
  | cons op rest ih =>
    intro done outs state valid inv guarded
    rw [append_cons] at valid
    obtain ⟨emitted, next, stepped, invNext⟩ := step_spec done op outs state
      (valid_take (done ++ [op]) rest valid) guarded.1 inv
    obtain ⟨more, final, ran, invFinal⟩ := ih (done ++ [op]) (outs ++ emitted) next valid
      invNext (guarded.2 next (by rw [stepped]))
    refine ⟨emitted ++ more, final, ?_, ?_⟩
    · rw [machine.run_cons_ok stepped, ran]
    · rw [append_cons, ← append_assoc]
      exact invFinal

theorem throughout_of_guarded (holds : ∀ state, Inv state → P state)
    (step_spec : ∀ state op, Inv state → Cond state op →
      ∃ emitted next, machine.step state op = (emitted, .ok next) ∧ Inv next) (start : Inv init)
    (guarded : machine.Guarded Cond init ops) :
    (∃ outs final, machine.run init ops = (outs, .ok final)) ∧ machine.Throughout P init ops := by
  induction ops generalizing init with
  | nil => exact ⟨⟨[], init, rfl⟩, holds init start⟩
  | cons op ops ih =>
    obtain ⟨emitted, next, stepped, invNext⟩ := step_spec init op start guarded.1
    obtain ⟨⟨outs, final, ran⟩, later⟩ := ih invNext (guarded.2 next (by rw [stepped]))
    refine ⟨⟨emitted ++ outs, final, ?_⟩, holds init start, fun reached isNext => ?_⟩
    · rw [machine.run_cons_ok stepped, ran]
    · rw [stepped] at isNext
      cases isNext
      exact later

theorem guarded_congr {Other : State → Op → Prop}
    (agree : ∀ state op, Inv state → (Cond state op ↔ Other state op))
    (step : ∀ state op next, Inv state → Other state op →
      (machine.step state op).2 = .ok next → Inv next) (start : Inv init) (ops : List Op) :
    machine.Guarded Cond init ops ↔ machine.Guarded Other init ops := by
  induction ops generalizing init with
  | nil => exact Iff.rfl
  | cons op ops ih =>
    simp only [Guarded, agree init op start]
    apply and_congr_right
    intro met
    exact forall_congr' fun next => forall_congr' fun stepped =>
      ih (step init op next start met stepped)

theorem Guarded.along (guarded : machine.Guarded Cond init ops) : machine.Along Cond init ops := by
  induction ops generalizing init with
  | nil => trivial
  | cons op ops ih => exact fun next stepped => ⟨guarded.1, ih (guarded.2 next stepped)⟩

theorem throughout_of_along (step : ∀ state op next, Inv state → Cond state op →
      (machine.step state op).2 = .ok next → Inv next) (start : Inv init)
    (along : machine.Along Cond init ops) : machine.Throughout Inv init ops := by
  induction ops generalizing init with
  | nil => exact start
  | cons op ops ih =>
    refine ⟨start, fun next stepped => ?_⟩
    obtain ⟨met, later⟩ := along next stepped
    exact ih (step init op next start met stepped) later

theorem throughout_iff_along {P Inv : State → Prop} {Cond : State → Op → Prop}
    (holds : ∀ state, Inv state → P state) (step : ∀ state op next, Inv state → Cond state op →
      (machine.step state op).2 = .ok next → Inv next)
    (needed : ∀ state op next, Inv state → (machine.step state op).2 = .ok next →
      P next → Cond state op)
    {init : State} (start : Inv init) (ops : List Op) :
    machine.Throughout P init ops ↔ machine.Along Cond init ops := by
  induction ops generalizing init with
  | nil => exact ⟨fun _ => trivial, fun _ => holds init start⟩
  | cons op ops ih =>
    constructor
    · rintro ⟨-, later⟩ next stepped
      have holdsNext : P next := by
        have := later next stepped
        cases ops with
        | nil => exact this
        | cons => exact this.1
      have met := needed init op next start stepped holdsNext
      exact ⟨met, (ih (step init op next start met stepped)).mp (later next stepped)⟩
    · intro along
      refine ⟨holds init start, fun next stepped => ?_⟩
      obtain ⟨met, later⟩ := along next stepped
      exact (ih (step init op next start met stepped)).mpr later

end Machine

end TelegraphCQ.Foundation
