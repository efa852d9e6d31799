import TelegraphCQ.Stems.FSteMWindow

/-!
# Searching a windowed state module

`FSteMContainsTuple` counts up from the index of the first sub-SteM to that of the last
one.  The slots in use are a cyclic interval: once the last index is below the first one
the loop looks at none of them, and both indices of an empty ring are -1, which the loop
takes for a slot.
-/

namespace TelegraphCQ.Stems

open Foundation List

section Membership

variable {Tuple Key : Type} [DecidableEq Tuple] (schema : Schema Tuple Key)

inductive SearchFault where
  | duringProbe
  | badIndex
  | nullSubSteM
  deriving DecidableEq, Repr

/-- Tuples are compared byte by byte with those in their own bucket. -/
def stemContainsTuple (tuple : Tuple) (stem : SteM Tuple) : Bool :=
  tuple ∈ stem.bucket (execSteMHashGetBucket schema (schema.innerhashkey tuple))

/-- `FSTEM_NOT_AN_INDEX` is -1. -/
def ssIndex : Option (Fin 3) → Int
  | none => -1
  | some i => i.val

theorem toNat_lt_three {index : Int} (valid : 0 ≤ index ∧ index < 3) : index.toNat < 3 := by
  omega

/-- A slot that is not in use has no sub-SteM to look into. -/
def fsteMSubstemPtr (node : FSteM Tuple) (index : Int) : Except SearchFault (SteM Tuple) :=
  if valid : 0 ≤ index ∧ index < 3 then
    match node.substems.slots ⟨index.toNat, toNat_lt_three valid⟩ with
    | none => .error .nullSubSteM
    | some stem => .ok stem
  else .error .badIndex

def containsFrom (tuple : Tuple) (node : FSteM Tuple) : Nat → Int → Except SearchFault Bool
  | 0, _ => .ok false
  | rounds + 1, stemno => do
      let stem ← fsteMSubstemPtr node stemno
      if stemContainsTuple schema tuple stem then return true
      else containsFrom tuple node rounds (stemno + 1)

def fsteMContainsTuple (tuple : Tuple) (node : FSteM Tuple) : Except SearchFault Bool :=
  if node.haveprobe then .error .duringProbe
  else
    let first := ssIndex node.substems.first
    let last := ssIndex node.substems.last
    containsFrom schema tuple node (last + 1 - first).toNat first

/-- Expired sub-SteMs may be collected on their own too. -/
inductive FSteMCall where
  | op (op : FSteMOp schema)
  | expire (tuple : Tuple)

def fsteMCallMachine :
    Machine (FSteM Tuple) (FSteMCall schema) (FSteMOut Tuple) FSteMFault where
  step node
    | .op op => fsteMStep schema node op
    | .expire tuple => ([], fsteMGCSubstems schema tuple 3 node)

def FSteM.Contains (node : FSteM Tuple) (tuple : Tuple) : Prop :=
  ∃ stem ∈ node.substems.toList, tuple ∈ stem.tuples

instance (node : FSteM Tuple) (tuple : Tuple) : Decidable (node.Contains tuple) :=
  inferInstanceAs (Decidable (∃ stem ∈ node.substems.toList, tuple ∈ stem.tuples))

/-- The ring is not empty, and it does not wrap around or the tuple is not there. -/
def Searchable (node : FSteM Tuple) (tuple : Tuple) : Prop :=
  ∃ first last, node.substems.first = some first ∧ node.substems.last = some last ∧
    (first ≤ last ∨ ¬ node.Contains tuple)

variable {schema} {tuple : Tuple} {node : FSteM Tuple} {stems : List (SteM Tuple)}

theorem stemContainsTuple_eq {stem : SteM Tuple} (hashed : stem.Hashed schema) :
    stemContainsTuple schema tuple stem = decide (tuple ∈ stem.tuples) := by
  apply decide_eq_decide.mpr
  simp only [SteM.bucket, SteM.tuples, mem_map, mem_filter, mem_reverse, decide_eq_true_eq]
  constructor
  · rintro ⟨entry, ⟨isEntry, -⟩, same⟩
    exact ⟨entry, isEntry, same⟩
  · rintro ⟨entry, isEntry, rfl⟩
    exact ⟨entry, ⟨isEntry, hashed entry isEntry⟩, rfl⟩

theorem containsFrom_eq (stemno : Int)
    (held : ∀ (k : Nat) stem, stems[k]? = some stem → fsteMSubstemPtr node (stemno + k) = .ok stem)
    (hashed : ∀ stem ∈ stems, stem.Hashed schema) :
    containsFrom schema tuple node stems.length stemno =
      .ok (decide (∃ stem ∈ stems, tuple ∈ stem.tuples)) := by
  induction stems generalizing stemno with
  | nil => simp [containsFrom]
  | cons stem stems ih =>
    have here : fsteMSubstemPtr node stemno = .ok stem := by
      simpa using held 0 stem rfl
    have later := ih (stemno + 1) (by
      intro k other isOther
      rw [add_assoc, add_comm 1 (k : Int)]
      exact_mod_cast held (k + 1) other isOther)
      fun other isOther => hashed other (mem_cons_of_mem _ isOther)
    simp only [length_cons, containsFrom, here, bind, Except.bind, later,
      stemContainsTuple_eq (hashed stem mem_cons_self), exists_mem_cons_iff]
    by_cases found : tuple ∈ stem.tuples <;> simp [found, pure, Except.pure]

theorem fsteMContainsTuple_iff (idle : Idle node stems)
    (hashed : ∀ stem ∈ stems, stem.Hashed schema) :
    fsteMContainsTuple schema tuple node = .ok (decide (node.Contains tuple)) ↔
      Searchable node tuple := by
  have contents : node.substems.toList = stems := idle.views.toList_eq
  have views := idle.views
  simp only [fsteMContainsTuple, idle.noOuter, Bool.false_eq_true, if_false, Searchable]
  cases views with
  | empty noFirst noLast =>
    simp [noFirst, noLast, ssIndex, containsFrom, fsteMSubstemPtr, bind, Except.bind]
  | @occupied stem stems i first last fits held =>
    simp only [first, last, ssIndex, Option.some.injEq, exists_and_left, exists_eq_left']
    by_cases wraps : i.val + stems.length < 3
    · have isLast : (Ring.shift i stems.length).val = i.val + stems.length := Nat.mod_eq_of_lt wraps
      have rounds : (((Ring.shift i stems.length).val : Int) + 1 - i.val).toNat =
          (stem :: stems).length := by
        rw [isLast, length_cons]
        omega
      rw [rounds, containsFrom_eq _ _ hashed]
      · simp only [FSteM.Contains, contents, true_iff]
        exact .inl (Fin.le_def.mpr (by omega))
      · intro k other isOther
        have inside : k < (stem :: stems).length := (List.getElem?_eq_some_iff.mp isOther).1
        rw [List.length_cons] at inside
        have slot : Ring.shift i k = ⟨i.val + k, by omega⟩ := Fin.ext (Nat.mod_eq_of_lt (by omega))
        have isHeld := held k (by omega)
        rw [slot, isOther] at isHeld
        rw [fsteMSubstemPtr, dif_pos (by omega)]
        simp only [← Nat.cast_add, Int.toNat_natCast, isHeld]
    · have isLast : (Ring.shift i stems.length).val = i.val + stems.length - 3 := by
        have := i.isLt
        exact (Nat.mod_eq_sub_mod (by omega)).trans (Nat.mod_eq_of_lt (by omega))
      have rounds : (((Ring.shift i stems.length).val : Int) + 1 - i.val).toNat = 0 := by
        omega
      have below : ¬ i ≤ Ring.shift i stems.length := by
        rw [Fin.le_def]
        omega
      rw [rounds, containsFrom]
      simp [below]

/-- In every state that is reached the search is exact unless the ring is empty, or wraps
around and holds the tuple. -/
theorem tuple_found_iff (calls : List (FSteMCall schema)) (tuple : Tuple) :
    ∃ shown node, (fsteMCallMachine schema).run processInitFSteM calls = (shown, .ok node) ∧
      (fsteMContainsTuple schema tuple node = .ok (decide (node.Contains tuple)) ↔
        Searchable node tuple) := by
  have reached : ∃ shown node,
      (fsteMCallMachine schema).run processInitFSteM calls = (shown, .ok node) ∧
        ∃ stems, Idle node stems ∧ ∀ stem ∈ stems, stem.Sound schema := by
    refine @Machine.run_always _ _ _ _ (fsteMCallMachine schema) (fun _ _ node =>
      ∃ stems, Idle node stems ∧ ∀ stem ∈ stems, stem.Sound schema) ?_ _ ?_ calls
    · rintro - call - node ⟨stems, idle, sound⟩
      cases call with
      | op op =>
        obtain ⟨shown, next, after, stepped, idleNext, moves⟩ := fsteMStep_moves op idle sound
        refine ⟨shown, next, stepped, after, idleNext, ?_⟩
        cases moves with
        | inserted tuple => exact insertStems_sound sound
        | still => exact sound
      | expire tuple =>
        obtain ⟨next, collected, idleNext, -⟩ :=
          @fsteMGCSubstems_spec _ _ schema tuple 3 _ _ idle idle.views.length_le
        refine ⟨[], next, Prod.ext rfl collected, _, idleNext, ?_⟩
        intro stem isLeft
        exact sound stem ((gcStems_suffix schema stems tuple _).mem isLeft)
    · refine ⟨_, processInitFSteM_idle, ?_⟩
      intro stem isNew
      rw [mem_singleton.mp isNew]
      exact newSteM_sound
  obtain ⟨shown, node, ran, stems, idle, sound⟩ := reached
  exact ⟨shown, node, ran, fsteMContainsTuple_iff idle fun stem isStem =>
    (sound stem isStem).hashed⟩

end Membership

/-- The fourth tuple goes to slot 0 while the first sub-SteM in use is that of slot 1; it
is not found.  After all have expired the search looks at slot -1. -/
theorem tuple_missed_after_wrap :
    ((fsteMCallMachine clockSchema).run processInitFSteM
        [.op (.addWindow 2), .op (.insert 0), .op (.insert 1), .op (.insert 2),
          .op (.insert 3)]).2.toOption.map
      (fun node => (decide (node.Contains 3), fsteMContainsTuple clockSchema 3 node)) =
        some (true, .ok false) ∧
    ((fsteMCallMachine clockSchema).run processInitFSteM
        [.op (.addWindow 2), .op (.insert 0), .expire 100]).2.toOption.map
      (fun node => (decide (node.Contains 3), fsteMContainsTuple clockSchema 3 node)) =
        some (false, .error .badIndex) := by
  constructor <;> decide +kernel

end TelegraphCQ.Stems
