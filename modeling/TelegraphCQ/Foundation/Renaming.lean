import Mathlib.Data.List.Nodup

/-!
# Renamings

A renaming gives some indices a new value and leaves the others alone.  Renaming index after
index takes indices that have just been introduced for old ones, so programs rename twice:
first to indices that occur nowhere, then from those to the new ones.  This is the same as
renaming all at once, except at the indices in between.
-/

namespace TelegraphCQ.Foundation

open List

def Renaming (ι : Type) : Type := ι → Option ι

namespace Renaming

variable {ι : Type}

def apply (ρ : Renaming ι) (i : ι) : ι := (ρ i).getD i

def identity : Renaming ι := fun _ => none

def andThen (ρ σ : Renaming ι) : Renaming ι := fun i =>
  match ρ i with
  | some j => some (σ.apply j)
  | none => σ i

@[simp] theorem apply_identity (i : ι) : identity.apply i = i := rfl

variable {ρ σ : Renaming ι} {i j : ι} {pairs : List (ι × ι)}

theorem andThen_of_some (renamed : ρ i = some j) : ρ.andThen σ i = some (σ.apply j) := by
  simp [andThen, renamed]

theorem andThen_of_none (kept : ρ i = none) : ρ.andThen σ i = σ i := by
  simp [andThen, kept]

@[simp] theorem apply_andThen (ρ σ : Renaming ι) (i : ι) :
    (ρ.andThen σ).apply i = σ.apply (ρ.apply i) := by
  cases renamed : ρ i with
  | none => simp [apply, andThen_of_none renamed, renamed]
  | some j => simp [apply, andThen_of_some renamed, renamed]

theorem apply_of_some (renamed : ρ i = some j) : ρ.apply i = j := by
  simp [apply, renamed]

theorem apply_of_none (kept : ρ i = none) : ρ.apply i = i := by
  simp [apply, kept]

def Extends (ρ σ : Renaming ι) : Prop :=
  ∀ i, ρ i ≠ σ i → σ i = none ∧ ρ.apply i ≠ i

theorem Extends.apply_eq_iff (extend : ρ.Extends σ) (i : ι) :
    ρ.apply i = σ.apply i ↔ ρ i = σ i := by
  constructor
  · intro same
    by_contra differ
    obtain ⟨kept, moved⟩ := extend i differ
    rw [apply_of_none kept] at same
    exact moved same
  · intro same
    simp [apply, same]

variable [DecidableEq ι]

def single (old new : ι) : Renaming ι := fun i => if i = old then some new else none

def simultaneous (pairs : List (ι × ι)) : Renaming ι := fun i =>
  (pairs.find? fun pair => pair.1 = i).map Prod.snd

def oneByOne : List (ι × ι) → Renaming ι
  | [] => identity
  | pair :: pairs => (single pair.1 pair.2).andThen (oneByOne pairs)

@[simp] theorem apply_single (old new i : ι) :
    (single old new).apply i = if i = old then new else i := by
  unfold apply single
  split_ifs <;> rfl

theorem simultaneous_eq_none : simultaneous pairs i = none ↔ ∀ pair ∈ pairs, pair.1 ≠ i := by
  simp [simultaneous]

theorem oneByOne_eq (apart : ∀ pair ∈ pairs, ∀ other ∈ pairs, other.1 ≠ pair.2) :
    oneByOne pairs = simultaneous pairs := by
  induction pairs with
  | nil => rfl
  | cons pair pairs ih =>
    have rest : oneByOne pairs = simultaneous pairs :=
      ih fun p inside q other => apart p (.tail _ inside) q (.tail _ other)
    funext i
    by_cases this : pair.1 = i
    · have renamed : single pair.1 pair.2 i = some pair.2 := if_pos this.symm
      have stays : simultaneous pairs pair.2 = none :=
        simultaneous_eq_none.mpr fun q other => apart pair (.head _) q (.tail _ other)
      rw [oneByOne, andThen_of_some renamed, rest, apply_of_none stays]
      simp [simultaneous, this]
    · have kept : single pair.1 pair.2 i = none := if_neg (Ne.symm this)
      rw [oneByOne, andThen_of_none kept, rest]
      simp [simultaneous, this]

/-- An index, the one it is kept under in between, and the one it gets. -/
structure Move (ι : Type) where
  old : ι
  via : ι
  new : ι
  deriving DecidableEq, Repr

def outward (moves : List (Move ι)) : List (ι × ι) := moves.map fun move => (move.old, move.via)

def homeward (moves : List (Move ι)) : List (ι × ι) := moves.map fun move => (move.via, move.new)

def direct (moves : List (Move ι)) : List (ι × ι) := moves.map fun move => (move.old, move.new)

/-- What the moves have in between is different for each, and neither old nor new. -/
structure Apart (moves : List (Move ι)) : Prop where
  nodup : (moves.map Move.via).Nodup
  old : ∀ move ∈ moves, move.old ∉ moves.map Move.via
  new : ∀ move ∈ moves, move.new ∉ moves.map Move.via

def twoPhase (moves : List (Move ι)) : Renaming ι :=
  (oneByOne (outward moves)).andThen (oneByOne (homeward moves))

section Moves

variable {moves : List (Move ι)}

theorem simultaneous_map (value : Move ι → ι) (i : ι) :
    simultaneous (moves.map fun move => (move.old, value move)) i =
      (moves.find? fun move => move.old = i).map value := by
  unfold simultaneous
  rw [find?_map, Option.map_map]
  rfl

variable {move : Move ι} {i : ι}

theorem simultaneous_homeward (nodup : (moves.map Move.via).Nodup) (inside : move ∈ moves) :
    simultaneous (homeward moves) move.via = some move.new := by
  induction moves with
  | nil => cases inside
  | cons first moves ih =>
    rw [map_cons, nodup_cons] at nodup
    rcases mem_cons.mp inside with rfl | later
    · simp [simultaneous, homeward]
    · have other : first.via ≠ move.via := fun same =>
        nodup.1 (same ▸ mem_map_of_mem later)
      have rest := ih nodup.2 later
      unfold simultaneous homeward at rest ⊢
      rw [map_cons, find?_cons_of_neg (by simpa using other)]
      exact rest

section

variable (apart : Apart moves)
include apart

theorem Apart.outward_eq : oneByOne (outward moves) = simultaneous (outward moves) := by
  refine oneByOne_eq ?_
  intro pair inside other among same
  obtain ⟨move, there, rfl⟩ := mem_map.mp inside
  obtain ⟨source, here, rfl⟩ := mem_map.mp among
  have met : source.old = move.via := same
  exact apart.old source here (met ▸ mem_map_of_mem there)

theorem Apart.homeward_eq : oneByOne (homeward moves) = simultaneous (homeward moves) := by
  refine oneByOne_eq ?_
  intro pair inside other among same
  obtain ⟨move, there, rfl⟩ := mem_map.mp inside
  obtain ⟨target, here, rfl⟩ := mem_map.mp among
  have met : target.via = move.new := same
  exact apart.new move there (met ▸ mem_map_of_mem here)

theorem Apart.direct_via (between : i ∈ moves.map Move.via) :
    simultaneous (direct moves) i = none := by
  refine simultaneous_eq_none.mpr ?_
  intro pair inside same
  obtain ⟨move, there, rfl⟩ := mem_map.mp inside
  have met : move.old = i := same
  exact apart.old move there (met ▸ between)

theorem Apart.twoPhase_eq (elsewhere : i ∉ moves.map Move.via) :
    twoPhase moves i = simultaneous (direct moves) i := by
  have outward : simultaneous (outward moves) i =
      (moves.find? fun move => move.old = i).map Move.via := simultaneous_map Move.via i
  have direct : simultaneous (direct moves) i =
      (moves.find? fun move => move.old = i).map Move.new := simultaneous_map Move.new i
  unfold twoPhase
  rw [apart.outward_eq, apart.homeward_eq, direct]
  cases found : moves.find? fun move => move.old = i with
  | none =>
    rw [found] at outward
    rw [andThen_of_none outward]
    refine simultaneous_eq_none.mpr ?_
    intro pair inside same
    obtain ⟨move, there, rfl⟩ := mem_map.mp inside
    exact elsewhere (same ▸ mem_map_of_mem there)
  | some move =>
    rw [found] at outward
    have inside : move ∈ moves := mem_of_find?_eq_some found
    rw [andThen_of_some outward, apply_of_some (simultaneous_homeward apart.nodup inside)]
    rfl

theorem Apart.twoPhase_via (inside : move ∈ moves) : twoPhase moves move.via = some move.new := by
  have kept : simultaneous (outward moves) move.via = none := by
    refine simultaneous_eq_none.mpr ?_
    intro pair among same
    obtain ⟨other, there, rfl⟩ := mem_map.mp among
    have met : other.old = move.via := same
    exact apart.old other there (met ▸ mem_map_of_mem inside)
  unfold twoPhase
  rw [apart.outward_eq, apart.homeward_eq, andThen_of_none kept,
    simultaneous_homeward apart.nodup inside]

theorem Apart.twoPhase_eq_iff (i : ι) :
    twoPhase moves i = simultaneous (direct moves) i ↔ i ∉ moves.map Move.via := by
  refine ⟨?_, apart.twoPhase_eq⟩
  intro same between
  obtain ⟨move, inside, rfl⟩ := mem_map.mp between
  rw [apart.twoPhase_via inside, apart.direct_via between] at same
  cases same

theorem Apart.twoPhase_extends : (twoPhase moves).Extends (simultaneous (direct moves)) := by
  intro i differ
  have between : i ∈ moves.map Move.via := by
    by_contra elsewhere
    exact differ (apart.twoPhase_eq elsewhere)
  refine ⟨apart.direct_via between, ?_⟩
  obtain ⟨move, inside, rfl⟩ := mem_map.mp between
  rw [apply_of_some (apart.twoPhase_via inside)]
  intro same
  exact apart.new move inside (same ▸ between)

end

end Moves

end Renaming

/-! ## What is renamed -/

/-- Data with indices in it.  `reads` are those that decide what becomes of it. -/
class Renamable (ι : outParam Type) (α : Type) where
  rename : Renaming ι → α → α
  reads : Renaming ι → α → List ι
  rename_identity : ∀ a, rename .identity a = a
  rename_andThen : ∀ ρ σ a, rename (ρ.andThen σ) a = rename σ (rename ρ a)
  rename_eq_iff : ∀ {ρ σ : Renaming ι}, ρ.Extends σ → ∀ a,
    rename ρ a = rename σ a ↔ ∀ i ∈ reads σ a, ρ i = σ i

namespace Renamable

variable {ι α : Type}

instance index (ι : Type) : Renamable ι ι where
  rename ρ i := ρ.apply i
  reads _ i := [i]
  rename_identity i := rfl
  rename_andThen ρ σ i := Renaming.apply_andThen ρ σ i
  rename_eq_iff extend i := by
    rw [extend.apply_eq_iff, forall_mem_singleton]

variable [Renamable ι α]

instance list : Renamable ι (List α) where
  rename ρ as := as.map (rename ρ)
  reads σ as := as.flatMap (reads σ)
  rename_identity as := by
    rw [funext rename_identity]
    exact as.map_id'
  rename_andThen ρ σ as := by
    rw [funext (rename_andThen ρ σ), map_map]
    rfl
  rename_eq_iff extend as := by
    rw [map_inj_left, forall_mem_flatMap]
    exact forall₂_congr fun a _ => rename_eq_iff extend a

instance option : Renamable ι (Option α) where
  rename ρ a := a.map (rename ρ)
  reads σ a := a.elim [] (reads σ)
  rename_identity a := by
    rw [funext rename_identity]
    exact Option.map_id'
  rename_andThen ρ σ a := by
    rw [funext (rename_andThen ρ σ), Option.map_map]
    rfl
  rename_eq_iff extend a := by
    cases a with
    | none => simp
    | some a => simpa using rename_eq_iff extend a

theorem foldl_rename [DecidableEq ι] (pairs : List (ι × ι)) (a : α) :
    pairs.foldl (fun a pair => rename (.single pair.1 pair.2) a) a =
      rename (.oneByOne pairs) a := by
  induction pairs generalizing a with
  | nil => exact (rename_identity a).symm
  | cons pair pairs ih =>
    rw [foldl_cons, ih]
    exact (rename_andThen _ _ a).symm

end Renamable

end TelegraphCQ.Foundation
