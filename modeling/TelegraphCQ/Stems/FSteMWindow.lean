import Mathlib.Data.List.TakeWhile
import TelegraphCQ.Stems.FSteMCorrect

/-!
# What a windowed state module keeps

Expiry looks at the newest tuple of a sub-SteM and admission at the oldest.  A sub-SteM
is dropped only when all its tuples have left the window; and when the window does not
change, two sub-SteMs start at least half a window apart, so that the first of three has
expired by the time the third is full.
-/

namespace TelegraphCQ.Stems

open Foundation List

variable {Tuple Key : Type} {schema : Schema Tuple Key}

/-! ## One insertion -/

structure SteM.Sound (schema : Schema Tuple Key) (stem : SteM Tuple) : Prop where
  hashed : stem.Hashed schema
  oldest : stem.oldest = stem.tuples.head?
  newest : stem.newest = stem.tuples.getLast?

theorem newSteM_sound : (newSteM : SteM Tuple).Sound schema :=
  ⟨fun _ member => absurd member (by simp [newSteM]), rfl, rfl⟩

@[simp] theorem tuples_newSteM : (newSteM : SteM Tuple).tuples = [] := rfl

@[simp] theorem tuples_execSteMInsert (tuple : Tuple) (stem : SteM Tuple) :
    (execSteMInsert schema tuple stem).tuples = stem.tuples ++ [tuple] := by
  simp [SteM.tuples, execSteMInsert]

theorem SteM.Sound.insert {stem : SteM Tuple} (sound : stem.Sound schema)
    (tuple : Tuple) : (execSteMInsert schema tuple stem).Sound schema := by
  refine ⟨?_, ?_, ?_⟩
  · intro entry member
    cases mem_cons.mp member with
    | inl new => rw [new]
    | inr old => exact sound.hashed entry old
  · rw [tuples_execSteMInsert, head?_append, ← sound.oldest]
    rfl
  · rw [tuples_execSteMInsert, getLast?_append]
    rfl

@[simp] theorem tuplesOf_append (stems others : List (SteM Tuple)) :
    tuplesOf (stems ++ others) = tuplesOf stems ++ tuplesOf others := flatMap_append

@[simp] theorem tuplesOf_singleton (stem : SteM Tuple) : tuplesOf [stem] = stem.tuples := by
  simp [tuplesOf]

variable {stems rest after : List (SteM Tuple)} {tuple newest : Tuple} {stem : SteM Tuple} {w : ℚ}
  {node : FSteM Tuple} {window : Option ℚ} {ops before : List (FSteMOp schema)}
  {shown more shownBefore : List (FSteMOut Tuple)} {op : FSteMOp schema}

theorem mem_tuplesOf : tuple ∈ tuplesOf stems ↔ ∃ stem ∈ stems, tuple ∈ stem.tuples := mem_flatMap

theorem gcStems_head {size : ℚ} (left : gcStems schema (some size) tuple stems = stem :: rest)
    (last : stem.newest = some newest) :
    schema.timestamp tuple - schema.timestamp newest ≤ size := by
  have head := head?_dropWhile_not (fsteMSubSteMHasExpired schema size tuple) stems
  have shown : stems.dropWhile (fsteMSubSteMHasExpired schema size tuple) = stem :: rest := left
  rw [shown] at head
  simpa [fsteMSubSteMHasExpired, last] using head

section Insertion

variable (schema stems tuple window)

theorem gcStems_split : ∃ expired, stems = expired ++ gcStems schema window tuple stems ∧
      ∀ stem ∈ expired, ∃ size newest, window = some size ∧ stem.newest = some newest ∧
        size < schema.timestamp tuple - schema.timestamp newest := by
  cases window with
  | none => exact ⟨[], rfl, by simp⟩
  | some size =>
    refine ⟨stems.takeWhile (fsteMSubSteMHasExpired schema size tuple),
      (takeWhile_append_dropWhile).symm, ?_⟩
    intro stem member
    have expired := mem_takeWhile_imp member
    unfold fsteMSubSteMHasExpired at expired
    cases newest : stem.newest with
    | none => simp [newest] at expired
    | some last => exact ⟨size, last, rfl, rfl, by simpa [newest] using expired⟩

theorem gcStems_suffix : gcStems schema window tuple stems <:+ stems := by
  obtain ⟨expired, split, -⟩ := gcStems_split schema stems tuple window
  exact ⟨expired, split.symm⟩

theorem insertStems_cases (left : gcStems schema window tuple stems = rest) :
    (insertStems schema window tuple stems = rest ++ [execSteMInsert schema tuple newSteM] ∧
      acceptedBy schema window tuple stems = true ∧ ∀ last, rest.getLast? = some last →
        fsteMTupleFitsInSubSteM schema window tuple last = false) ∨
    (∃ front last, rest = front ++ [last] ∧ insertStems schema window tuple stems =
        front ++ [execSteMInsert schema tuple last] ∧ acceptedBy schema window tuple stems =
        fsteMTupleFitsInSubSteM schema window tuple last ∧
      (fsteMTupleFitsInSubSteM schema window tuple last = false → 3 ≤ rest.length)) := by
  have fresh : fsteMTupleFitsInSubSteM schema window tuple newSteM = true := by
    cases window <;> rfl
  have stored : ∀ front stem, storeInLast schema tuple (front ++ [stem]) =
      front ++ [execSteMInsert schema tuple stem] := by
    intro front stem
    simp [storeInLast]
  unfold insertStems acceptedBy
  rw [left]
  cases rest using List.reverseRecOn with
  | nil =>
    apply Or.inl
    simp [spaceStems, storeInLast, fresh]
  | append_singleton front last =>
    simp only [spaceStems, getLast?_concat]
    split_ifs with fits room
    · exact .inr ⟨front, last, rfl, stored front last, by simp,
        fun unfit => absurd (fits.symm.trans unfit) (by simp)⟩
    · exact .inl ⟨stored _ newSteM, by simp [fresh], by simpa using fits⟩
    · exact .inr ⟨front, last, rfl, stored front last, by simp, fun _ => Nat.le_of_not_lt room⟩

theorem tuplesOf_insertStems : tuplesOf (insertStems schema window tuple stems) =
      tuplesOf (gcStems schema window tuple stems) ++ [tuple] := by
  cases insertStems_cases schema stems tuple window rfl with
  | inl started =>
    rw [started.1]
    simp
  | inr joined =>
    obtain ⟨front, last, left, result, -⟩ := joined
    rw [result, left]
    simp

end Insertion

/-! ## Retention -/

def FSteMOut.insertion? : FSteMOut Tuple → Option (Tuple × Option ℚ)
  | .inserted tuple window _ => some (tuple, window)
  | .probed _ => none

def insertions (shown : List (FSteMOut Tuple)) : List (Tuple × Option ℚ) :=
  shown.filterMap FSteMOut.insertion?

/-- A later insertion found tuple `i` to be older than the window in force. -/
def Overdue (schema : Schema Tuple Key) (history : List (Tuple × Option ℚ)) (i : Nat) :
    Prop :=
  ∃ j old new size, i < j ∧ history[i]? = some old ∧ history[j]? = some (new, some size) ∧
    size < schema.timestamp new - schema.timestamp old.1

def Retains (schema : Schema Tuple Key) (history : List (Tuple × Option ℚ))
    (retained : List Tuple) : Prop :=
  ∃ dropped kept, history = dropped ++ kept ∧ retained = kept.map Prod.fst ∧
    ∀ i < dropped.length, Overdue schema history i

def Ascending (schema : Schema Tuple Key) (tuples : List Tuple) : Prop :=
  tuples.Pairwise fun a b => schema.timestamp a ≤ schema.timestamp b

theorem Overdue.append {history : List (Tuple × Option ℚ)} {i : Nat}
    (overdue : Overdue schema history i) (more : List (Tuple × Option ℚ)) :
    Overdue schema (history ++ more) i := by
  obtain ⟨j, old, new, size, later, atOld, atNew, exceeded⟩ := overdue
  refine ⟨j, old, new, size, later, ?_, ?_, exceeded⟩
  · rw [List.getElem?_append_left (List.getElem?_eq_some_iff.mp atOld).1, atOld]
  · rw [List.getElem?_append_left (List.getElem?_eq_some_iff.mp atNew).1, atNew]

theorem SteM.Sound.le_newest (sound : stem.Sound schema) (ascending : Ascending schema stem.tuples)
    (last : stem.newest = some newest) (member : tuple ∈ stem.tuples) :
    schema.timestamp tuple ≤ schema.timestamp newest := by
  rw [sound.newest] at last
  obtain ⟨front, split⟩ := getLast?_eq_some_iff.mp last
  rw [split] at member
  unfold Ascending at ascending
  rw [split, pairwise_append] at ascending
  cases mem_append.mp member with
  | inl earlier => exact ascending.2.2 tuple earlier newest (by simp)
  | inr itself => rw [mem_singleton.mp itself]

theorem ascending_stem (ascending : Ascending schema (tuplesOf stems)) (member : stem ∈ stems) :
    Ascending schema stem.tuples := by
  obtain ⟨front, back, split⟩ := append_of_mem member
  rw [split, tuplesOf, flatMap_append, flatMap_cons] at ascending
  exact (pairwise_append.mp (pairwise_append.mp ascending).2.1).1

theorem Retains.insert {history : List (Tuple × Option ℚ)} {window : Option ℚ}
    {tuple : Tuple} {stems : List (SteM Tuple)} (retains : Retains schema history (tuplesOf stems))
    (sound : ∀ stem ∈ stems, stem.Sound schema) (ascending : Ascending schema (tuplesOf stems)) :
    Retains schema (history ++ [(tuple, window)])
      (tuplesOf (insertStems schema window tuple stems)) := by
  obtain ⟨dropped, kept, split, held, overdue⟩ := retains
  obtain ⟨expired, stemsSplit, outdated⟩ := gcStems_split schema stems tuple window
  rw [stemsSplit, tuplesOf_append] at held
  obtain ⟨gone, stay, keptSplit, goneTuples, stayTuples⟩ := map_eq_append_iff.mp held.symm
  refine ⟨dropped ++ gone, stay ++ [(tuple, window)], ?_, ?_, ?_⟩
  · simp [split, keptSplit]
  · simp [tuplesOf_insertStems, stayTuples]
  · intro i small
    by_cases before : i < dropped.length
    · exact (overdue i before).append _
    · -- tuple `i` goes with its sub-SteM, whose newest tuple has left the window
      have inGone : i - dropped.length < gone.length := by
        rw [length_append] at small
        omega
      have atOld : history[i]? = some (gone.get ⟨i - dropped.length, inGone⟩) := by
        rw [split, getElem?_append_right (by omega), keptSplit, getElem?_append_left inGone]
        simp
      have member : (gone.get ⟨i - dropped.length, inGone⟩).1 ∈ tuplesOf expired := by
        rw [← goneTuples]
        exact mem_map_of_mem (get_mem _ _)
      obtain ⟨stem, stemMember, tupleMember⟩ := mem_tuplesOf.mp member
      obtain ⟨size, newest, inForce, last, exceeded⟩ := outdated stem stemMember
      have stemHeld : stem ∈ stems := by
        rw [stemsSplit]
        exact mem_append_left _ stemMember
      have older := (sound stem stemHeld).le_newest (ascending_stem ascending stemHeld)
        last tupleMember
      have bound := (List.getElem?_eq_some_iff.mp atOld).1
      refine ⟨history.length, gone.get ⟨i - dropped.length, inGone⟩, tuple, size, bound, ?_, ?_, ?_⟩
      · rw [getElem?_append_left bound, atOld]
      · rw [getElem?_append_right (le_refl _), inForce]
        simp
      · linarith

/-! ## A window that does not change -/

def HalfApart (schema : Schema Tuple Key) (w : ℚ) (a b : SteM Tuple) : Prop :=
  ∃ first second, a.oldest = some first ∧ b.oldest = some second ∧
    w / 2 ≤ schema.timestamp second - schema.timestamp first

structure Spaced (schema : Schema Tuple Key) (w : ℚ) (stems : List (SteM Tuple)) :
    Prop where
  apart : stems.Pairwise (HalfApart schema w)
  span : ∀ stem ∈ stems, ∀ first, stem.oldest = some first → ∀ tuple ∈ stem.tuples,
    schema.timestamp tuple - schema.timestamp first < w / 2

theorem Spaced.suffix {left : List (SteM Tuple)} (spaced : Spaced schema w stems)
    (suffix : left <:+ stems) : Spaced schema w left :=
  ⟨spaced.apart.sublist suffix.sublist, fun stem member => spaced.span stem (suffix.mem member)⟩

theorem fits_eq_false (unfit : fsteMTupleFitsInSubSteM schema (some w) tuple stem = false) :
    ∃ first, stem.oldest = some first ∧
      w / 2 ≤ schema.timestamp tuple - schema.timestamp first := by
  unfold fsteMTupleFitsInSubSteM at unfit
  cases oldest : stem.oldest with
  | none => simp [oldest] at unfit
  | some first => exact ⟨first, rfl, by simpa [oldest] using unfit⟩

section Spacing

variable {front : List (SteM Tuple)} {last : SteM Tuple}

/-- With three sub-SteMs left the last one accepts the tuple: otherwise the newest tuple
of the first would be more than a window old. -/
theorem Spaced.accepts (spaced : Spaced schema w (front ++ [last]))
    (sound : ∀ stem ∈ front ++ [last], stem.Sound schema)
    (left : gcStems schema (some w) tuple stems = front ++ [last])
    (full : 3 ≤ (front ++ [last]).length) :
    fsteMTupleFitsInSubSteM schema (some w) tuple last = true := by
  by_contra unfit
  obtain ⟨third, thirdOldest, thirdAge⟩ := fits_eq_false (Bool.eq_false_of_not_eq_true unfit)
  match front, full with
  | a :: b :: others, _ =>
    have apart := spaced.apart
    simp only [cons_append, pairwise_cons] at apart
    obtain ⟨first, second, firstOldest, secondOldest, firstGap⟩ := apart.1 b (by simp)
    obtain ⟨second', third', secondOldest', thirdOldest', secondGap⟩ := apart.2.1 last (by simp)
    rw [secondOldest, Option.some.injEq] at secondOldest'
    rw [thirdOldest, Option.some.injEq] at thirdOldest'
    subst secondOldest' thirdOldest'
    have soundFirst := sound a (by simp)
    cases newest : a.newest with
    | none =>
      rw [soundFirst.newest, getLast?_eq_none_iff] at newest
      rw [soundFirst.oldest, newest] at firstOldest
      simp at firstOldest
    | some latest =>
      have recent := gcStems_head left newest
      rw [soundFirst.newest] at newest
      have short := spaced.span a (by simp) first firstOldest latest
        (mem_of_getLast? newest)
      linarith

theorem Spaced.concat (spaced : Spaced schema w front)
    (apart : ∀ stem ∈ front, HalfApart schema w stem last)
    (span : ∀ first, last.oldest = some first → ∀ tuple ∈ last.tuples,
      schema.timestamp tuple - schema.timestamp first < w / 2) :
    Spaced schema w (front ++ [last]) where
  apart := pairwise_append.mpr ⟨spaced.apart, pairwise_singleton _ _, fun stem member _ isLast =>
    mem_singleton.mp isLast ▸ apart stem member⟩
  span := forall_mem_append.mpr ⟨spaced.span, forall_mem_singleton.mpr span⟩

theorem Spaced.start (positive : 0 < w) (spaced : Spaced schema w stems)
    (full : ∀ last, stems.getLast? = some last →
      fsteMTupleFitsInSubSteM schema (some w) tuple last = false) :
    Spaced schema w (stems ++ [execSteMInsert schema tuple newSteM]) := by
  refine spaced.concat (fun stem member => ?_) ?_
  · cases stems using List.reverseRecOn with
    | nil => simp at member
    | append_singleton front last =>
      obtain ⟨second, oldest, aged⟩ := fits_eq_false (full last (by simp))
      cases mem_append.mp member with
      | inl earlier =>
        obtain ⟨first, second', firstOldest, secondOldest, gap⟩ :=
          (pairwise_append.mp spaced.apart).2.2 stem earlier last (by simp)
        rw [oldest, Option.some.injEq] at secondOldest
        subst secondOldest
        exact ⟨first, tuple, firstOldest, rfl, by linarith⟩
      | inr itself =>
        rw [mem_singleton.mp itself]
        exact ⟨second, tuple, oldest, rfl, aged⟩
  · intro first oldest t held
    have same : tuple = first := by
      simpa [execSteMInsert, newSteM] using oldest
    have only : t = tuple := by simpa using held
    rw [only, same]
    linarith

theorem Spaced.join (positive : 0 < w) (spaced : Spaced schema w (front ++ [last]))
    (sound : last.Sound schema) (fits : fsteMTupleFitsInSubSteM schema (some w) tuple last = true) :
    Spaced schema w (front ++ [execSteMInsert schema tuple last]) := by
  obtain ⟨frontApart, -, lastApart⟩ := pairwise_append.mp spaced.apart
  obtain ⟨frontSpan, lastSpan⟩ := forall_mem_append.mp spaced.span
  refine Spaced.concat ⟨frontApart, frontSpan⟩ (fun stem member => ?_) ?_
  · obtain ⟨first, second, firstOldest, secondOldest, gap⟩ := lastApart stem member last (by simp)
    exact ⟨first, second, firstOldest, by simp [execSteMInsert, secondOldest], gap⟩
  · intro first oldest t held
    rw [tuples_execSteMInsert] at held
    cases old : last.oldest with
    | none =>
      have empty : last.tuples = [] := by
        rw [sound.oldest, head?_eq_none_iff] at old
        exact old
      have same : tuple = first := by simpa [execSteMInsert, old] using oldest
      have only : t = tuple := by simpa [empty] using held
      rw [only, same]
      linarith
    | some first' =>
      have same : first' = first := by simpa [execSteMInsert, old] using oldest
      subst same
      cases mem_append.mp held with
      | inl before => exact lastSpan last (by simp) first' old t before
      | inr itself =>
        rw [mem_singleton.mp itself]
        simpa [fsteMTupleFitsInSubSteM, old] using fits

theorem Spaced.insert (positive : 0 < w) (spaced : Spaced schema w stems)
    (sound : ∀ stem ∈ stems, stem.Sound schema) :
    Spaced schema w (insertStems schema (some w) tuple stems) ∧
      acceptedBy schema (some w) tuple stems = true := by
  have suffix := gcStems_suffix schema stems tuple (some w)
  have soundLeft : ∀ stem ∈ gcStems schema (some w) tuple stems, stem.Sound schema :=
    fun stem member => sound stem (suffix.mem member)
  have spacedLeft := spaced.suffix suffix
  cases insertStems_cases schema stems tuple (some w) rfl with
  | inl started =>
    rw [started.1]
    exact ⟨spacedLeft.start positive started.2.2, started.2.1⟩
  | inr joined =>
    obtain ⟨front, last, left, result, accepted, full⟩ := joined
    rw [left] at spacedLeft soundLeft full
    have fits : fsteMTupleFitsInSubSteM schema (some w) tuple last = true := by
      by_contra unfit
      exact unfit (spacedLeft.accepts soundLeft left
        (full (Bool.eq_false_of_not_eq_true unfit)))
    rw [result, accepted]
    exact ⟨spacedLeft.join positive (soundLeft last (by simp)) fits, fits⟩

theorem Spaced.age_le (positive : 0 < w) (spaced : Spaced schema w stems)
    (sound : ∀ stem ∈ stems, stem.Sound schema)
    (ascending : Ascending schema (tuplesOf stems)) {held : Tuple}
    (member : held ∈ tuplesOf (insertStems schema (some w) tuple stems)) :
    schema.timestamp tuple - schema.timestamp held ≤ 3 / 2 * w := by
  rw [tuplesOf_insertStems] at member
  cases mem_append.mp member with
  | inr itself =>
    rw [mem_singleton.mp itself]
    linarith
  | inl older =>
    have suffix := gcStems_suffix schema stems tuple (some w)
    cases left : gcStems schema (some w) tuple stems with
    | nil => simp [left, tuplesOf] at older
    | cons stem rest =>
      rw [left] at older suffix
      have soundFirst := sound stem (suffix.mem (by simp))
      have spacedLeft := spaced.suffix suffix
      have order : Ascending schema (tuplesOf (stem :: rest)) := by
        obtain ⟨expired, split⟩ := suffix
        rw [← split, tuplesOf_append] at ascending
        exact (pairwise_append.mp ascending).2.1
      cases tuples : stem.tuples with
      | nil =>
        rw [tuplesOf, flatMap_cons, tuples, nil_append] at older
        obtain ⟨other, isOther, -⟩ := mem_tuplesOf.mp older
        obtain ⟨first, -, oldest, -⟩ := (pairwise_cons.mp spacedLeft.apart).1 other isOther
        rw [soundFirst.oldest, tuples] at oldest
        simp at oldest
      | cons first more =>
        have oldest : stem.oldest = some first := by rw [soundFirst.oldest, tuples]; rfl
        obtain ⟨latest, newest⟩ : ∃ latest, stem.tuples.getLast? = some latest :=
          ⟨_, getLast?_eq_some_getLast (by simp [tuples])⟩
        have recent := gcStems_head left (soundFirst.newest.trans newest)
        have short := spacedLeft.span stem (by simp) first oldest latest
          (mem_of_getLast? newest)
        have least : schema.timestamp first ≤ schema.timestamp held := by
          simp only [tuplesOf, flatMap_cons, tuples, cons_append] at older order
          cases mem_cons.mp older with
          | inl itself => rw [itself]
          | inr later => exact (pairwise_cons.mp order).1 held later
        linarith

end Spacing

/-! ## Runs -/

def FSteMOp.inserted? : FSteMOp schema → Option Tuple
  | .insert tuple => some tuple
  | _ => none

def arrivals (ops : List (FSteMOp schema)) : List Tuple := ops.filterMap FSteMOp.inserted?

inductive Moves (schema : Schema Tuple Key) (window : Option ℚ) (stems : List (SteM Tuple)) :
    FSteMOp schema → List (FSteMOut Tuple) → List (SteM Tuple) → Prop
  | inserted (tuple : Tuple) :
      Moves schema window stems (.insert tuple)
        [.inserted tuple window (acceptedBy schema window tuple stems)]
        (insertStems schema window tuple stems)
  | still {op : FSteMOp schema} {shown : List (FSteMOut Tuple)} (noTuple : arrivals [op] = [])
      (quiet : insertions shown = []) : Moves schema window stems op shown stems

theorem fsteMStep_moves (op : FSteMOp schema) (idle : Idle node stems)
    (sound : ∀ stem ∈ stems, stem.Sound schema) :
    ∃ shown next after, fsteMStep schema node op = (shown, .ok next) ∧
      Idle next after ∧ Moves schema node.window stems op shown after := by
  unfold fsteMStep
  cases op with
  | insert tuple =>
    obtain ⟨next, ran, idleNext⟩ := @fsteMInsert_spec _ _ schema tuple _ _ idle
    simp only [ran]
    exact ⟨_, next, _, rfl, idleNext, .inserted tuple⟩
  | probe probe =>
    obtain ⟨results, next, ran, -, idleNext⟩ :=
      fsteMProbe_spec probe idle fun stem member => (sound stem member).hashed
    simp only [ran]
    exact ⟨_, next, stems, rfl, idleNext, .still rfl rfl⟩
  | addWindow | clearWindow =>
    exact ⟨_, _, stems, rfl, ⟨idle.views, idle.noProbe, idle.noOuter, idle.waiting⟩, .still rfl rfl⟩

structure Keeps (schema : Schema Tuple Key) (ops : List (FSteMOp schema))
    (shown : List (FSteMOut Tuple)) (stems : List (SteM Tuple)) : Prop where
  logged : (insertions shown).map Prod.fst = arrivals ops
  sound : ∀ stem ∈ stems, stem.Sound schema
  populated : 2 ≤ stems.length → ∀ stem ∈ stems, stem.tuples ≠ []
  retains : Retains schema (insertions shown) (tuplesOf stems)

theorem insertStems_sound (sound : ∀ stem ∈ stems, stem.Sound schema) :
    ∀ stem ∈ insertStems schema window tuple stems, stem.Sound schema := by
  have soundLeft : ∀ stem ∈ gcStems schema window tuple stems, stem.Sound schema :=
    fun stem member => sound stem ((gcStems_suffix schema stems tuple window).mem member)
  cases insertStems_cases schema stems tuple window rfl with
  | inl started =>
    rw [started.1, forall_mem_append, forall_mem_singleton]
    exact ⟨soundLeft, newSteM_sound.insert tuple⟩
  | inr joined =>
    obtain ⟨front, last, left, result, -⟩ := joined
    rw [left, forall_mem_append, forall_mem_singleton] at soundLeft
    rw [result, forall_mem_append, forall_mem_singleton]
    exact ⟨soundLeft.1, soundLeft.2.insert tuple⟩

theorem unfit_nonempty (sound : stem.Sound schema)
    (unfit : fsteMTupleFitsInSubSteM schema window tuple stem = false) : stem.tuples ≠ [] := by
  intro empty
  unfold fsteMTupleFitsInSubSteM at unfit
  rw [sound.oldest, empty] at unfit
  cases window <;> simp at unfit

theorem insertStems_populated (sound : ∀ stem ∈ stems, stem.Sound schema)
    (populated : 2 ≤ stems.length → ∀ stem ∈ stems, stem.tuples ≠ []) :
    2 ≤ (insertStems schema window tuple stems).length →
      ∀ stem ∈ insertStems schema window tuple stems, stem.tuples ≠ [] := by
  have suffix := gcStems_suffix schema stems tuple window
  have populatedLeft : 2 ≤ (gcStems schema window tuple stems).length →
      ∀ stem ∈ gcStems schema window tuple stems, stem.tuples ≠ [] :=
    fun several stem member =>
      populated (several.trans suffix.length_le) stem (suffix.mem member)
  cases insertStems_cases schema stems tuple window rfl with
  | inl started =>
    rw [started.1, forall_mem_append, forall_mem_singleton]
    refine fun _ => ⟨fun stem old => ?_, by simp⟩
    by_cases more : 2 ≤ (gcStems schema window tuple stems).length
    · exact populatedLeft more stem old
    · have one : (gcStems schema window tuple stems).length = 1 := by
        have := length_pos_of_mem old
        omega
      obtain ⟨only, isOnly⟩ := length_eq_one_iff.mp one
      have same : stem = only := by simpa [isOnly] using old
      exact unfit_nonempty (sound stem (suffix.mem old))
        (started.2.2 stem (by simp [isOnly, same]))
  | inr joined =>
    obtain ⟨front, last, left, result, -⟩ := joined
    rw [left, length_append, forall_mem_append] at populatedLeft
    rw [result, length_append, forall_mem_append, forall_mem_singleton]
    exact fun several => ⟨(populatedLeft several).1, by simp⟩

theorem insertions_append (shown more : List (FSteMOut Tuple)) :
    insertions (shown ++ more) = insertions shown ++ insertions more := filterMap_append

theorem arrivals_append (ops more : List (FSteMOp schema)) :
    arrivals (ops ++ more) = arrivals ops ++ arrivals more := filterMap_append

theorem Keeps.ascending (keeps : Keeps schema ops shown stems)
    (inOrder : Ascending schema (arrivals ops)) : Ascending schema (tuplesOf stems) := by
  obtain ⟨dropped, kept, split, held, -⟩ := keeps.retains
  rw [← keeps.logged, split, map_append] at inOrder
  rw [held]
  exact (pairwise_append.mp inOrder).2.1

theorem Keeps.step (keeps : Keeps schema ops shown stems)
    (inOrder : Ascending schema (arrivals ops)) (moves : Moves schema window stems op more after) :
    Keeps schema (ops ++ [op]) (shown ++ more) after := by
  cases moves with
  | inserted tuple =>
    refine ⟨?_, insertStems_sound keeps.sound,
      insertStems_populated keeps.sound keeps.populated, ?_⟩
    · rw [insertions_append, arrivals_append, map_append, keeps.logged]
      rfl
    · rw [insertions_append]
      exact keeps.retains.insert keeps.sound (keeps.ascending inOrder)
  | still noTuple quiet =>
    refine ⟨?_, keeps.sound, keeps.populated, ?_⟩
    · rw [insertions_append, arrivals_append, quiet, noTuple]
      simpa using keeps.logged
    · rw [insertions_append, quiet, append_nil]
      exact keeps.retains

theorem spaced_of_few (positive : 0 < w) (keeps : Keeps schema ops shown stems)
    (few : (tuplesOf stems).length ≤ 1) : Spaced schema w stems := by
  match stems, few, keeps with
  | [], _, _ => exact ⟨List.Pairwise.nil, by simp⟩
  | [stem], few, keeps =>
    refine ⟨pairwise_singleton _ _, ?_⟩
    intro stem' member first oldest tuple held
    rw [mem_singleton.mp member] at oldest held
    rw [tuplesOf_singleton] at few
    have sound := keeps.sound stem (by simp)
    rw [sound.oldest] at oldest
    obtain ⟨tail, tuples⟩ := head?_eq_some_iff.mp oldest
    rw [tuples] at few held
    have alone : tail = [] := by simpa using few
    have same : tuple = first := by simpa [alone] using held
    rw [same]
    linarith
  | a :: b :: rest, few, keeps =>
    have nonemptyA := length_pos_of_ne_nil (keeps.populated (by simp) a (by simp))
    have nonemptyB := length_pos_of_ne_nil (keeps.populated (by simp) b (by simp))
    simp only [tuplesOf, flatMap_cons, length_append] at few
    omega

/-- From a state with at most one tuple, while the window in force at every insertion is
`w`, every insertion is accepted and no tuple gets older than one window and a half. -/
structure Paced (schema : Schema Tuple Key) (w : ℚ) (shown : List (FSteMOut Tuple))
    (retained : List Tuple) : Prop where
  accepted : ∀ tuple window accepted, .inserted tuple window accepted ∈ shown →
    accepted = true
  recent : ∀ newest, (insertions shown).getLast? = some newest → ∀ tuple ∈ retained,
    schema.timestamp newest.1 - schema.timestamp tuple ≤ 3 / 2 * w

theorem Paced.step (positive : 0 < w) (paced : Paced schema w shown (tuplesOf stems))
    (spaced : Spaced schema w stems) (sound : ∀ stem ∈ stems, stem.Sound schema)
    (ascending : Ascending schema (tuplesOf stems))
    (moves : Moves schema window stems op more after)
    (inForce : ∀ entry ∈ insertions more, entry.2 = some w) :
    Paced schema w (shown ++ more) (tuplesOf after) ∧ Spaced schema w after := by
  cases moves with
  | inserted tuple =>
    have isWindow : window = some w := inForce (tuple, window) (by
      simp [insertions, FSteMOut.insertion?])
    subst isWindow
    obtain ⟨spacedAfter, accepts⟩ := @Spaced.insert _ _ schema _ tuple _ positive spaced sound
    refine ⟨⟨?_, ?_⟩, spacedAfter⟩
    · intro t window accepted member
      cases mem_append.mp member with
      | inl before => exact paced.accepted t window accepted before
      | inr now =>
        simp only [mem_singleton, FSteMOut.inserted.injEq] at now
        rw [now.2.2, accepts]
    · intro newest last held member
      have isNewest : newest = (tuple, some w) := by
        simpa [insertions_append, insertions, FSteMOut.insertion?] using last.symm
      rw [isNewest]
      exact spaced.age_le positive sound ascending member
  | still _ quiet =>
    refine ⟨⟨?_, ?_⟩, spaced⟩
    · intro tuple window accepted member
      cases mem_append.mp member with
      | inl before => exact paced.accepted tuple window accepted before
      | inr now =>
        have shows : (tuple, window) ∈ insertions more := mem_filterMap.mpr ⟨_, now, rfl⟩
        simp [quiet] at shows
    · rw [insertions_append, quiet, append_nil]
      exact paced.recent

/-- Every complete probe succeeds, returns each matching tuple held exactly once and
leaves the tuples as they are. -/
def ProbesExactly (schema : Schema Tuple Key) (node : FSteM Tuple) : Prop :=
  ∀ probe : Probe schema, ∃ results next,
    fsteMProbe schema probe node = .ok (results, next) ∧
    results.Perm (node.retained.filter probe.stemclauses) ∧
    next.retained = node.retained

def RunHolds (before : List (FSteMOp schema)) (shownBefore : List (FSteMOut Tuple))
    (start : List (SteM Tuple)) (ops : List (FSteMOp schema))
    (shown : List (FSteMOut Tuple)) (node : FSteM Tuple) : Prop :=
  ∃ stems, Idle node stems ∧ Keeps schema (before ++ ops) (shownBefore ++ shown) stems ∧
    ∀ w, 0 < w → Spaced schema w start →
      (∀ entry ∈ insertions shown, entry.2 = some w) →
      Paced schema w shown (tuplesOf stems) ∧ Spaced schema w stems

theorem RunHolds.start (idle : Idle node stems) (keeps : Keeps schema before shownBefore stems) :
    RunHolds before shownBefore stems [] [] node := by
  refine ⟨stems, idle, by simpa using keeps, ?_⟩
  intro w _ spaced _
  exact ⟨⟨by simp, by simp [insertions]⟩, spaced⟩

theorem RunHolds.run (idle : Idle node stems) (keeps : Keeps schema before shownBefore stems)
    (ops : List (FSteMOp schema)) (inOrder : Ascending schema (arrivals (before ++ ops))) :
    ∃ shown next, (fsteMMachine schema).run node ops = (shown, .ok next) ∧
      RunHolds before shownBefore stems ops shown next := by
  refine @Machine.run_total _ _ _ _ (fsteMMachine schema)
    (fun ops => Ascending schema (arrivals (before ++ ops)))
    (RunHolds before shownBefore stems) ?_ ?_ _ (.start idle keeps) ops inOrder
  · intro ops op valid
    rw [← append_assoc, arrivals_append] at valid
    exact (pairwise_append.mp valid).1
  · intro ops op shown node valid holds
    obtain ⟨stems', idle', keeps', paces⟩ := holds
    rw [← append_assoc, arrivals_append] at valid
    have inOrder' := (pairwise_append.mp valid).1
    obtain ⟨more, next, after, stepped, idleNext, moves⟩ := fsteMStep_moves op idle' keeps'.sound
    refine ⟨more, next, stepped, after, idleNext, ?_, ?_⟩
    · rw [← append_assoc, ← append_assoc]
      exact keeps'.step inOrder' moves
    · intro w positive spaced inForce
      simp only [insertions_append, mem_append, or_imp, forall_and] at inForce
      obtain ⟨paced, spaced'⟩ := paces w positive spaced inForce.1
      exact paced.step positive spaced' keeps'.sound (keeps'.ascending inOrder') moves
        inForce.2

theorem processInitFSteM_idle : Idle (processInitFSteM : FSteM Tuple) [newSteM] :=
  ⟨(Ring.Views.empty rfl rfl fun _ => rfl).start 0 newSteM, rfl, rfl,
    by simp [SteM.Waiting, newSteM]⟩

theorem keeps_init : Keeps schema [] [] [newSteM] := by
  refine ⟨rfl, ?_, by simp, [], [], rfl, by simp, by simp⟩
  intro stem member
  rw [mem_singleton.mp member]
  exact newSteM_sound

/-- The windowed state module over all runs with tuples in timestamp order, split in two
at any point: the slots in use run from the first to the last, whatever was dropped is
overdue, and probes are exact.  If the state module holds at most one tuple at the split
and the window in force is `w` from there on, insertions are accepted and the tuples
held are at most one window and a half old. -/
theorem fsteM_keeps_window (before during : List (FSteMOp schema))
    (inOrder : Ascending schema (arrivals (before ++ during))) :
    ∃ shownBefore middle shown node,
      (fsteMMachine schema).run processInitFSteM before = (shownBefore, .ok middle) ∧
      (fsteMMachine schema).run middle during = (shown, .ok node) ∧
      (∃ stems, node.substems.Views stems) ∧
      (insertions (shownBefore ++ shown)).map Prod.fst = arrivals (before ++ during) ∧
      Retains schema (insertions (shownBefore ++ shown)) node.retained ∧
      ProbesExactly schema node ∧
      ∀ w, 0 < w → middle.retained.length ≤ 1 →
        (∀ entry ∈ insertions shown, entry.2 = some w) →
        Paced schema w shown node.retained := by
  have inOrderBefore : Ascending schema (arrivals ([] ++ before)) := by
    rw [arrivals_append] at inOrder
    exact (pairwise_append.mp inOrder).1
  obtain ⟨shownBefore, middle, ranBefore, start, idleStart, keepsStart, -⟩ :=
    RunHolds.run processInitFSteM_idle keeps_init before inOrderBefore
  simp only [nil_append] at keepsStart
  obtain ⟨shown, node, ran, stems, idle, keeps, paces⟩ :=
    RunHolds.run idleStart keepsStart during inOrder
  refine ⟨shownBefore, middle, shown, node, ranBefore, ran, ⟨stems, idle.views⟩,
    keeps.logged, ?_, ?_, ?_⟩
  · rw [idle.retained_eq]
    exact keeps.retains
  · intro probe
    obtain ⟨results, next, probed, found, idleNext⟩ :=
      fsteMProbe_spec probe idle fun stem member => (keeps.sound stem member).hashed
    refine ⟨results, next, probed, ?_, ?_⟩
    · rw [idle.retained_eq]
      exact found
    · rw [idleNext.retained_eq, idle.retained_eq]
  · intro w positive few inForce
    rw [idleStart.retained_eq] at few
    rw [idle.retained_eq]
    exact (paces w positive (spaced_of_few positive keepsStart few) inForce).1

def clockSchema : Schema ℚ Unit where
  timestamp := id
  innerhashkey := fun _ => none
  hashFunc := fun _ => 0
  totalbuckets := 1

theorem fsteM_keeps_window_of_two :
    ∃ shown node, (fsteMMachine clockSchema).run (addWindowFSteM 2 processInitFSteM)
        [.insert 0, .insert 1, .insert 4] = (shown, .ok node) ∧
      Paced clockSchema 2 shown node.retained := by
  have inOrder : Ascending clockSchema (arrivals ([.addWindow 2] ++
      [.insert 0, .insert 1, .insert (4 : ℚ)] : List (FSteMOp clockSchema))) := by
    unfold Ascending
    decide +kernel
  obtain ⟨shownBefore, middle, shown, node, ranBefore, ran, -, -, -, -, paced⟩ :=
    fsteM_keeps_window _ _ inOrder
  have started : (fsteMMachine clockSchema).run processInitFSteM [.addWindow 2] =
    ([], .ok (addWindowFSteM 2 processInitFSteM)) := rfl
  obtain ⟨-, isMiddle⟩ := Prod.ext_iff.mp (started.symm.trans ranBefore)
  obtain rfl := Except.ok.inj isMiddle
  refine ⟨shown, node, ran, paced 2 (by norm_num) (by decide +kernel) ?_⟩
  rw [← show _ = shown from congrArg Prod.fst ran]
  decide +kernel

/-- After the window has grown, a tuple that no sub-SteM accepts is put into the last
one, which then outlives the new window by more than a half. -/
theorem window_growth_delays_expiry :
    ∃ shown node, (fsteMMachine clockSchema).run processInitFSteM
        [.addWindow 2, .insert 0, .insert 1, .insert 2, .addWindow 100, .insert 60,
          .insert 160] = (shown, .ok node) ∧
      insertions shown = [(0, some 2), (1, some 2), (2, some 2), (60, some 100),
        (160, some 100)] ∧
      .inserted 60 (some 100) false ∈ shown ∧
      ∃ tuple ∈ node.retained, 160 - tuple > 3 / 2 * 100 := by
  have held : ((fsteMMachine clockSchema).run processInitFSteM
      [.addWindow 2, .insert 0, .insert 1, .insert 2, .addWindow 100, .insert 60,
        .insert 160]).2.toOption.map FSteM.retained = some [2, 60, 160] := by
    decide +kernel
  cases ended : ((fsteMMachine clockSchema).run processInitFSteM
      [.addWindow 2, .insert 0, .insert 1, .insert 2, .addWindow 100, .insert 60,
        .insert 160]).2 with
  | error fault => simp [ended, Except.toOption] at held
  | ok node =>
    have retained : node.retained = [2, 60, 160] := by
      simpa [ended, Except.toOption] using held
    refine ⟨_, node, Prod.ext rfl ended, by decide +kernel, by decide +kernel, 2, ?_, ?_⟩
    · simp [retained]
    · norm_num

end TelegraphCQ.Stems
