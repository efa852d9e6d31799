import Mathlib.Tactic.Linarith
import TelegraphCQ.Stems.FSteM

/-!
# The ring of sub-SteMs as a list

Between operations a windowed state module is a list of at most three sub-SteMs, oldest
first.  The operations on the ring are functions on that list, and what an insertion
keeps or drops is read off the list.
-/

namespace TelegraphCQ.Stems

open Foundation List

variable {Tuple Key : Type} {schema : Schema Tuple Key}

/-! ## Lists of sub-SteMs -/

def SteM.Waiting (stem : SteM Tuple) : Prop :=
  stem.needNewOuter = true ∧ stem.cursor = []

structure Idle (node : FSteM Tuple) (stems : List (SteM Tuple)) : Prop where
  views : node.substems.Views stems
  noProbe : node.probeIndex = none
  noOuter : node.haveprobe = false
  waiting : ∀ stem ∈ stems, stem.Waiting

section Insertion

variable (schema : Schema Tuple Key) (window : Option ℚ) (tuple : Tuple)
  (stems : List (SteM Tuple))

def gcStems : List (SteM Tuple) :=
  match window with
  | none => stems
  | some size => stems.dropWhile (fsteMSubSteMHasExpired schema size tuple)

def spaceStems : List (SteM Tuple) :=
  match stems.getLast? with
  | none => [newSteM]
  | some stem =>
    if fsteMTupleFitsInSubSteM schema window tuple stem then stems
    else if stems.length < 3 then stems ++ [newSteM]
    else stems

def storeInLast : List (SteM Tuple) :=
  match stems.getLast? with
  | none => stems
  | some stem => stems.set (stems.length - 1) (execSteMInsert schema tuple stem)

def insertStems : List (SteM Tuple) :=
  storeInLast schema tuple
    (spaceStems schema window tuple (gcStems schema window tuple stems))

def acceptedBy : Bool :=
  ((spaceStems schema window tuple (gcStems schema window tuple stems)).getLast?.map
    (fsteMTupleFitsInSubSteM schema window tuple)).getD false

end Insertion

variable {node : FSteM Tuple} {stem : SteM Tuple} {stems : List (SteM Tuple)}
  {stemclauses : Tuple → Bool}

theorem endFirstSubSteM_idle (idle : Idle node (stem :: stems)) :
    Idle (endFirstSubSteM node) stems ∧ (endFirstSubSteM node).window = node.window := by
  have occupied : node.substems.first ≠ none := by
    rw [Ne, idle.views.first_eq_none]
    simp
  have waiting : ∀ s ∈ stems, s.Waiting := fun s member => idle.waiting s (mem_cons_of_mem _ member)
  unfold endFirstSubSteM
  split_ifs with onlyOne pulled
  · exact ⟨⟨idle.views.dropFirst, rfl, rfl, waiting⟩, rfl⟩
  · rw [idle.noProbe] at pulled
    exact absurd pulled.symm occupied
  · exact ⟨⟨idle.views.dropFirst, idle.noProbe, idle.noOuter, waiting⟩, rfl⟩

theorem fsteMGCSubstems_spec (tuple : Tuple) {rounds : Nat} {node : FSteM Tuple}
    {stems : List (SteM Tuple)} (idle : Idle node stems) (enough : stems.length ≤ rounds) :
    ∃ next, fsteMGCSubstems schema tuple rounds node = .ok next ∧
      Idle next (gcStems schema node.window tuple stems) ∧ next.window = node.window := by
  induction rounds generalizing node stems with
  | zero =>
    have none : stems = [] := length_eq_zero_iff.mp (Nat.le_zero.mp enough)
    subst none
    refine ⟨node, rfl, ?_, rfl⟩
    unfold gcStems
    cases node.window <;> simpa using idle
  | succ rounds ih =>
    unfold fsteMGCSubstems
    cases window : node.window with
    | none => exact ⟨node, rfl, by simpa [gcStems] using idle, window⟩
    | some size =>
      cases stems with
      | nil =>
        rw [idle.views.first_eq_none.mpr rfl]
        exact ⟨node, rfl, by simpa [gcStems] using idle, window⟩
      | cons stem stems =>
        cases first : node.substems.first with
        | none => exact absurd (idle.views.first_eq_none.mp first) (by simp)
        | some i =>
          have slot := idle.views.slot first (k := 0) (by simp)
          rw [Ring.shift_zero, getElem_cons_zero] at slot
          simp only [slot]
          by_cases expired : fsteMSubSteMHasExpired schema size tuple stem
          · obtain ⟨dropped, sameWindow⟩ := endFirstSubSteM_idle idle
            obtain ⟨next, collected, idleNext, windowNext⟩ := ih dropped (by simpa using enough)
            rw [if_pos expired, collected]
            rw [sameWindow, window] at idleNext windowNext
            refine ⟨next, rfl, ?_, windowNext⟩
            simpa [gcStems, expired] using idleNext
          · rw [if_neg expired]
            exact ⟨node, rfl, by simpa [gcStems, expired] using idle, window⟩

theorem Idle.last_slot (idle : Idle node stems) (last : stems.getLast? = some stem) :
    ∃ i, node.substems.first = some i ∧
      node.substems.last = some (Ring.shift i (stems.length - 1)) ∧
      node.substems.slots (Ring.shift i (stems.length - 1)) = some stem := by
  have views := idle.views
  cases views with
  | empty => simp at last
  | @occupied head tail i first lastIndex fits held =>
    refine ⟨i, first, by simpa using lastIndex, ?_⟩
    have slot := idle.views.slot first (k := tail.length) (by simp)
    rw [getLast?_eq_getElem?] at last
    simp only [length_cons, Nat.add_sub_cancel] at last ⊢
    rw [slot, ← last, getElem?_eq_getElem]

theorem fsteMMakeSpaceForInsert_spec (tuple : Tuple) {node : FSteM Tuple}
    {stems : List (SteM Tuple)} (idle : Idle node stems) :
    ∃ next, fsteMMakeSpaceForInsert schema tuple node = .ok next ∧
      Idle next (spaceStems schema node.window tuple stems) ∧ next.window = node.window := by
  have fresh : (newSteM : SteM Tuple).Waiting := ⟨rfl, rfl⟩
  unfold fsteMMakeSpaceForInsert spaceStems
  cases last : stems.getLast? with
  | none =>
    have none : stems = [] := getLast?_eq_none_iff.mp last
    subst none
    rw [idle.views.last_eq_none.mpr rfl]
    exact ⟨_, rfl, ⟨idle.views.start 0 newSteM, idle.noProbe, idle.noOuter, by simp [fresh]⟩, rfl⟩
  | some stem =>
    obtain ⟨i, first, lastIndex, slot⟩ := idle.last_slot last
    have nonempty : stems ≠ [] := by
      rintro rfl
      simp at last
    simp only [lastIndex, slot]
    by_cases fits : fsteMTupleFitsInSubSteM schema node.window tuple stem
    · simp only [fits, if_true]
      exact ⟨node, rfl, idle, rfl⟩
    · simp only [fits]
      refine ⟨_, rfl, ?_, rfl⟩
      by_cases room : stems.length < 3
      · rw [if_pos room]
        exact ⟨idle.views.pushNext nonempty room newSteM, idle.noProbe, idle.noOuter,
          forall_mem_append.mpr ⟨idle.waiting, forall_mem_singleton.mpr fresh⟩⟩
      · have full : stems.length = 3 := by
          have := idle.views.length_le
          omega
        rw [if_neg room]
        simp only [idle.views.pushNext_full full]
        exact idle

theorem spaceStems_ne_nil (window : Option ℚ) (tuple : Tuple)
    (stems : List (SteM Tuple)) : spaceStems schema window tuple stems ≠ [] := by
  unfold spaceStems
  cases last : stems.getLast? with
  | none => simp
  | some stem =>
    have nonempty : stems ≠ [] := by
      rintro rfl
      simp at last
    simp only
    split_ifs <;> simp [nonempty]

theorem fsteMInsert_spec (tuple : Tuple) {node : FSteM Tuple}
    {stems : List (SteM Tuple)} (idle : Idle node stems) : ∃ next, fsteMInsert schema tuple node =
        .ok (acceptedBy schema node.window tuple stems, next) ∧
      Idle next (insertStems schema node.window tuple stems) := by
  obtain ⟨collected, gcRan, gcIdle, gcWindow⟩ :=
    @fsteMGCSubstems_spec _ _ schema tuple 3 _ _ idle idle.views.length_le
  obtain ⟨spaced, spaceRan, spaceIdle, spaceWindow⟩ :=
    @fsteMMakeSpaceForInsert_spec _ _ schema tuple _ _ gcIdle
  rw [gcWindow] at spaceIdle spaceWindow
  have nonempty := @spaceStems_ne_nil _ _ schema node.window tuple
    (gcStems schema node.window tuple stems)
  obtain ⟨stem, last⟩ : ∃ stem, (spaceStems schema node.window tuple
      (gcStems schema node.window tuple stems)).getLast? = some stem :=
    ⟨_, getLast?_eq_some_getLast nonempty⟩
  obtain ⟨i, first, lastIndex, slot⟩ := spaceIdle.last_slot last
  have held := length_pos_of_ne_nil nonempty
  unfold fsteMInsert insertStems acceptedBy storeInLast
  simp only [idle.noOuter, gcRan, spaceRan, bind, Except.bind, lastIndex, slot,
    spaceWindow, last, Option.map_some, Option.getD_some]
  refine ⟨_, rfl, ?_, spaceIdle.noProbe, spaceIdle.noOuter, ?_⟩
  · exact spaceIdle.views.put first (by omega) _
  · intro s member
    cases mem_or_eq_of_mem_set member with
    | inl old => exact spaceIdle.waiting s old
    | inr new =>
      rw [new]
      exact spaceIdle.waiting stem (mem_of_getLast? last)

/-! ## Probes -/

def remaining (stemclauses : Tuple → Bool) (stem : SteM Tuple) : List Tuple :=
  if stem.needNewOuter then [] else stem.cursor.filter stemclauses

def SteM.settle (stem : SteM Tuple) : SteM Tuple :=
  { stem with needNewOuter := true, cursor := [] }

theorem settle_of_waiting (waiting : stem.Waiting) : stem.settle = stem := by
  obtain ⟨needs, noCursor⟩ := waiting
  cases stem
  simp_all [SteM.settle]

theorem filter_dropWhile (keep : Tuple → Bool) (tuples : List Tuple) :
    (tuples.dropWhile fun t => !keep t).filter keep = tuples.filter keep := by
  induction tuples with
  | nil => rfl
  | cons tuple tuples ih =>
    cases kept : keep tuple with
    | true => simp [kept]
    | false => simpa [kept] using ih

theorem execSteM_none (active : stem.needNewOuter = false)
    (none : remaining stemclauses stem = []) :
    execSteM stemclauses stem = (Option.none, stem.settle) := by
  unfold remaining at none
  simp only [active] at none
  unfold execSteM
  simp only [active]
  cases rest : stem.cursor.dropWhile fun tuple => !stemclauses tuple with
  | nil => rfl
  | cons tuple tuples =>
    have matching : stemclauses tuple = true := by
      have head := head?_dropWhile_not (fun t => !stemclauses t) stem.cursor
      rw [rest] at head
      simpa using head
    have found := filter_dropWhile stemclauses stem.cursor
    rw [rest, filter_cons_of_pos matching] at found
    simp [← found] at none

theorem execSteM_some {tuple : Tuple} {tuples : List Tuple} (active : stem.needNewOuter = false)
    (more : remaining stemclauses stem = tuple :: tuples) :
    ∃ next, execSteM stemclauses stem = (some tuple, next) ∧
      next.needNewOuter = false ∧ remaining stemclauses next = tuples ∧
      next.settle = stem.settle := by
  unfold remaining at more ⊢
  simp only [active] at more
  unfold execSteM
  simp only [active]
  have found := filter_dropWhile stemclauses stem.cursor
  cases rest : stem.cursor.dropWhile fun tuple => !stemclauses tuple with
  | nil =>
    rw [rest] at found
    simp [← found] at more
  | cons first others =>
    have matching : stemclauses first = true := by
      have head := head?_dropWhile_not (fun t => !stemclauses t) stem.cursor
      rw [rest] at head
      simpa using head
    rw [rest, filter_cons_of_pos matching] at found
    simp only [← found] at more
    obtain ⟨isFirst, isRest⟩ := List.cons.inj more
    refine ⟨{ stem with cursor := others }, ?_, active, ?_, rfl⟩
    · simp [isFirst, active]
    · simpa [active] using isRest

/-- A probe under way: the sub-SteMs in `done` are exhausted, those in `later` still
have `results` to give, and all of them come from `base`. -/
structure Probing (node : FSteM Tuple) (stemclauses : Tuple → Bool)
    (base done later : List (SteM Tuple)) (results : List Tuple) : Prop where
  views : node.substems.Views (done ++ later)
  exhausted : ∀ stem ∈ done, stem.Waiting
  active : ∀ stem ∈ later, stem.needNewOuter = false
  settles : (done ++ later).map SteM.settle = base
  gives : later.flatMap (remaining stemclauses) = results

theorem settle_list_of_waiting (waiting : ∀ stem ∈ stems, stem.Waiting) :
    stems.map SteM.settle = stems := by
  apply (map_congr_left fun stem member => settle_of_waiting (waiting stem member)).trans
  exact map_id' stems

section NextOutput

variable {stemclauses : Tuple → Bool} {i : Fin 3} {base done later : List (SteM Tuple)}
  {stem : SteM Tuple} {results : List Tuple} {node : FSteM Tuple}

section

variable (probing : Probing node stemclauses base done (stem :: later) results)
  (first : node.substems.first = some i)
include probing first

theorem Probing.slot : node.substems.slots (Ring.shift i done.length) = some stem := by
  have slot := probing.views.slot first (k := done.length) (by simp)
  rw [getElem_append_right (le_refl _)] at slot
  simpa using slot

theorem Probing.put (next : SteM Tuple) :
    (node.substems.put (Ring.shift i done.length) next).Views (done ++ next :: later) := by
  have put := probing.views.put first (k := done.length) (by simp) next
  rwa [set_append_right _ _ (le_refl _), Nat.sub_self, set_cons_zero] at put

end

theorem getNextOutputFrom_found {tuple : Tuple} {tuples : List Tuple} (rounds : Nat)
    (probing : Probing node stemclauses base done (stem :: later) results)
    (first : node.substems.first = some i) (here : remaining stemclauses stem = tuple :: tuples) :
    ∃ next stem', getNextOutputFrom stemclauses (rounds + 1)
        (Ring.shift i done.length) node = .ok (some tuple, next) ∧
      next.probeIndex = some (Ring.shift i done.length) ∧ next.substems.first = some i ∧
      Probing next stemclauses base done (stem' :: later)
        (tuples ++ later.flatMap (remaining stemclauses)) := by
  obtain ⟨stem', executed, nextActive, nextRemaining, nextSettles⟩ :=
    execSteM_some (probing.active stem (by simp)) here
  unfold getNextOutputFrom
  rw [probing.slot first]
  simp only [executed]
  refine ⟨_, stem', rfl, rfl, first, probing.put first stem', probing.exhausted, ?_, ?_, ?_⟩
  · intro s member
    cases mem_cons.mp member with
    | inl new =>
      rw [new]
      exact nextActive
    | inr old => exact probing.active s (mem_cons_of_mem _ old)
  · simpa [nextSettles] using probing.settles
  · simp [nextRemaining]

theorem getNextOutputFrom_skip (rounds : Nat)
    (probing : Probing node stemclauses base done (stem :: later) results)
    (first : node.substems.first = some i) (here : remaining stemclauses stem = [])
    (follows : later ≠ []) : ∃ next, getNextOutputFrom stemclauses (rounds + 1)
        (Ring.shift i done.length) node = getNextOutputFrom stemclauses rounds
          (Ring.shift i (done ++ [stem.settle]).length) next ∧ next.substems.first = some i ∧
      Probing next stemclauses base (done ++ [stem.settle]) later results := by
  have executed := execSteM_none (probing.active stem (by simp)) here
  have views := probing.put first stem.settle
  have size := probing.views.length_le
  have lastIndex := probing.views.last_eq first
  have notLast : node.substems.last ≠ some (Ring.shift i done.length) := by
    have more := length_pos_of_ne_nil follows
    simp only [length_append, length_cons] at size lastIndex
    rw [lastIndex, Ne, Option.some.injEq, Ring.shift_inj (by omega) (by omega)]
    omega
  rw [getNextOutputFrom, probing.slot first]
  simp only [executed]
  rw [if_neg (show ¬ (node.substems.put (Ring.shift i done.length)
    stem.settle).last = some (Ring.shift i done.length) from notLast), Ring.next_shift]
  have moved : done.length + 1 = (done ++ [stem.settle]).length := by simp
  rw [moved]
  refine ⟨_, rfl, first, ?_, ?_, ?_, ?_, ?_⟩
  · simpa using views
  · exact forall_mem_append.mpr ⟨probing.exhausted, forall_mem_singleton.mpr ⟨rfl, rfl⟩⟩
  · intro s member
    exact probing.active s (mem_cons_of_mem _ member)
  · have settles := probing.settles
    simpa [SteM.settle] using settles
  · have gives := probing.gives
    rwa [flatMap_cons, here, nil_append] at gives

theorem getNextOutputFrom_last (rounds : Nat)
    (probing : Probing node stemclauses base done [stem] results)
    (first : node.substems.first = some i) (here : remaining stemclauses stem = []) :
    ∃ next, getNextOutputFrom stemclauses (rounds + 1)
        (Ring.shift i done.length) node = .ok (none, next) ∧
      next.probeIndex = none ∧ next.substems.Views base := by
  have executed := execSteM_none (probing.active stem (by simp)) here
  have views := probing.put first stem.settle
  have lastIndex := probing.views.last_eq first
  simp only [length_append, length_singleton, Nat.add_sub_cancel] at lastIndex
  rw [getNextOutputFrom, probing.slot first]
  simp only [executed]
  rw [if_pos (show (node.substems.put (Ring.shift i done.length)
    stem.settle).last = some (Ring.shift i done.length) from lastIndex)]
  refine ⟨_, rfl, rfl, ?_⟩
  have settled : base = done ++ [stem.settle] := by
    rw [← probing.settles, map_append, settle_list_of_waiting probing.exhausted]
    rfl
  rw [settled]
  exact views

theorem getNextOutputFrom_nil {rounds : Nat} (probing : Probing node stemclauses base done later [])
    (first : node.substems.first = some i) (enough : later.length ≤ rounds)
    (unfinished : later ≠ []) :
    ∃ next, getNextOutputFrom stemclauses rounds (Ring.shift i done.length) node =
        .ok (none, next) ∧ next.probeIndex = none ∧ next.substems.Views base := by
  induction later generalizing node done rounds with
  | nil => exact absurd rfl unfinished
  | cons stem later ih =>
    cases rounds with
    | zero => simp at enough
    | succ rounds =>
      have noneHere := flatMap_eq_nil_iff.mp probing.gives
      have here : remaining stemclauses stem = [] := noneHere stem (by simp)
      by_cases follows : later = []
      · subst follows
        exact getNextOutputFrom_last rounds probing first here
      · obtain ⟨next, skipped, nextFirst, nextProbing⟩ :=
          getNextOutputFrom_skip rounds probing first here follows
        rw [skipped]
        exact ih nextProbing nextFirst (by simpa using enough) follows

theorem getNextOutputFrom_cons {rounds : Nat} {tuple : Tuple} {tuples : List Tuple}
    (probing : Probing node stemclauses base done later (tuple :: tuples))
    (first : node.substems.first = some i) (enough : later.length ≤ rounds) :
    ∃ next done' later', getNextOutputFrom stemclauses rounds
        (Ring.shift i done.length) node = .ok (some tuple, next) ∧
      next.probeIndex = some (Ring.shift i done'.length) ∧
      next.substems.first = some i ∧ later' ≠ [] ∧
      Probing next stemclauses base done' later' tuples := by
  induction later generalizing node done rounds with
  | nil => simpa using probing.gives
  | cons stem later ih =>
    cases rounds with
    | zero => simp at enough
    | succ rounds =>
      have gives := probing.gives
      rw [flatMap_cons] at gives
      cases here : remaining stemclauses stem with
      | nil =>
        have follows : later ≠ [] := by
          rintro rfl
          simp [here] at gives
        obtain ⟨next, skipped, nextFirst, nextProbing⟩ :=
          getNextOutputFrom_skip rounds probing first here follows
        rw [skipped]
        exact ih nextProbing nextFirst (by simpa using enough)
      | cons head rest =>
        rw [here, cons_append] at gives
        obtain ⟨isHead, isRest⟩ := List.cons.inj gives
        obtain ⟨next, stem', found, index, nextFirst, nextProbing⟩ :=
          getNextOutputFrom_found rounds probing first here
        rw [isHead] at found
        rw [isRest] at nextProbing
        exact ⟨next, done, stem' :: later, found, index, nextFirst, by simp, nextProbing⟩

end NextOutput

def SteM.Hashed (schema : Schema Tuple Key) (stem : SteM Tuple) : Prop :=
  ∀ entry ∈ stem.entries,
    entry.1 = execSteMHashGetBucket schema (schema.innerhashkey entry.2)

def SteM.open (probe : Probe schema) (stem : SteM Tuple) : SteM Tuple :=
  { stem with
    needNewOuter := false
    cursor := stem.bucket (execSteMHashGetBucket schema probe.outerhashkey) }

theorem remaining_open {probe : Probe schema} (hashed : stem.Hashed schema) :
    remaining probe.stemclauses (stem.open probe) =
      (stem.tuples.filter probe.stemclauses).reverse := by
  have same : (stem.bucket (execSteMHashGetBucket schema probe.outerhashkey)).filter
      probe.stemclauses = (stem.entries.map Prod.snd).filter probe.stemclauses := by
    unfold SteM.bucket
    rw [filter_map, filter_map, filter_filter]
    congr 1
    apply filter_congr
    intro entry member
    cases matching : probe.stemclauses entry.2 with
    | false => simp [matching]
    | true =>
      have key := (probe.clauses_key entry.2 matching).2
      simp [matching, hashed entry member, key]
  simp [remaining, SteM.open, same, SteM.tuples, filter_reverse]

theorem setNewOuterFrom_spec (probe : Probe schema) {i : Fin 3}
    {done later : List (SteM Tuple)} {rounds : Nat} {node : FSteM Tuple}
    (views : node.substems.Views (done ++ later))
    (first : node.substems.first = some i) (waiting : ∀ stem ∈ later, stem.Waiting)
    (enough : later.length ≤ rounds) (unfinished : later ≠ []) :
    ∃ next, setNewOuterFrom schema probe rounds (Ring.shift i done.length) node =
        .ok next ∧ next.substems.Views (done ++ later.map (SteM.open probe)) ∧
      next.substems.first = some i ∧ next.probeIndex = node.probeIndex := by
  induction later generalizing node done rounds with
  | nil => exact absurd rfl unfinished
  | cons stem later ih =>
    cases rounds with
    | zero => simp at enough
    | succ rounds =>
      have slot := views.slot first (k := done.length) (by simp)
      rw [getElem_append_right (le_refl _)] at slot
      simp only [Nat.sub_self, getElem_cons_zero] at slot
      have put := views.put first (k := done.length) (by simp) (stem.open probe)
      rw [set_append_right _ _ (le_refl _), Nat.sub_self, set_cons_zero] at put
      have opened : execSteMSetNewOuter schema probe stem = .ok (stem.open probe) := by
        simp [execSteMSetNewOuter, (waiting stem (by simp)).1, SteM.open]
      have size := views.length_le
      have lastIndex := views.last_eq first
      simp only [length_append, length_cons] at size lastIndex
      rw [setNewOuterFrom, slot]
      simp only [opened, bind, Except.bind]
      by_cases atEnd : later = []
      · subst atEnd
        have last : (node.substems.put (Ring.shift i done.length)
            (stem.open probe)).last = some (Ring.shift i done.length) := lastIndex
        rw [if_pos last]
        exact ⟨_, rfl, by simpa using put, first, rfl⟩
      · have more := length_pos_of_ne_nil atEnd
        have notLast : ¬ (node.substems.put (Ring.shift i done.length)
            (stem.open probe)).last = some (Ring.shift i done.length) := by
          have unequal : node.substems.last ≠ some (Ring.shift i done.length) := by
            rw [lastIndex, Ne, Option.some.injEq, Ring.shift_inj (by omega) (by omega)]
            omega
          exact unequal
        rw [if_neg notLast, Ring.next_shift]
        have moved : done.length + 1 = (done ++ [stem.open probe]).length := by simp
        have putNext : (node.substems.put (Ring.shift i done.length)
            (stem.open probe)).Views (done ++ [stem.open probe] ++ later) := by
          simpa using put
        rw [moved]
        obtain ⟨next, ran, nextViews, nextFirst, nextIndex⟩ := @ih
          (done ++ [stem.open probe]) rounds
          { node with
            substems := node.substems.put (Ring.shift i done.length)
              (stem.open probe) }
          putNext first (fun s member => waiting s (mem_cons_of_mem _ member))
          (by simpa using enough) atEnd
        exact ⟨next, ran, by simpa using nextViews, nextFirst, nextIndex⟩

theorem drainProbe_spec {stemclauses : Tuple → Bool} {i : Fin 3}
    {base done later : List (SteM Tuple)} {results : List Tuple} {calls : Nat}
    {node : FSteM Tuple} (probing : Probing node stemclauses base done later results)
    (first : node.substems.first = some i)
    (position : node.probeIndex.getD i = Ring.shift i done.length)
    (unfinished : later ≠ []) (settled : ∀ stem ∈ base, stem.Waiting)
    (enough : results.length < calls) :
    ∃ next, drainProbe stemclauses calls node = .ok (results, next) ∧ Idle next base := by
  induction results generalizing node done later calls with
  | nil =>
    cases calls with
    | zero => simp at enough
    | succ calls =>
      have size := probing.views.length_le
      rw [length_append] at size
      obtain ⟨next, ended, index, views⟩ :=
        @getNextOutputFrom_nil _ _ _ _ _ _ _ 3 probing first (by omega) unfinished
      refine ⟨{ next with haveprobe := false }, ?_, views, index, rfl, settled⟩
      simp [drainProbe, fsteMGetNextOutput, first, position, ended, bind, Except.bind]
  | cons tuple tuples ih =>
    cases calls with
    | zero => simp at enough
    | succ calls =>
      have size := probing.views.length_le
      rw [length_append] at size
      obtain ⟨next, done', later', found, index, nextFirst, more, nextProbing⟩ :=
        @getNextOutputFrom_cons _ _ _ _ _ _ _ 3 _ _ probing first (by omega)
      obtain ⟨final, drained, idle⟩ := @ih _ _ calls _ nextProbing nextFirst
        (by simp [index]) more (by simpa using enough)
      refine ⟨final, ?_, idle⟩
      simp [drainProbe, fsteMGetNextOutput, first, position, found, bind, Except.bind, drained]

def tuplesOf (stems : List (SteM Tuple)) : List Tuple := stems.flatMap SteM.tuples

theorem Idle.retained_eq (idle : Idle node stems) : node.retained = tuplesOf stems := by
  unfold FSteM.retained
  rw [idle.views.toList_eq]
  rfl

theorem flatMap_remaining_open (probe : Probe schema)
    (hashed : ∀ stem ∈ stems, stem.Hashed schema) :
    ((stems.map (SteM.open probe)).flatMap (remaining probe.stemclauses)).Perm
      ((tuplesOf stems).filter probe.stemclauses) := by
  induction stems with
  | nil => exact List.Perm.refl _
  | cons stem stems ih =>
    simp only [tuplesOf, map_cons, flatMap_cons, filter_append]
    rw [remaining_open (hashed stem (by simp))]
    exact (reverse_perm _).append
      (ih fun s member => hashed s (mem_cons_of_mem _ member))

theorem fsteMProbe_spec (probe : Probe schema) (idle : Idle node stems)
    (hashed : ∀ stem ∈ stems, stem.Hashed schema) :
    ∃ results next, fsteMProbe schema probe node = .ok (results, next) ∧
      results.Perm ((tuplesOf stems).filter probe.stemclauses) ∧ Idle next stems := by
  unfold fsteMProbe fsteMSetNewOuter
  cases first : node.substems.first with
  | none =>
    have empty := idle.views.first_eq_none.mp first
    subst empty
    refine ⟨[], { node with haveprobe := false }, ?_, List.Perm.refl _, idle.views,
      idle.noProbe, rfl, idle.waiting⟩
    simp [bind, Except.bind, drainProbe, fsteMGetNextOutput, first]
  | some i =>
    have occupied : stems ≠ [] := by
      intro empty
      rw [idle.views.first_eq_none.mpr empty] at first
      simp at first
    obtain ⟨opened, ran, views, openedFirst, index⟩ :=
      @setNewOuterFrom_spec _ _ schema probe i [] stems 3 node idle.views first
        idle.waiting idle.views.length_le occupied
    rw [length_nil, Ring.shift_zero] at ran
    rw [nil_append] at views
    rw [idle.noProbe] at index
    have matching := flatMap_remaining_open probe hashed
    have probing : Probing { opened with haveprobe := true } probe.stemclauses stems []
        (stems.map (SteM.open probe)) ((stems.map (SteM.open probe)).flatMap
          (remaining probe.stemclauses)) := by
      refine ⟨views, by simp, ?_, ?_, rfl⟩
      · intro stem member
        obtain ⟨origin, -, rfl⟩ := mem_map.mp member
        rfl
      · rw [nil_append, map_map]
        exact settle_list_of_waiting idle.waiting
    have held : opened.retained = tuplesOf stems := by
      unfold FSteM.retained tuplesOf
      rw [views.toList_eq, flatMap_map]
      rfl
    have fewer : ((stems.map (SteM.open probe)).flatMap
        (remaining probe.stemclauses)).length < opened.retained.length + 1 := by
      rw [matching.length_eq, held]
      exact Nat.lt_succ_of_le (length_filter_le _ _)
    obtain ⟨next, drained, nextIdle⟩ := drainProbe_spec probing openedFirst
      (by simp [index]) (by simpa using occupied) idle.waiting fewer
    refine ⟨_, next, ?_, matching, nextIdle⟩
    simp only [idle.noProbe, ran, bind, Except.bind]
    exact drained

end TelegraphCQ.Stems
