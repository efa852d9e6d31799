import TelegraphCQ.Stems.FSteM

/-!
# The window size of a shared state module

The size stands in three expressions: the one that admits a tuple to a sub-SteM, the one that
expires sub-SteMs, and the comparison with a new size.  The comparison keeps a copy of the size it
was created with, the first one; later sizes are put into the other two expressions only.
-/

namespace TelegraphCQ.Stems

open Foundation List

/-- The sizes in the window expressions, once these exist; of `ts_comp_expr` the right operand. -/
structure WindowExprs where
  sameStem : Option ℚ
  stemExpired : Option ℚ
  tsComp : Option ℚ
  isValid : Bool
  deriving DecidableEq, Repr

def noWindow : WindowExprs := ⟨none, none, none, false⟩

def fsteMCreateEmptyWindowExprs (dummyWindowSize : ℚ) (exprs : WindowExprs) : WindowExprs :=
  { exprs with
    sameStem := some dummyWindowSize
    stemExpired := some dummyWindowSize
    isValid := false }

def fsteMNewWindowIsLarger (size : ℚ) (exprs : WindowExprs) : Bool × WindowExprs :=
  match exprs.sameStem with
  | none => (true, exprs)
  | some old =>
    let compared := exprs.tsComp.getD old
    (decide (size > compared), { exprs with tsComp := some compared })

def addWindow (size : ℚ) (exprs : WindowExprs) : WindowExprs :=
  let exprs := if exprs.sameStem = none then fsteMCreateEmptyWindowExprs size exprs else exprs
  let (larger, exprs) := fsteMNewWindowIsLarger size exprs
  let exprs :=
    if larger then { exprs with sameStem := some size, stemExpired := some size } else exprs
  { exprs with isValid := true }

def FSteM.windowExprs {Tuple : Type} (node : FSteM Tuple) : WindowExprs :=
  ⟨node.windowSize, node.windowSize, node.tsComp, node.windowExprIsValid⟩

theorem windowExprs_addWindowFSteM {Tuple : Type} (size : ℚ) (node : FSteM Tuple) :
    (addWindowFSteM size node).windowExprs = addWindow size node.windowExprs := by
  unfold addWindowFSteM addWindow fsteMNewWindowIsLarger FSteM.windowExprs
  cases node.windowSize with
  | none =>
    simp only [fsteMCreateEmptyWindowExprs, if_true, Option.getD_none]
    by_cases larger : size > node.tsComp.getD size <;> simp [larger]
  | some old =>
    simp only [reduceCtorEq, if_false, Option.getD_some]
    by_cases larger : size > node.tsComp.getD old <;> simp [larger]

def addWindows (sizes : List ℚ) : WindowExprs :=
  sizes.foldl (fun exprs size => addWindow size exprs) noWindow

/-- The size after further ones: the latest that is larger than the first. -/
def latestLarger (first : ℚ) (sizes : List ℚ) : ℚ :=
  sizes.foldl (fun current size => if first < size then size else current) first

theorem latestLarger_concat (first size : ℚ) (sizes : List ℚ) :
    latestLarger first (sizes ++ [size]) =
      if first < size then size else latestLarger first sizes := by
  simp [latestLarger, foldl_append]

theorem addWindows_cons (first : ℚ) (sizes : List ℚ) : addWindows (first :: sizes) =
      ⟨some (latestLarger first sizes), some (latestLarger first sizes), some first, true⟩ := by
  induction sizes using List.reverseRecOn with
  | nil => simp [addWindows, addWindow, fsteMNewWindowIsLarger, fsteMCreateEmptyWindowExprs,
      noWindow, latestLarger]
  | append_singleton sizes size ih =>
    unfold addWindows at ih ⊢
    rw [← cons_append, foldl_append, ih, latestLarger_concat]
    by_cases larger : first < size <;>
      simp [addWindow, fsteMNewWindowIsLarger, larger]

theorem largest_le_iff (first size : ℚ) (sizes : List ℚ) :
    sizes.foldl max first ≤ size ↔ first ≤ size ∧ ∀ before ∈ sizes, before ≤ size := by
  induction sizes generalizing first with
  | nil => simp
  | cons next sizes ih => simp [ih, and_assoc]

theorem latestLarger_concat_max_iff {first size : ℚ} {sizes : List ℚ}
    (largest : latestLarger first sizes = sizes.foldl max first) :
    latestLarger first (sizes ++ [size]) = (sizes ++ [size]).foldl max first ↔
      ∀ before ∈ sizes, first < size → before ≤ size := by
  rw [latestLarger_concat, largest, foldl_append, foldl_cons, foldl_nil]
  by_cases larger : first < size
  · rw [if_pos larger, eq_comm, max_eq_right_iff, largest_le_iff]
    exact ⟨fun all before member _ => all.2 before member,
      fun all => ⟨larger.le, fun before member => all before member larger⟩⟩
  · have bound : first ≤ sizes.foldl max first := ((largest_le_iff first _ sizes).mp le_rfl).1
    rw [if_neg larger, max_eq_left ((not_lt.mp larger).trans bound)]
    exact ⟨fun _ before _ above => absurd above larger, fun _ => rfl⟩

theorem latestLarger_max_iff (first : ℚ) (sizes : List ℚ) :
    (∀ earlier, earlier <+: sizes → latestLarger first earlier = earlier.foldl max first) ↔
      sizes.Pairwise fun before size => first < size → before ≤ size := by
  induction sizes using List.reverseRecOn with
  | nil => simp [latestLarger]
  | append_singleton sizes size ih =>
    simp only [prefix_concat_iff, pairwise_append, mem_singleton, forall_eq,
      pairwise_singleton, true_and]
    rw [← ih]
    constructor
    · intro largest
      have before := fun earlier isPrefix => largest earlier (.inr isPrefix)
      exact ⟨before, (latestLarger_concat_max_iff (before sizes (prefix_refl sizes))).mp
        (largest _ (.inl rfl))⟩
    · rintro ⟨before, last⟩ earlier (rfl | isPrefix)
      · exact (latestLarger_concat_max_iff (before sizes (prefix_refl sizes))).mpr last
      · exact before earlier isPrefix

/-- In every sequence of windows, the size that admits tuples and expires sub-SteMs is at all times
the largest of those added, just when each size above the first one is at least as large as all
before it. -/
theorem shared_window_largest_iff (sizes : List ℚ) :
    (∀ earlier, earlier <+: sizes → (addWindows earlier).sameStem = earlier.max? ∧
        (addWindows earlier).stemExpired = earlier.max?) ↔
      ∀ first, sizes.head? = some first →
        sizes.Pairwise fun before size => first < size → before ≤ size := by
  cases sizes with
  | nil => simp [addWindows, noWindow]
  | cons first sizes =>
    have head : (∀ other, (first :: sizes).head? = some other → (first :: sizes).Pairwise
        fun before size => other < size → before ≤ size) ↔
        sizes.Pairwise fun before size => first < size → before ≤ size := by
      simp only [head?_cons, Option.some.injEq, forall_eq', pairwise_cons]
      exact ⟨fun both => both.2, fun later => ⟨fun size _ larger => larger.le, later⟩⟩
    rw [head, ← latestLarger_max_iff]
    constructor
    · intro largest earlier isPrefix
      have now := (largest (first :: earlier) (cons_prefix_cons.mpr ⟨rfl, isPrefix⟩)).1
      rw [addWindows_cons, max?_cons'] at now
      exact Option.some.inj now
    · intro largest earlier isPrefix
      cases earlier with
      | nil => exact ⟨rfl, rfl⟩
      | cons other earlier =>
        obtain ⟨rfl, rest⟩ := cons_prefix_cons.mp isPrefix
        rw [addWindows_cons, max?_cons', largest earlier rest]
        exact ⟨rfl, rfl⟩

/-- The third query shortens the window of the second. -/
theorem window_shortened :
    (addWindows [5, 10]).sameStem = some 10 ∧ (addWindows [5, 10, 7]).sameStem = some 7 ∧
      (addWindows [5, 10, 7]).stemExpired = some 7 := by
  decide +kernel

end TelegraphCQ.Stems
