import Mathlib.Tactic.Linarith
import Mathlib.Tactic.Ring

/-!
# Window numbering

The window functions of `window.c` over exact integer time.  A window clause
gives the start of the first window, the width of every window and the distance
between two consecutive ones; windows are numbered from one.

The source computes window numbers by dividing two intervals as doubles and
converting the quotient to `int`, which truncates toward zero.  A zero slide
makes the quotient infinite or not a number, and the conversion is then
undefined: `nonFinite` stands for whatever it yields.
-/

namespace TelegraphCQ.Window

/-- The `START AT`, `RANGE BY` and `SLIDE BY` parameters of a window clause. -/
structure WindowSpec where
  startAt : Int
  rangeBy : Int
  slideBy : Int
  deriving DecidableEq, Repr

/-- The `int` conversion of the double quotient of two intervals. -/
def intQuotient (nonFinite : Int → Int) (dividend divisor : Int) : Int :=
  if divisor = 0 then nonFinite dividend else dividend.tdiv divisor

def windowBegin (spec : WindowSpec) (windowNum : Int) : Int :=
  spec.startAt + spec.slideBy * (windowNum - 1)

def windowEnd (spec : WindowSpec) (windowNum : Int) : Int :=
  windowBegin spec windowNum + spec.rangeBy

def timestampPastWindow (spec : WindowSpec) (ts windowNum : Int) : Bool :=
  !decide (ts < windowEnd spec windowNum)

/-- The number of the first window whose right end lies strictly past `ts`,
with the source's correction for an undershoot. -/
def firstWindowPast (nonFinite : Int → Int) (spec : WindowSpec) (ts : Int) :
    Int :=
  let windowNum := intQuotient nonFinite
    (2 * spec.slideBy + (ts - (spec.startAt + spec.rangeBy))) spec.slideBy
  if windowEnd spec windowNum ≤ ts then windowNum + 1 else windowNum

def firstWindowNo (nonFinite : Int → Int) (spec : WindowSpec) (ts : Int) :
    Int :=
  let past := firstWindowPast nonFinite spec ts
  let windowNum := if past < 1 then 1 else past
  if windowBegin spec windowNum ≤ ts then windowNum else -1

def lastWindowNo (nonFinite : Int → Int) (spec : WindowSpec) (ts : Int) :
    Int :=
  let windowNum := intQuotient nonFinite
    (ts - spec.startAt + spec.slideBy) spec.slideBy
  if timestampPastWindow spec ts windowNum then -1 else windowNum

def InWindow (spec : WindowSpec) (windowNum ts : Int) : Prop :=
  windowBegin spec windowNum ≤ ts ∧ ts < windowEnd spec windowNum

instance (spec : WindowSpec) (windowNum ts : Int) :
    Decidable (InWindow spec windowNum ts) :=
  inferInstanceAs (Decidable (_ ∧ _))

section Positive

variable {spec : WindowSpec} (nonFinite : Int → Int)

theorem windowBegin_succ (spec : WindowSpec) (windowNum : Int) : windowBegin spec (windowNum + 1) =
      windowBegin spec windowNum + spec.slideBy := by
  simp only [windowBegin]
  ring

variable {a b dividend divisor k ts : Int}

section

variable (positive : 0 < spec.slideBy)
include positive

theorem windowBegin_le_iff : windowBegin spec a ≤ windowBegin spec b ↔ a ≤ b := by
  simp only [windowBegin, add_le_add_iff_left]
  rw [mul_le_mul_iff_right₀ positive]
  omega

theorem windowEnd_le_iff : windowEnd spec a ≤ windowEnd spec b ↔ a ≤ b := by
  simp [windowEnd, windowBegin_le_iff positive]

theorem windowEnd_lt_iff : windowEnd spec a < windowEnd spec b ↔ a < b := by
  rw [← not_le, windowEnd_le_iff positive, not_le]

theorem windowEnd_inj : windowEnd spec a = windowEnd spec b ↔ a = b := by
  simp [le_antisymm_iff, windowEnd_le_iff positive]

end

private theorem intQuotient_bounds {dividend divisor : Int}
    (positive : 0 < divisor) (nonneg : 0 ≤ dividend) :
    divisor * intQuotient nonFinite dividend divisor ≤ dividend ∧
      dividend < divisor * (intQuotient nonFinite dividend divisor + 1) := by
  have nonzero : divisor ≠ 0 := positive.ne'
  simp only [intQuotient, nonzero, if_false]
  rw [Int.tdiv_eq_ediv_of_nonneg nonneg]
  constructor
  · exact Int.mul_ediv_self_le nonzero
  · exact Int.lt_mul_ediv_self_add positive |>.trans_eq (by ring)

private theorem intQuotient_nonpos (positive : 0 < divisor) (negative : dividend < 0) :
    intQuotient nonFinite dividend divisor ≤ 0 := by
  simp only [intQuotient, positive.ne', if_false]
  have opposite := Int.tdiv_nonneg (neg_nonneg.mpr negative.le) positive.le
  rw [Int.neg_tdiv] at opposite
  omega

private theorem intQuotient_bounds_of_neg (positive : 0 < divisor) (negative : dividend < 0) :
    dividend ≤ divisor * intQuotient nonFinite dividend divisor ∧
      divisor * (intQuotient nonFinite dividend divisor - 1) < dividend := by
  simp only [intQuotient, positive.ne', if_false]
  have exact := Int.mul_tdiv_add_tmod dividend divisor
  have small := Int.tmod_lt_of_pos (-dividend) positive
  have remainder := Int.tmod_nonneg divisor (neg_nonneg.mpr negative.le)
  rw [Int.neg_tmod] at small remainder
  constructor <;> linarith

theorem lt_windowEnd_firstWindowPast (positive : 0 < spec.slideBy) (ts : Int) :
    ts < windowEnd spec (firstWindowPast nonFinite spec ts) := by
  simp only [firstWindowPast]
  split
  · rename_i undershoot
    -- the correction cannot be needed on exact numbers
    exfalso
    rcases le_or_gt 0
        (2 * spec.slideBy + (ts - (spec.startAt + spec.rangeBy))) with h | h
    · have bounds := (intQuotient_bounds nonFinite positive h).2
      simp only [windowEnd, windowBegin] at undershoot
      linarith
    · simp only [windowEnd, windowBegin, intQuotient, positive.ne', if_false]
        at undershoot
      have exact := Int.mul_tdiv_add_tmod
        (2 * spec.slideBy + (ts - (spec.startAt + spec.rangeBy))) spec.slideBy
      have remainder := Int.tmod_nonneg spec.slideBy (neg_nonneg.mpr h.le)
      rw [Int.neg_tmod] at remainder
      linarith
  · rename_i fits
    exact not_le.mp fits

theorem windowEnd_pred_firstWindowPast_le (positive : 0 < spec.slideBy)
    {ts : Int} (counted : 0 < firstWindowPast nonFinite spec ts) :
    windowEnd spec (firstWindowPast nonFinite spec ts - 1) ≤ ts := by
  simp only [firstWindowPast] at counted ⊢
  split
  · rename_i undershoot
    simpa using undershoot
  · rename_i fits
    simp only [fits, if_false] at counted
    rcases le_or_gt 0
        (2 * spec.slideBy + (ts - (spec.startAt + spec.rangeBy))) with h | h
    · have bounds := (intQuotient_bounds nonFinite positive h).1
      simp only [windowEnd, windowBegin]
      linarith
    · have := intQuotient_nonpos nonFinite positive h
      omega

section

variable (positive : 0 < spec.slideBy)
include positive

theorem firstWindowPast_windowEnd (counted : 0 < k) :
    firstWindowPast nonFinite spec (windowEnd spec k) = k + 1 := by
  have upper := lt_windowEnd_firstWindowPast nonFinite positive (windowEnd spec k)
  rw [windowEnd_lt_iff positive] at upper
  have lower : windowEnd spec
      (firstWindowPast nonFinite spec (windowEnd spec k) - 1) ≤ windowEnd spec k :=
    windowEnd_pred_firstWindowPast_le nonFinite positive (by omega)
  rw [windowEnd_le_iff positive] at lower
  omega

theorem firstWindowNo_spec (found : firstWindowNo nonFinite spec ts ≠ -1) :
    1 ≤ firstWindowNo nonFinite spec ts ∧ windowBegin spec (firstWindowNo nonFinite spec ts) ≤ ts ∧
      ∀ k, 1 ≤ k → (firstWindowNo nonFinite spec ts ≤ k ↔ ts < windowEnd spec k) := by
  have past := lt_windowEnd_firstWindowPast nonFinite positive ts
  have before := @windowEnd_pred_firstWindowPast_le spec nonFinite positive ts
  by_cases below : firstWindowPast nonFinite spec ts < 1
  · simp only [firstWindowNo, below, if_true] at found ⊢
    split at found
    · rename_i began
      simp only [began, if_true, le_refl, true_and]
      intro k counted
      refine ⟨fun _ => lt_of_lt_of_le past ?_, fun _ => counted⟩
      rw [windowEnd_le_iff positive]
      omega
    · exact absurd rfl found
  · simp only [firstWindowNo, below, if_false] at found ⊢
    split at found
    · rename_i began
      simp only [began, if_true, true_and]
      refine ⟨by omega, fun k _ => ⟨fun h => ?_, fun h => ?_⟩⟩
      · exact lt_of_lt_of_le past ((windowEnd_le_iff positive).mpr h)
      · have := lt_of_le_of_lt (before (by omega)) h
        rw [windowEnd_lt_iff positive] at this
        omega
    · exact absurd rfl found

theorem firstWindowNo_eq_neg_one (missing : firstWindowNo nonFinite spec ts = -1) (counted : 1 ≤ k)
    : ¬ InWindow spec k ts := by
  rintro ⟨began, unfinished⟩
  have before := @windowEnd_pred_firstWindowPast_le spec nonFinite positive ts
  have holds : ∀ windowNum, windowNum ≤ k → windowBegin spec windowNum ≤ ts := fun windowNum h =>
    ((windowBegin_le_iff positive).mpr h).trans began
  by_cases below : firstWindowPast nonFinite spec ts < 1
  · simp [firstWindowNo, below, holds 1 counted] at missing
  · have least := lt_of_le_of_lt (before (by omega)) unfinished
    rw [windowEnd_lt_iff positive] at least
    have begun := holds (firstWindowPast nonFinite spec ts) (by omega)
    simp only [firstWindowNo, below, if_false, begun, if_true] at missing
    omega

theorem lastWindowNo_spec (counted : 1 ≤ k) (held : InWindow spec k ts) (j : Int) :
    j ≤ lastWindowNo nonFinite spec ts ↔ windowBegin spec j ≤ ts := by
  obtain ⟨began, unfinished⟩ := held
  have started : spec.startAt ≤ ts := by
    refine le_trans ?_ ((windowBegin_le_iff positive).mpr counted |>.trans began)
    simp [windowBegin]
  have nonneg : 0 ≤ ts - spec.startAt + spec.slideBy := by omega
  obtain ⟨lower, upper⟩ := intQuotient_bounds nonFinite positive nonneg
  have greatest : ∀ j, j ≤ intQuotient nonFinite
      (ts - spec.startAt + spec.slideBy) spec.slideBy ↔ windowBegin spec j ≤ ts := by
    intro j
    simp only [windowBegin]
    constructor
    · intro h
      have := mul_le_mul_of_nonneg_left h positive.le
      linarith
    · intro h
      by_contra above
      have := mul_le_mul_of_nonneg_left (not_le.mp above) positive.le
      linarith
  have within : timestampPastWindow spec ts (intQuotient nonFinite
      (ts - spec.startAt + spec.slideBy) spec.slideBy) = false := by
    simp only [timestampPastWindow, Bool.not_eq_false', decide_eq_true_eq]
    exact lt_of_lt_of_le unfinished
      ((windowEnd_le_iff positive).mpr ((greatest k).mpr began))
  simp only [lastWindowNo, within, Bool.false_eq_true, if_false]
  exact greatest j

theorem inWindow_iff (counted : 1 ≤ k) : InWindow spec k ts ↔ firstWindowNo nonFinite spec ts ≠ -1 ∧
      firstWindowNo nonFinite spec ts ≤ k ∧ k ≤ lastWindowNo nonFinite spec ts := by
  constructor
  · intro held
    have found : firstWindowNo nonFinite spec ts ≠ -1 := fun missing =>
      firstWindowNo_eq_neg_one nonFinite positive missing counted held
    obtain ⟨_, _, least⟩ := firstWindowNo_spec nonFinite positive found
    exact ⟨found, (least k counted).mpr held.2,
      (lastWindowNo_spec nonFinite positive counted held k).mpr held.1⟩
  · rintro ⟨found, firstLe, leLast⟩
    obtain ⟨positiveFirst, began, least⟩ := firstWindowNo_spec nonFinite positive found
    have heldFirst : InWindow spec (firstWindowNo nonFinite spec ts) ts :=
      ⟨began, (least _ positiveFirst).mp (le_refl _)⟩
    exact ⟨(lastWindowNo_spec nonFinite positive positiveFirst heldFirst k).mp leLast,
      (least k counted).mp firstLe⟩

end

theorem firstWindowNo_pos (positive : 0 < spec.slideBy) {ts : Int}
    (found : firstWindowNo nonFinite spec ts ≠ -1) : 1 ≤ firstWindowNo nonFinite spec ts :=
  (firstWindowNo_spec nonFinite positive found).1

theorem firstWindowNo_le_lastWindowNo (positive : 0 < spec.slideBy) {ts : Int}
    (found : firstWindowNo nonFinite spec ts ≠ -1) :
    firstWindowNo nonFinite spec ts ≤ lastWindowNo nonFinite spec ts := by
  obtain ⟨positiveFirst, began, least⟩ := firstWindowNo_spec nonFinite positive found
  have held : InWindow spec (firstWindowNo nonFinite spec ts) ts :=
    ⟨began, (least _ positiveFirst).mp (le_refl _)⟩
  exact ((inWindow_iff nonFinite positive positiveFirst).mp held).2.2

theorem lt_windowEnd_iff (positive : 0 < spec.slideBy)
    (found : firstWindowNo nonFinite spec ts ≠ -1) (counted : 1 ≤ k) :
    ts < windowEnd spec k ↔ firstWindowNo nonFinite spec ts ≤ k :=
  ((firstWindowNo_spec nonFinite positive found).2.2 k counted).symm

end Positive

/-! ## The numbers of the windows that hold a timestamp -/

/-- The number of a window that holds `ts` and that is preferred to all others that do, and -1 if
there is none. -/
def Numbers (preferred : Int → Int → Prop) (spec : WindowSpec) (ts answer : Int) : Prop :=
  (1 ≤ answer ∧ InWindow spec answer ts ∧
      ∀ k, 1 ≤ k → InWindow spec k ts → preferred answer k) ∨
    (answer = -1 ∧ ∀ k, 1 ≤ k → ¬ InWindow spec k ts)

/-- Before the first window starts, the last window number comes out as -1 only past the end of
window zero, or where the quotient itself is -1. -/
def WindowSpec.Numbered (spec : WindowSpec) (ts : Int) : Prop :=
  spec.startAt ≤ ts ∨ spec.startAt - spec.slideBy + spec.rangeBy ≤ ts ∨
    (spec.startAt - 3 * spec.slideBy < ts ∧ ts ≤ spec.startAt - 2 * spec.slideBy)

section Numbering

variable {spec : WindowSpec} (nonFinite : Int → Int)

theorem firstWindowNo_numbers (positive : 0 < spec.slideBy) (ts : Int) :
    Numbers (· ≤ ·) spec ts (firstWindowNo nonFinite spec ts) := by
  by_cases found : firstWindowNo nonFinite spec ts = -1
  · exact .inr ⟨found, fun k counted =>
      firstWindowNo_eq_neg_one nonFinite positive found counted⟩
  · obtain ⟨counted, began, least⟩ := firstWindowNo_spec nonFinite positive found
    refine .inl ⟨counted, ⟨began, (least _ counted).mp (le_refl _)⟩, fun k isWindow held => ?_⟩
    exact (least k isWindow).mpr held.2

theorem not_inWindow_of_before (positive : 0 < spec.slideBy) {ts k : Int}
    (early : ts < spec.startAt) (counted : 1 ≤ k) : ¬ InWindow spec k ts := by
  rintro ⟨began, -⟩
  have started := (windowBegin_le_iff positive).mpr counted |>.trans began
  simp only [windowBegin, sub_self, mul_zero, add_zero] at started
  omega

theorem lastWindowNo_numbers (positive : 0 < spec.slideBy) {ts : Int}
    (started : spec.startAt ≤ ts) : Numbers (· ≥ ·) spec ts (lastWindowNo nonFinite spec ts) := by
  obtain ⟨lower, upper⟩ := @intQuotient_bounds nonFinite (ts - spec.startAt + spec.slideBy)
    spec.slideBy positive (by omega)
  set last := intQuotient nonFinite (ts - spec.startAt + spec.slideBy) spec.slideBy with isLast
  have counted : 1 ≤ last := by
    by_contra below
    have := mul_le_mul_of_nonneg_left (show last + 1 ≤ 1 by omega) positive.le
    linarith
  have began : ∀ k, windowBegin spec k ≤ ts → k ≤ last := by
    intro k begun
    by_contra above
    have := mul_le_mul_of_nonneg_left (show last + 1 ≤ k by omega) positive.le
    simp only [windowBegin] at begun
    linarith
  simp only [lastWindowNo, ← isLast, timestampPastWindow]
  by_cases unfinished : ts < windowEnd spec last
  · simp only [unfinished, decide_true, Bool.not_true, Bool.false_eq_true, if_false]
    refine .inl ⟨counted, ⟨?_, unfinished⟩, fun k _ held => began k held.1⟩
    simp only [windowBegin]
    linarith
  · simp only [unfinished, decide_false, Bool.not_false, if_true]
    refine .inr ⟨rfl, fun k _ held => unfinished ?_⟩
    exact lt_of_lt_of_le held.2 ((windowEnd_le_iff positive).mpr (began k held.1))

theorem lastWindowNo_before (ranged : 0 < spec.rangeBy) (positive : 0 < spec.slideBy) {ts : Int}
    (early : ts < spec.startAt) : lastWindowNo nonFinite spec ts = -1 ↔ spec.Numbered ts := by
  simp only [WindowSpec.Numbered, lastWindowNo, timestampPastWindow, windowEnd, windowBegin]
  have cancel : ∀ a b, spec.slideBy * a < spec.slideBy * b → a < b := fun a b less =>
    lt_of_mul_lt_mul_left less positive.le
  rcases le_or_gt 0 (ts - spec.startAt + spec.slideBy) with h | h
  · -- the quotient is window zero, which may not have ended yet
    obtain ⟨lower, upper⟩ := intQuotient_bounds nonFinite positive h
    set last := intQuotient nonFinite (ts - spec.startAt + spec.slideBy) spec.slideBy
    have isZero : last = 0 := by
      have below := cancel last 1 (by linarith)
      have above := cancel 0 (last + 1) (by linarith)
      omega
    rw [isZero]
    by_cases within : ts < spec.startAt + spec.slideBy * (0 - 1) + spec.rangeBy
    · simp only [within, decide_true, Bool.not_true, Bool.false_eq_true, if_false, zero_eq_neg,
        one_ne_zero, false_iff, not_or, not_and]
      exact ⟨by omega, by linarith, fun _ => by omega⟩
    · simp only [within, decide_false, Bool.not_false, if_true, true_iff]
      exact .inr (.inl (by linarith))
  · -- the window of the quotient begins at `ts` or later, so it cannot have ended
    obtain ⟨lower, upper⟩ := intQuotient_bounds_of_neg nonFinite positive h
    set last := intQuotient nonFinite (ts - spec.startAt + spec.slideBy) spec.slideBy
    have within : ts < spec.startAt + spec.slideBy * (last - 1) + spec.rangeBy := by linarith
    simp only [within, decide_true, Bool.not_true, Bool.false_eq_true, if_false]
    constructor
    · intro isLast
      rw [isLast] at lower upper
      exact .inr (.inr ⟨by linarith, by linarith⟩)
    · rintro (started | ended | ⟨above, below⟩)
      · omega
      · omega
      · have atMost := cancel (last - 1) (-1) (by linarith)
        have atLeast := cancel (-2) last (by linarith)
        omega

end Numbering

/-! ## Time of day -/

/-- A `struct timeval`; its numbers are exact, so that no sum overflows. -/
structure Timeval where
  sec : Int
  usec : Int
  deriving DecidableEq, Repr

abbrev oneMillion : Int := 1000000

def Timeval.Normalized (tv : Timeval) : Prop :=
  0 ≤ tv.usec ∧ tv.usec < oneMillion

instance (tv : Timeval) : Decidable tv.Normalized :=
  inferInstanceAs (Decidable (_ ∧ _))

def tvDiff (earlier later : Timeval) : Int :=
  later.sec * oneMillion + later.usec - earlier.sec * oneMillion - earlier.usec

/-- Adds an offset in microseconds; `none` is a failed assertion.  There is no carry at exactly
one million. -/
def tvPlusInt (src : Timeval) (offset : Int) : Option Timeval :=
  let sec := src.sec + offset.tdiv oneMillion
  let usec := src.usec + offset.tmod oneMillion
  if usec > oneMillion then
    if usec < 2 * oneMillion then some ⟨sec + 1, usec - oneMillion⟩ else none
  else if usec < 0 then
    if usec ≥ -oneMillion then some ⟨sec - 1, usec + oneMillion⟩ else none
  else some ⟨sec, usec⟩

/-- The sum is normalized and lies the offset after its source, unless the microseconds of the two
add up to exactly one second. -/
theorem tvPlusInt_right_iff (src : Timeval) (offset : Int) (normalized : src.Normalized) :
    (∃ result, tvPlusInt src offset = some result ∧ result.Normalized ∧
        tvDiff src result = offset) ↔
      src.usec + offset.tmod oneMillion ≠ oneMillion := by
  obtain ⟨nonneg, small⟩ := normalized
  have below := Int.tmod_lt_of_pos offset (show 0 < oneMillion by decide)
  have above := Int.lt_tmod_of_pos offset (show 0 < oneMillion by decide)
  have divided := Int.mul_tdiv_add_tmod offset oneMillion
  simp only [tvPlusInt, Timeval.Normalized, tvDiff] at *
  constructor
  · rintro ⟨result, added, ⟨-, fits⟩, -⟩ full
    rw [full, if_neg (by decide), if_neg (by decide)] at added
    cases added
    exact lt_irrefl _ fits
  · intro uneven
    by_cases carry : src.usec + offset.tmod oneMillion > oneMillion
    · rw [if_pos carry, if_pos (by omega)]
      exact ⟨_, rfl, by dsimp only; omega, by linarith⟩
    · rw [if_neg carry]
      by_cases borrow : src.usec + offset.tmod oneMillion < 0
      · rw [if_pos borrow, if_pos (by omega)]
        exact ⟨_, rfl, by dsimp only; omega, by linarith⟩
      · rw [if_neg borrow]
        exact ⟨_, rfl, by dsimp only; omega, by linarith⟩

/-- Half a second after half a second is given with a million microseconds. -/
theorem half_seconds_not_carried :
    (⟨0, 500000⟩ : Timeval).Normalized ∧
      tvPlusInt ⟨0, 500000⟩ 500000 = some ⟨0, 1000000⟩ ∧
      ¬(⟨0, 1000000⟩ : Timeval).Normalized := by
  decide

/-- Back over the start of a second. -/
theorem tvPlusInt_right_borrowed :
    (⟨5, 200000⟩ : Timeval).Normalized ∧
      ((∃ result, tvPlusInt ⟨5, 200000⟩ (-700000) = some result ∧ result.Normalized ∧
          tvDiff ⟨5, 200000⟩ result = -700000) ↔
        200000 + (-700000 : Int).tmod oneMillion ≠ oneMillion) :=
  ⟨by decide, tvPlusInt_right_iff ⟨5, 200000⟩ (-700000) (by decide)⟩

end TelegraphCQ.Window
