import TelegraphCQ.Window.FAgg

/-!
# Lifetimes of tuples

A tuple is live at a time exactly when the window that ended last by then holds it.
-/

namespace TelegraphCQ.Window

variable {Tuple : Type}

def LastEnded (spec : WindowSpec) (t k : Int) : Prop :=
  1 ≤ k ∧ windowEnd spec k ≤ t ∧ ∀ j, 1 ≤ j → windowEnd spec j ≤ t → j ≤ k

def LiveAt (lifetime : Timestamp × Option Timestamp) (t : Int) : Prop :=
  lifetime.1 ≤ .at t ∧ ∃ death, lifetime.2 = some death ∧ Timestamp.at t < death

section Positive

variable {spec : WindowSpec} (nonFinite : Int → Int)

theorem lastEnded_pred_firstWindowPast (positive : 0 < spec.slideBy) {t j : Int}
    (counted : 1 ≤ j) (ended : windowEnd spec j ≤ t) :
    LastEnded spec t (firstWindowPast nonFinite spec t - 1) := by
  have past := lt_windowEnd_firstWindowPast nonFinite positive t
  have later : ∀ i, windowEnd spec i ≤ t → i < firstWindowPast nonFinite spec t := by
    intro i iEnded
    rw [← windowEnd_lt_iff positive]
    exact lt_of_le_of_lt iEnded past
  have jBefore := later j ended
  refine ⟨by omega, windowEnd_pred_firstWindowPast_le nonFinite positive (by omega), ?_⟩
  intro i _ iEnded
  have iBefore := later i iEnded
  omega

theorem between_iff_of_lastEnded (positive : 0 < spec.slideBy) {t k first last : Int}
    (lastEnded : LastEnded spec t k) (counted : 1 ≤ first) (ordered : first ≤ last) :
    first ≤ k ∧ k ≤ last ↔ windowEnd spec first ≤ t ∧ t < windowEnd spec (last + 1) := by
  obtain ⟨-, ended, latest⟩ := lastEnded
  constructor
  · rintro ⟨above, below⟩
    refine ⟨((windowEnd_le_iff positive).mpr above).trans ended, ?_⟩
    by_contra reached
    have beyond := latest (last + 1) (by omega) (not_lt.mp reached)
    omega
  · rintro ⟨born, alive⟩
    refine ⟨latest first counted born, ?_⟩
    have before := lt_of_le_of_lt ended alive
    rw [windowEnd_lt_iff positive] at before
    omega

end Positive

end TelegraphCQ.Window
