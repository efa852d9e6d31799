import Mathlib.Algebra.Order.Field.Rat

/-!
# Skipping by cumulative probabilities

`skip_random` looks for a random number among cumulative probabilities (`histogram.c`).  Its
search stops at index 0 without a comparison, and the midpoint of -1 and 2 is 0: index 1 is
then passed over.
-/

namespace TelegraphCQ.Shedding

variable {Number : Type} [LinearOrder Number]

def skipLoop (array : Nat → Number) (length : Nat) (r : Number) : Nat → Int → Int → Option Int
  | 0, _, _ => none
  | rounds + 1, low, high =>
    let i := (high + low).tdiv 2
    if i = 0 ∨ i = length - 1 then some (i + 1)
    else if r < array i.toNat ∧ array (i - 1).toNat ≤ r then some (i + 1)
    else if r < array i.toNat then skipLoop array length r rounds low i
    else skipLoop array length r rounds i high

def skipRandom (array : Nat → Number) (length : Nat) (r : Number) (rounds : Nat) : Option Int :=
  skipLoop array length r rounds (-1) length

def Lands (array : Nat → Number) (length : Nat) (r : Number) (i : Nat) : Prop :=
  i < length ∧ (∀ j < i, array j ≤ r) ∧ (i + 1 = length ∨ r < array i)

section Search

variable {array : Nat → Number} {length low high m rounds : Nat} {r : Number}

theorem skipLoop_step {low high : Int} (mid : (high + low).tdiv 2 = m) (more : 0 < rounds) :
    skipLoop array length r rounds low high = if m = 0 ∨ m + 1 = length then some (m + 1 : Int)
      else if r < array m ∧ array (m - 1) ≤ r then some (m + 1 : Int)
      else if r < array m then skipLoop array length r (rounds - 1) low m
      else skipLoop array length r (rounds - 1) m high := by
  obtain ⟨rest, rfl⟩ : ∃ rest, rounds = rest + 1 := ⟨rounds - 1, by omega⟩
  have ends : (m : Int) = 0 ∨ (m : Int) = length - 1 ↔ m = 0 ∨ m + 1 = length := by omega
  have before : ((m : Int) - 1).toNat = m - 1 := by omega
  simp only [skipLoop, mid, ends, before, Int.toNat_natCast, Nat.add_sub_cancel]

variable (nondecreasing : ∀ i j, i ≤ j → j < length → array i ≤ array j)
include nondecreasing

theorem lands_of_le (inside : m < length) (passed : array (m - 1) ≤ r)
    (stops : m + 1 = length ∨ r < array m) : Lands array length r m :=
  ⟨inside, fun j lt => (nondecreasing j (m - 1) (by omega) (by omega)).trans passed, stops⟩

/-- From an entry that does not exceed `r` on, the search is right. -/
theorem skipLoop_above (gap : low + 1 < high) (le : high ≤ length) (passed : array low ≤ r)
    (bounded : high = length ∨ r < array (high - 1)) :
    ∃ i : Nat, Lands array length r i ∧ ∀ rounds, high ≤ rounds + low →
      skipLoop array length r rounds low high = some (i + 1 : Int) := by
  induction size : high - low using Nat.strong_induction_on generalizing low high with
  | h size ih =>
    obtain ⟨m, middle⟩ : ∃ m, m = (high + low) / 2 := ⟨_, rfl⟩
    have mid : ((high : Int) + low).tdiv 2 = m := by
      rw [Int.tdiv_eq_ediv_of_nonneg (by omega)]
      omega
    by_cases last : m + 1 = length
    · refine ⟨m, lands_of_le nondecreasing (by omega) ?_ (.inl last), fun rounds enough => ?_⟩
      · rwa [show m - 1 = low by omega]
      · rw [skipLoop_step mid (by omega), if_pos (.inr last)]
    have inner : ¬(m = 0 ∨ m + 1 = length) := by omega
    by_cases found : r < array m ∧ array (m - 1) ≤ r
    · refine ⟨m, lands_of_le nondecreasing (by omega) found.2 (.inr found.1),
        fun rounds enough => ?_⟩
      rw [skipLoop_step mid (by omega), if_neg inner, if_pos found]
    by_cases below : r < array m
    · -- the entry before `m` exceeds `r` too, so `low` is not that entry
      have before : r < array (m - 1) := lt_of_not_ge fun le => found ⟨below, le⟩
      have apart : low + 1 < m := by
        by_contra near
        rw [show m - 1 = low by omega] at before
        exact absurd passed before.not_ge
      obtain ⟨i, lands, search⟩ := ih (m - low) (by omega) apart (by omega) passed
        (.inr before) rfl
      refine ⟨i, lands, fun rounds enough => ?_⟩
      rw [skipLoop_step mid (by omega), if_neg inner, if_neg found, if_pos below,
        search _ (by omega)]
    · have apart : m + 1 < high := by
        rcases bounded with all | exceeds
        · omega
        · by_contra near
          rw [show high - 1 = m by omega] at exceeds
          exact below exceeds
      obtain ⟨i, lands, search⟩ := ih (high - m) (by omega) apart le (le_of_not_gt below)
        bounded rfl
      refine ⟨i, lands, fun rounds enough => ?_⟩
      rw [skipLoop_step mid (by omega), if_neg inner, if_neg found, if_neg below,
        search _ (by omega)]

/-- The halvings that start at `high` come to 2. -/
def Halves (high : Nat) : Prop := ∃ n, 3 * 2 ^ n ≤ high + 1 ∧ high + 1 < 4 * 2 ^ n

omit nondecreasing in
theorem halves_half (three : 3 ≤ high) : Halves ((high - 1) / 2) ↔ Halves high := by
  constructor
  · rintro ⟨n, least, most⟩
    exact ⟨n + 1, by rw [Nat.pow_succ]; omega, by rw [Nat.pow_succ]; omega⟩
  · rintro ⟨_ | n, least, most⟩
    · omega
    · rw [Nat.pow_succ] at least most
      exact ⟨n, by omega, by omega⟩

/-- Before the first comparison that raises `low`, index 1 is missed at `high = 2`. -/
theorem skipLoop_below (pos : 0 < high) (le : high ≤ length)
    (bounded : high = length ∨ r < array (high - 1)) : ∃ i : Nat, (∀ rounds, high < rounds →
        skipLoop array length r rounds (-1) high = some (i + 1 : Int)) ∧
      (Lands array length r i ↔ ¬(Lands array length r 1 ∧ Halves high)) := by
  induction high using Nat.strong_induction_on with
  | h high ih =>
    obtain ⟨m, middle⟩ : ∃ m, m = (high - 1) / 2 := ⟨_, rfl⟩
    have mid : ((high : Int) + -1).tdiv 2 = m := by
      rw [Int.tdiv_eq_ediv_of_nonneg (by omega)]
      omega
    by_cases zero : m = 0
    · refine ⟨m, fun rounds enough => by rw [skipLoop_step mid (by omega), if_pos (.inl zero)], ?_⟩
      subst zero
      rcases (by omega : high = 1 ∨ high = 2) with rfl | rfl
      · have first : Lands array length r 0 := ⟨pos.trans_le le, by simp, bounded.imp id id⟩
        have small : ¬Halves 1 := by
          rintro ⟨n, least, -⟩
          have := Nat.one_le_two_pow (n := n)
          omega
        simp only [first, small, and_false, not_false_eq_true]
      · have hit : Halves 2 := ⟨0, by decide, by decide⟩
        have second : Lands array length r 1 ↔ array 0 ≤ r := by
          simp [Lands, show 1 < length by omega, bounded]
        have first : Lands array length r 0 ↔ r < array 0 := by
          simp [Lands, show 0 < length by omega, show 1 ≠ length by omega]
        rw [first, second, and_iff_left hit, not_le]
    have inner : ¬(m = 0 ∨ m + 1 = length) := by omega
    by_cases found : r < array m ∧ array (m - 1) ≤ r
    · refine ⟨m, fun rounds enough => by
        rw [skipLoop_step mid (by omega), if_neg inner, if_pos found], iff_of_true
          (lands_of_le nondecreasing (by omega) found.2 (.inr found.1)) ?_⟩
      rintro ⟨⟨-, -, stops⟩, n, least, most⟩
      have one : r < array 1 := stops.resolve_left (by omega)
      by_cases next : m = 1
      · -- `high` is 3 or 4, and neither comes to 2
        rcases n with _ | n
        · omega
        · rw [Nat.pow_succ] at least
          have := Nat.one_le_two_pow (n := n)
          omega
      · have le := nondecreasing 1 (m - 1) (by omega) (by omega)
        exact absurd found.2 (one.trans_le le).not_ge
    by_cases below : r < array m
    · have before : r < array (m - 1) := lt_of_not_ge fun le => found ⟨below, le⟩
      obtain ⟨i, search, right⟩ := ih m (by omega) (by omega) (by omega) (.inr before)
      refine ⟨i, fun rounds enough => ?_, ?_⟩
      · rw [skipLoop_step mid (by omega), if_neg inner, if_neg found, if_pos below,
          search _ (by omega)]
      · rw [right, middle, halves_half (by omega)]
    · obtain ⟨i, lands, search⟩ := skipLoop_above nondecreasing (by omega) le
        (le_of_not_gt below) bounded
      refine ⟨i, fun rounds enough => ?_, iff_of_true lands ?_⟩
      · rw [skipLoop_step mid (by omega), if_neg inner, if_neg found, if_neg below,
          search _ (by omega)]
      · rintro ⟨⟨-, -, stops⟩, -⟩
        have one : r < array 1 := stops.resolve_left (by omega)
        exact below (one.trans_le (nondecreasing 1 m (by omega) (by omega)))

end Search

/-- The search returns the right position unless that is the second one and the length is one
whose halvings come to 2. -/
theorem skipRandom_right_iff (array : Nat → Number) (length : Nat) (r : Number)
    (nonempty : 0 < length) (nondecreasing : ∀ i j, i ≤ j → j < length → array i ≤ array j) :
    ∃ i : Nat, (∀ rounds, length < rounds → skipRandom array length r rounds = some (i + 1 : Int)) ∧
      (Lands array length r i ↔ ¬(Lands array length r 1 ∧ Halves length)) :=
  skipLoop_below nondecreasing nonempty le_rfl (.inl rfl)

theorem skipRandom_right_iff_three :
    ∃ i : Nat, (∀ rounds, 3 < rounds → skipRandom (fun i => i) 3 1 rounds = some (i + 1 : Int)) ∧
      (Lands (fun i => i) 3 1 i ↔ ¬(Lands (fun i => i) 3 1 1 ∧ Halves 3)) :=
  skipRandom_right_iff (fun i => i) 3 1 (by decide) fun _ _ le _ => le

/-- Of two entries the first does not exceed `r`, and the search answers with it. -/
theorem skipRandom_misses_second :
    skipRandom (fun i => i + 1) 2 1 3 = some 1 ∧ Lands (fun i => i + 1) 2 1 1 ∧
      ¬Lands (fun i => i + 1) 2 1 0 := by
  refine ⟨by decide, ⟨by decide, fun j lt => ?_, .inl rfl⟩, fun lands => ?_⟩
  · rw [Nat.lt_one_iff.1 lt]
  · exact absurd lands.2.2 (by decide)

end TelegraphCQ.Shedding
