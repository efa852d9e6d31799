import Mathlib.Data.Finset.Card

/-!
# Permuting rows in place

Rows at the positions below `size` are brought to their destinations by exchanges alone.
A second table tells for each position where its row came from.  At each position the row
that lies there is sent to its destination, and the row it is exchanged with is looked at
next, until the position has its own row.
-/

namespace TelegraphCQ.Foundation

open Function

def exchange {Row : Type*} (a b : Nat) (rows : Nat → Row) : Nat → Row :=
  update (update rows a (rows b)) b (rows a)

theorem exchange_eq_swap {Row : Type*} (a b : Nat) (rows : Nat → Row) :
    exchange a b rows = rows ∘ Equiv.swap a b := by
  funext j
  rw [exchange, comp_apply, Equiv.swap_apply_def]
  by_cases second : j = b
  · subst second
    by_cases same : j = a
    · simp [same]
    · simp [same]
  · by_cases first : j = a
    · simp [first, show ¬ a = b from first ▸ second]
    · simp [first, second]

section InPlace

variable {State : Type*} (swap : Nat → Nat → State → State) (perm : Nat → Nat)

/-- The inner loop, over the state and the origins; `none` when the rounds are used up. -/
def settle (i : Nat) : Nat → State → (Nat → Nat) → Option (State × (Nat → Nat))
  | 0, _, _ => none
  | rounds + 1, state, origin =>
    let dloc := perm (origin i)
    if i = dloc then some (state, origin)
    else settle i rounds (swap i dloc state) (exchange i dloc origin)

def settleAll (size : Nat) : List Nat → State → (Nat → Nat) → Option (State × (Nat → Nat))
  | [], state, origin => some (state, origin)
  | i :: rest, state, origin => do
      let (state, origin) ← settle swap perm i (size + 1) state origin
      settleAll size rest state origin

def permuteInPlace (size : Nat) (state : State) : Option State :=
  (settleAll swap perm size (List.range size) state id).map Prod.fst

/-! ## Where the rows are -/

variable {Row : Type*} (row : State → Nat → Row) (size : Nat) (start : State)

structure Shuffled (state : State) (origin : Nat → Nat) : Prop where
  rows : row state = row start ∘ origin
  bijective : Set.BijOn origin (Set.Iio size) (Set.Iio size)
  beyond : ∀ j, size ≤ j → origin j = j

theorem Shuffled.refl : Shuffled row size start start id := ⟨rfl, Set.bijOn_id _, fun _ _ => rfl⟩

variable {a b i : Nat} {origin : Nat → Nat} {keeps : State → Prop}

theorem swap_bijOn (a_lt : a < size) (b_lt : b < size) :
    Set.BijOn (Equiv.swap a b) (Set.Iio size) (Set.Iio size) := by
  have inside : Set.MapsTo (Equiv.swap a b) (Set.Iio size) (Set.Iio size) := by
    intro j j_lt
    rw [Equiv.swap_apply_def]
    split_ifs
    · exact b_lt
    · exact a_lt
    · exact j_lt
  refine ⟨inside, (Equiv.swap a b).injective.injOn, ?_⟩
  intro j j_lt
  exact ⟨Equiv.swap a b j, inside j_lt, Equiv.swap_apply_self a b j⟩

variable {row size start}

theorem Shuffled.exchanged {state : State}
    (swaps : ∀ a b state, row (swap a b state) = exchange a b (row state))
    (shuffled : Shuffled row size start state origin) (a_lt : a < size) (b_lt : b < size) :
    Shuffled row size start (swap a b state) (exchange a b origin) where
  rows := by
    rw [swaps, shuffled.rows, exchange_eq_swap, exchange_eq_swap, comp_assoc]
  bijective := by
    rw [exchange_eq_swap]
    exact shuffled.bijective.comp (swap_bijOn size a_lt b_lt)
  beyond := by
    intro j beyond
    rw [exchange_eq_swap, comp_apply, Equiv.swap_apply_of_ne_of_ne (by omega) (by omega)]
    exact shuffled.beyond j beyond

def unsettled (size : Nat) (origin : Nat → Nat) : Finset Nat :=
  {j ∈ Finset.range size | perm (origin j) ≠ j}

variable {perm}

theorem unsettled_exchange (permutes : Set.BijOn perm (Set.Iio size) (Set.Iio size))
    (bijective : Set.BijOn origin (Set.Iio size) (Set.Iio size)) (i_lt : i < size)
    (astray : i ≠ perm (origin i)) :
    unsettled perm size (exchange i (perm (origin i)) origin) ⊂ unsettled perm size origin := by
  have origin_lt : origin i < size := bijective.mapsTo i_lt
  have dest_lt : perm (origin i) < size := permutes.mapsTo origin_lt
  have dest_unsettled : perm (origin i) ∈ unsettled perm size origin := by
    refine Finset.mem_filter.mpr ⟨Finset.mem_range.mpr dest_lt, ?_⟩
    intro settled
    have same : origin (perm (origin i)) = origin i :=
      permutes.injOn (bijective.mapsTo dest_lt) origin_lt settled
    exact astray (bijective.injOn dest_lt i_lt same).symm
  have dest_settled :
      perm (origin i) ∉ unsettled perm size (exchange i (perm (origin i)) origin) := by
    intro member
    apply (Finset.mem_filter.mp member).2
    rw [exchange, update_self]
  refine (Finset.ssubset_iff_of_subset ?_).mpr ⟨_, dest_unsettled, dest_settled⟩
  intro j member
  obtain ⟨j_lt, wrong⟩ := Finset.mem_filter.mp member
  by_cases dest : j = perm (origin i)
  · exact dest ▸ dest_unsettled
  · by_cases here : j = i
    · subst here
      exact Finset.mem_filter.mpr ⟨j_lt, fun settled => astray settled.symm⟩
    · rw [exchange, update_of_ne dest, update_of_ne here] at wrong
      exact Finset.mem_filter.mpr ⟨j_lt, wrong⟩

variable {swap}

section

variable (swaps : ∀ a b state, row (swap a b state) = exchange a b (row state))
include swaps

section

variable (kept : ∀ a b state, keeps state → keeps (swap a b state))
  (permutes : Set.BijOn perm (Set.Iio size) (Set.Iio size))
include kept permutes

theorem settle_spec (i_lt : i < size) (rounds : Nat) (state : State) (origin : Nat → Nat)
    (shuffled : Shuffled row size start state origin) (good : keeps state)
    (enough : (unsettled perm size origin).card < rounds) :
    ∃ state' origin', settle swap perm i rounds state origin = some (state', origin') ∧
      Shuffled row size start state' origin' ∧ keeps state' ∧
      unsettled perm size origin' ⊆ (unsettled perm size origin).erase i := by
  induction rounds generalizing state origin with
  | zero => omega
  | succ rounds ih =>
    rw [settle]
    by_cases settled : i = perm (origin i)
    · refine ⟨state, origin, if_pos settled, shuffled, good, ?_⟩
      intro j member
      refine Finset.mem_erase.mpr ⟨?_, member⟩
      rintro rfl
      exact (Finset.mem_filter.mp member).2 settled.symm
    · have fewer := unsettled_exchange permutes shuffled.bijective i_lt settled
      have dest_lt : perm (origin i) < size := permutes.mapsTo (shuffled.bijective.mapsTo i_lt)
      obtain ⟨state', origin', runs, shuffled', good', left⟩ :=
        ih (swap i (perm (origin i)) state) (exchange i (perm (origin i)) origin)
          (shuffled.exchanged swap swaps i_lt dest_lt) (kept _ _ _ good)
          (Nat.lt_of_lt_of_le (Finset.card_lt_card fewer) (Nat.lt_succ_iff.mp enough))
      refine ⟨state', origin', by rw [if_neg settled, runs], shuffled', good', ?_⟩
      exact left.trans (Finset.erase_subset_erase i fewer.subset)

theorem settleAll_spec (todo : List Nat) (todo_lt : ∀ i ∈ todo, i < size) (state : State)
    (origin : Nat → Nat) (shuffled : Shuffled row size start state origin) (good : keeps state) :
    ∃ state' origin', settleAll swap perm size todo state origin = some (state', origin') ∧
      Shuffled row size start state' origin' ∧ keeps state' ∧
      ∀ j ∈ unsettled perm size origin', j ∈ unsettled perm size origin ∧ j ∉ todo := by
  induction todo generalizing state origin with
  | nil => exact ⟨state, origin, rfl, shuffled, good, fun j member => ⟨member, by simp⟩⟩
  | cons i rest ih =>
    have few : (unsettled perm size origin).card ≤ size :=
      (Finset.card_filter_le _ _).trans_eq (Finset.card_range size)
    obtain ⟨state₁, origin₁, runs₁, shuffled₁, good₁, left₁⟩ :=
      settle_spec swaps kept permutes (todo_lt i (by simp)) (size + 1) state origin
        shuffled good (Nat.lt_succ_of_le few)
    obtain ⟨state', origin', runs, shuffled', good', left⟩ :=
      ih (fun j member => todo_lt j (by simp [member])) state₁ origin₁ shuffled₁ good₁
    refine ⟨state', origin', by simp [settleAll, runs₁, runs], shuffled', good', ?_⟩
    intro j member
    obtain ⟨before, absent⟩ := left j member
    obtain ⟨other, earlier⟩ := Finset.mem_erase.mp (left₁ before)
    exact ⟨earlier, by simp [other, absent]⟩

theorem permuteInPlace_spec (good : keeps start) :
    ∃ final, permuteInPlace swap perm size start = some final ∧ keeps final ∧
      (∀ p < size, row final (perm p) = row start p) ∧
      ∀ j, size ≤ j → row final j = row start j := by
  obtain ⟨final, origin, runs, shuffled, good', left⟩ :=
    settleAll_spec swaps kept permutes (List.range size) (fun i => List.mem_range.mp)
      start id (Shuffled.refl row size start) good
  refine ⟨final, by rw [permuteInPlace, runs, Option.map_some], good', ?_, ?_⟩
  · intro p p_lt
    have dest_lt : perm p < size := permutes.mapsTo p_lt
    have settled : perm (origin (perm p)) = perm p := by
      by_contra wrong
      have member : perm p ∈ unsettled perm size origin :=
        Finset.mem_filter.mpr ⟨Finset.mem_range.mpr dest_lt, wrong⟩
      exact (left _ member).2 (List.mem_range.mpr dest_lt)
    have home : origin (perm p) = p :=
      permutes.injOn (shuffled.bijective.mapsTo dest_lt) p_lt settled
    rw [shuffled.rows, comp_apply, home]
  · intro j beyond
    rw [shuffled.rows, comp_apply, shuffled.beyond j beyond]

end

end

end InPlace

end TelegraphCQ.Foundation
