import TelegraphCQ.Flux.TsbPool
import TelegraphCQ.Flux.TsbTransfer

/-!
# The pages of a moved skew buffer

The extraction goes through the lists of the partitions and puts as many records on a page
as fit on it.  `pageLengths` is how many these are.
-/

namespace TelegraphCQ.Flux

open Foundation List

/-! ## Pages -/

section Pages

variable (bsize : Nat)

def fitting : Nat → List Nat → Nat
  | _, [] => 0
  | pos, size :: sizes => if pos + size < bsize then fitting (pos + size) sizes + 1 else 0

def pageLengths : Nat → Nat → List Nat → List Nat
  | _, count, [] => [count]
  | pos, count, size :: sizes =>
    if pos + size < bsize then pageLengths (pos + size) (count + 1) sizes
    else count :: pageLengths (4 + size) 1 sizes

variable {bsize}

theorem fitting_le (pos : Nat) (sizes : List Nat) : fitting bsize pos sizes ≤ sizes.length := by
  induction sizes generalizing pos with
  | nil => exact Nat.le_refl 0
  | cons size sizes ih =>
    rw [fitting]
    split_ifs
    · exact Nat.succ_le_succ (ih _)
    · exact Nat.zero_le _

theorem pageLengths_eq (pos count : Nat) (sizes : List Nat)
    (fits : ∀ size ∈ sizes, 4 + size < bsize) : pageLengths bsize pos count sizes =
      (count + fitting bsize pos sizes) ::
        if fitting bsize pos sizes < sizes.length then
          pageLengths bsize 4 0 (sizes.drop (fitting bsize pos sizes))
        else [] := by
  induction sizes generalizing pos count with
  | nil => rfl
  | cons size sizes ih =>
    by_cases here : pos + size < bsize
    · have rest := ih (pos + size) (count + 1) fun other isOther =>
        fits other (mem_cons_of_mem _ isOther)
      simp [pageLengths, fitting, if_pos here, rest, Nat.add_assoc, Nat.add_comm 1]
    · simp [pageLengths, fitting, here, fits size mem_cons_self]

theorem sum_pageLengths (pos count : Nat) (sizes : List Nat) :
    (pageLengths bsize pos count sizes).sum = count + sizes.length := by
  induction sizes generalizing pos count with
  | nil => simp [pageLengths]
  | cons size sizes ih =>
    rw [pageLengths]
    split_ifs
    · rw [ih, length_cons]
      omega
    · rw [sum_cons, ih, length_cons]
      omega

theorem pageLengths_pos {count : Nat} (some : 0 < count) (pos : Nat) (sizes : List Nat) :
    ∀ length ∈ pageLengths bsize pos count sizes, 0 < length := by
  induction sizes generalizing pos count with
  | nil => simpa [pageLengths] using some
  | cons size sizes ih =>
    rw [pageLengths]
    split_ifs
    · exact ih (Nat.succ_pos _) _
    · exact forall_mem_cons.mpr ⟨some, ih Nat.one_pos _⟩

end Pages

/-! ## Extraction -/

section Extraction

variable {Tuple : Type} (tLen : Tuple → Nat)

def Tsb.recordAt (tsb : Tsb Tuple) (address : Nat) : TsbRecord Tuple :=
  ⟨(tsb.heap address).seqnum, (tsb.heap address).dmask.getD ∅, (tsb.heap address).rtup⟩

structure Listed (tsb : Tsb Tuple) (fmask : Finset Client) (part : Nat) (cells : List Nat) :
    Prop where
  links : Follows (fun a => (tsb.heap a).next) (cells ++ [tsb.table part])
  sentinel : (tsb.heap (tsb.table part)).dmask = none
  entries : ∀ a ∈ cells, (tsb.heap a).dmask ≠ none
  first : (cells ++ [tsb.table part]).head? = some (firstTsbItem tsb fmask part)
  count : tsb.counts part = cells.length

def cellsFrom (cells : Nat → List Nat) (numParts part : Nat) : List Nat :=
  (List.range' part (numParts - part)).flatMap cells

variable {numParts part : Nat} {smcb : SerCursor} {rest : List Nat}

theorem cellsFrom_eq (cells : Nat → List Nat) (inside : part < numParts) :
    cellsFrom cells numParts part = cells part ++ cellsFrom cells numParts (part + 1) := by
  have some : numParts - part = (numParts - (part + 1)) + 1 := by omega
  rw [cellsFrom, some, range'_succ, flatMap_cons, cellsFrom]

theorem cellsFrom_end (cells : Nat → List Nat) (outside : numParts ≤ part) :
    cellsFrom cells numParts part = [] := by
  rw [cellsFrom, Nat.sub_eq_zero_of_le outside]
  rfl

structure AtCursor (tsb : Tsb Tuple) (fmasks : Nat → Finset Client) (cells : Nat → List Nat)
    (smcb : SerCursor) (rest : List Nat) : Prop where
  inside : smcb.currPart < tsb.numParts
  suffix : rest <:+ cells smcb.currPart
  cursor : (rest ++ [tsb.table smcb.currPart]).head? =
    some (smcb.cursor.getD (firstTsbItem tsb (fmasks smcb.currPart) smcb.currPart))

variable {tLen} {tsb : Tsb Tuple} {fmasks : Nat → Finset Client} {cells : Nat → List Nat}
  {bsize : Nat}

variable (listed : ∀ part < tsb.numParts, Listed tsb (fmasks part) part (cells part))

include listed in
theorem Listed.atStart (inside : part < tsb.numParts) :
    AtCursor tsb fmasks cells ⟨part, none⟩ (cells part) :=
  ⟨inside, suffix_rfl, (listed part inside).first⟩

theorem Follows.of_suffix {next : Nat → Option Nat} {front back : List Nat}
    (follows : Follows next (front ++ back)) : Follows next back := by
  induction front with
  | nil => exact follows
  | cons cell front ih => exact ih follows.2

def sizeAt (tLen : Tuple → Nat) (tsb : Tsb Tuple) (address : Nat) : Nat :=
  recordSize tLen (tsb.heap address).rtup

def Stands (tsb : Tsb Tuple) (fmasks : Nat → Finset Client) (cells : Nat → List Nat)
    (smcb : SerCursor) (left : List Nat) : Prop :=
  (left = [] ∧ ¬ smcb.currPart < tsb.numParts) ∨
    ∃ rest, AtCursor tsb fmasks cells smcb rest ∧
      left = rest ++ cellsFrom cells tsb.numParts (smcb.currPart + 1)

include listed in
theorem AtCursor.next {a : Nat} (stands : AtCursor tsb fmasks cells smcb (a :: rest)) :
    AtCursor tsb fmasks cells ⟨smcb.currPart, (tsb.heap a).next⟩ rest := by
  have links : Follows (fun a => (tsb.heap a).next)
      (a :: rest ++ [tsb.table smcb.currPart]) := by
    obtain ⟨front, split⟩ := stands.suffix
    have all := (listed _ stands.inside).links
    rw [← split, append_assoc] at all
    exact Follows.of_suffix all
  have isNext : (tsb.heap a).next = (rest ++ [tsb.table smcb.currPart]).head? := links.1
  refine ⟨stands.inside, (suffix_cons a rest).trans stands.suffix, ?_⟩
  rw [isNext]
  cases rest with
  | nil => rfl
  | cons b rest => rfl

include listed in
theorem serTuplesLoop_eq (rounds : Nat) {todo : List Nat} (pos : Nat)
    (page : List (TsbRecord Tuple)) (stands : AtCursor tsb fmasks cells smcb rest)
    (isTodo : todo = rest ++ cellsFrom cells tsb.numParts (smcb.currPart + 1))
    (enough : todo.length + (tsb.numParts - smcb.currPart) < rounds) :
    ∃ next, serTuplesLoop tLen tsb fmasks bsize rounds smcb pos page = .ok (next, page ++ (todo.take
          (fitting bsize pos (todo.map (sizeAt tLen tsb)))).map tsb.recordAt) ∧
      Stands tsb fmasks cells next (todo.drop (fitting bsize pos (todo.map (sizeAt tLen tsb)))) ∧
      (next.currPart < tsb.numParts ↔
        todo.drop (fitting bsize pos (todo.map (sizeAt tLen tsb))) ≠ []) := by
  induction rounds generalizing smcb rest todo pos page with
  | zero => omega
  | succ rounds ih =>
    have inside := stands.inside
    have cursor := stands.cursor
    rw [serTuplesLoop, if_neg (not_not.mpr inside)]
    cases rest with
    | nil =>
      -- the sentinel of the partition
      have isTable : smcb.cursor.getD (firstTsbItem tsb (fmasks smcb.currPart)
          smcb.currPart) = tsb.table smcb.currPart := by simpa using cursor.symm
      simp only [isTable, (listed _ inside).sentinel]
      rw [nil_append] at isTodo
      by_cases more : smcb.currPart + 1 < tsb.numParts
      · exact ih pos page (Listed.atStart listed more)
          (isTodo.trans (cellsFrom_eq cells more)) (by simp only; omega)
      · rw [cellsFrom_end cells (Nat.le_of_not_lt more)] at isTodo
        subst isTodo
        cases rounds with
        | zero =>
          simp only [length_nil] at enough
          omega
        | succ rounds =>
          refine ⟨⟨smcb.currPart + 1, none⟩, ?_, .inl ⟨rfl, more⟩, by simp [more]⟩
          rw [serTuplesLoop, if_pos more]
          simp
    | cons a rest =>
      have isCursor : smcb.cursor.getD (firstTsbItem tsb (fmasks smcb.currPart)
          smcb.currPart) = a := by simpa using cursor.symm
      have isEntry := (listed _ inside).entries a (stands.suffix.subset mem_cons_self)
      obtain ⟨dmask, isMask⟩ := Option.ne_none_iff_exists'.mp isEntry
      subst isTodo
      have isSize : recordSize tLen (tsb.heap a).rtup = sizeAt tLen tsb a := rfl
      have isRecord : (⟨(tsb.heap a).seqnum, dmask, (tsb.heap a).rtup⟩ : TsbRecord Tuple) =
          tsb.recordAt a := by rw [Tsb.recordAt, isMask, Option.getD_some]
      simp only [isCursor, isMask, cons_append, map_cons, fitting, isSize, isRecord]
      by_cases here : pos + sizeAt tLen tsb a < bsize
      · rw [if_neg (not_not.mpr here), if_pos here]
        obtain ⟨next, ran, standsAfter⟩ := ih (pos + sizeAt tLen tsb a)
          (page ++ [tsb.recordAt a]) (stands.next listed) rfl
          (by simp only [cons_append, length_cons] at enough; simp only; omega)
        exact ⟨next, by simpa using ran, standsAfter⟩
      · rw [if_pos here, if_neg here]
        refine ⟨⟨smcb.currPart, some a⟩, by simp, .inr ⟨a :: rest, ?_, rfl⟩, by simp [inside]⟩
        exact ⟨inside, stands.suffix, rfl⟩

theorem length_cellsFrom_le (cells : Nat → List Nat) (inside : part ≤ numParts) :
    (cellsFrom cells numParts part).length + (numParts - part) ≤
      ((List.range numParts).map fun part => (cells part).length + 1).sum := by
  have split := @List.range'_append_1 0 part (numParts - part)
  rw [Nat.zero_add, Nat.add_sub_cancel' inside] at split
  have own : ∀ parts : List Nat, (parts.flatMap cells).length + parts.length =
      (parts.map fun part => (cells part).length + 1).sum := by
    intro parts
    induction parts with
    | nil => rfl
    | cons part parts ih =>
      simp only [flatMap_cons, length_append, length_cons, map_cons, sum_cons]
      omega
  rw [range_eq_range', ← split, map_append, sum_append, ← own (List.range' part _), cellsFrom,
    length_range']
  omega

include listed in
theorem sum_counts : ((List.range tsb.numParts).map fun part => (tsb.counts part).toNat + 1).sum =
      ((List.range tsb.numParts).map fun part => (cells part).length + 1).sum := by
  congr 1
  refine map_congr_left fun part isPart => ?_
  rw [(listed part (mem_range.mp isPart)).count, Int.toNat_natCast]

include listed in
theorem serTsbTuples_eq {smcb : SerCursor} {todo : List Nat}
    (stands : Stands tsb fmasks cells smcb todo) : ∃ next, serTsbTuples tLen tsb fmasks bsize smcb =
        .ok (next, (todo.take
          (fitting bsize 4 (todo.map (sizeAt tLen tsb)))).map tsb.recordAt) ∧
      Stands tsb fmasks cells next (todo.drop (fitting bsize 4 (todo.map (sizeAt tLen tsb)))) ∧
      (next.currPart < tsb.numParts ↔
        todo.drop (fitting bsize 4 (todo.map (sizeAt tLen tsb))) ≠ []) := by
  rcases stands with ⟨rfl, outside⟩ | ⟨rest, stands, isTodo⟩
  · refine ⟨smcb, ?_, .inl ⟨by simp, outside⟩, by simp [outside]⟩
    rw [serTsbTuples, Tsb.rounds, serTuplesLoop, if_pos outside]
    simp
  · refine serTuplesLoop_eq listed tsb.rounds 4 [] stands isTodo ?_
    have whole := length_cellsFrom_le cells stands.inside.le
    rw [cellsFrom_eq cells stands.inside, length_append] at whole
    have some := stands.suffix.length_le
    rw [Tsb.rounds, sum_counts listed, isTodo, length_append]
    omega

end Extraction

end TelegraphCQ.Flux
