import TelegraphCQ.Flux.MergeBuffer

/-!
# The ordered merge hands on every tuple once and in order

What is held of a producer is what the buffer holds of it and then the tuple that waits in front of
the merge.  Each call moves a tuple from the front to the buffer, or hands on a first tuple with
the least number, as long as the buffer is only left when it is empty.
-/

namespace TelegraphCQ.Flux

open Foundation List Function

variable {Tuple : Type}

/-! ## The linear search -/

section Search

theorem foldl_better_some (cands : List Candidate) (start : Candidate) :
    ∃ best, cands.foldl better (some start) = some best ∧ best ∈ start :: cands ∧
      ∀ cand ∈ start :: cands, best.lsn ≤ cand.lsn := by
  induction cands generalizing start with
  | nil => exact ⟨start, rfl, by simp⟩
  | cons cand cands ih =>
    rw [foldl_cons, better]
    split
    · next less =>
        obtain ⟨best, found, mem, least⟩ := ih cand
        refine ⟨best, found, mem_cons_of_mem _ mem, forall_mem_cons.mpr ⟨?_, least⟩⟩
        exact (least cand mem_cons_self).trans less.le
    · next notLess =>
        obtain ⟨best, found, mem, least⟩ := ih start
        have leStart := least start mem_cons_self
        refine ⟨best, found, ?_, forall_mem_cons.mpr ⟨leStart, forall_mem_cons.mpr
          ⟨leStart.trans (not_lt.mp notLess), (forall_mem_cons.mp least).2⟩⟩⟩
        rcases mem_cons.mp mem with rfl | later
        · exact mem_cons_self
        · exact mem_cons_of_mem _ (mem_cons_of_mem _ later)

theorem foldl_better {cands : List Candidate} (some_cand : cands ≠ []) :
    ∃ best ∈ cands, cands.foldl better none = some best ∧ ∀ cand ∈ cands, best.lsn ≤ cand.lsn := by
  cases cands with
  | nil => exact absurd rfl some_cand
  | cons cand cands =>
    obtain ⟨best, found, mem, least⟩ := foldl_better_some cands cand
    exact ⟨best, mem, found, least⟩

def offer (s : MergeState Tuple) (i : Nat) : Option Candidate :=
  if primPartEmpty i s.tsb then
    if s.merge.ready i then some ⟨s.merge.snum i, i, false⟩ else none
  else some ⟨getUnackSeqnoTsb i .primary s.tsb.toTsb, i, true⟩

theorem searchBuffered_spec (s : MergeState Tuple) (is : List Nat) (best : Option Candidate) :
    searchBuffered s is best = none ∧ (∃ i ∈ is, offer s i = none) ∨
      ∃ cands : List Candidate, is.map (offer s) = cands.map some ∧
        searchBuffered s is best = some (cands.foldl better best) := by
  induction is generalizing best with
  | nil => exact .inr ⟨[], rfl, rfl⟩
  | cons i is ih =>
    cases offered : offer s i with
    | none =>
      refine .inl ⟨?_, i, mem_cons_self, offered⟩
      simp only [offer] at offered
      split at offered
      · next empty =>
          split at offered
          · cases offered
          · next notReady => rw [searchBuffered, if_pos empty, if_neg notReady]
      · cases offered
    | some cand =>
      have goesOn : searchBuffered s (i :: is) best = searchBuffered s is (better best cand) := by
        simp only [offer] at offered
        rw [searchBuffered]
        split at offered
        · next empty =>
            rw [if_pos empty]
            split at offered
            · next isReady =>
                rw [if_pos isReady, Option.some.inj offered]
            · cases offered
        · next filled => rw [if_neg filled, Option.some.inj offered]
      rw [goesOn]
      rcases ih (better best cand) with ⟨stopped, j, mem, none_offered⟩ | ⟨cands, isMap, found⟩
      · exact .inl ⟨stopped, j, mem_cons_of_mem _ mem, none_offered⟩
      · exact .inr ⟨cand :: cands, by rw [map_cons, map_cons, offered, isMap], found⟩

end Search

/-! ## What is held -/

structure FrontKept (seqOf : Tuple → Int) (nProd : Nat) (merge : CMerge Tuple) : Prop where
  ready : ∀ i < nProd, merge.ready i = true → ∃ tuple, merge.htup i = some tuple
  snum : ∀ i < nProd, ∀ tuple, merge.htup i = some tuple → merge.snum i = seqOf tuple
  nfill : merge.nfill = ∑ i ∈ Finset.range nProd, if merge.ready i then 1 else 0

structure MergeKept (seqOf : Tuple → Int) (nProd : Nat) (s : MergeState Tuple) : Prop where
  front : FrontKept seqOf nProd s.merge
  buffer : MergeHolds seqOf nProd s.tsb s.buffered
  unbuffered : s.merge.useBuf = false → ∀ i < nProd, s.buffered i = []

def Hands (seqOf : Tuple → Int) (nProd : Nat) (s after : MergeState Tuple) (i : Nat)
    (tuple : Tuple) : Prop :=
  i < nProd ∧ s.held i = tuple :: after.held i ∧
    (∀ j < nProd, j ≠ i → after.held j = s.held j) ∧
    ∀ j < nProd, ∃ first, (s.held j).head? = some first ∧ seqOf tuple ≤ seqOf first

section Held

variable {seqOf : Tuple → Int} {nProd : Nat} {s : MergeState Tuple} {merge : CMerge Tuple}

variable {i : Nat} {cand : Candidate} {tuple : Tuple}

section

variable (front : FrontKept seqOf nProd merge)
include front

theorem FrontKept.delTup (inside : i < nProd) (isReady : merge.ready i = true) :
    FrontKept seqOf nProd (merge.delTup i) := by
  refine ⟨fun j isProd jReady => ?_, fun j isProd tuple isTuple => ?_, ?_⟩
  · have other : j ≠ i := by
      rintro rfl
      simp [CMerge.delTup] at jReady
    simp only [CMerge.delTup, update_of_ne other] at jReady ⊢
    exact front.ready j isProd jReady
  · have other : j ≠ i := by
      rintro rfl
      simp [CMerge.delTup] at isTuple
    simp only [CMerge.delTup, update_of_ne other] at isTuple ⊢
    exact front.snum j isProd tuple isTuple
  · have changed := @sum_of_one_changed nProd i (fun j => if merge.ready j then (1 : Int) else 0)
      (fun j => if (merge.delTup i).ready j then (1 : Int) else 0) inside (fun j other => by
        simp [CMerge.delTup, update_of_ne other])
    rw [changed]
    simp only [CMerge.delTup, update_self, isReady, if_true, front.nfill]
    simp
    omega

theorem FrontKept.all_ready (full : merge.nfill = nProd) : ∀ i < nProd, merge.ready i = true := by
  have total : ∑ i ∈ Finset.range nProd, (if merge.ready i then (1 : Int) else 0) =
      ∑ i ∈ Finset.range nProd, 1 := by
    rw [← front.nfill, full]
    simp
  intro i inside
  have each := (Finset.sum_eq_sum_iff_of_le fun i _ => by split <;> simp).mp total i
    (Finset.mem_range.mpr inside)
  by_contra notReady
  simp [notReady] at each

theorem FrontKept.nfill_eq (ready : ∀ i < nProd, merge.ready i = true) : merge.nfill = nProd := by
  rw [front.nfill, Finset.sum_congr rfl fun i mem => if_pos (ready i (Finset.mem_range.mp mem))]
  simp

end

structure Offers (seqOf : Tuple → Int) (s : MergeState Tuple) (i : Nat) (cand : Candidate)
    (tuple : Tuple) : Prop where
  midx : cand.midx = i
  lsn : cand.lsn = seqOf tuple
  buffered : cand.inbuf = true → (s.buffered i).head? = some tuple
  waiting : cand.inbuf = false →
    s.buffered i = [] ∧ s.merge.ready i = true ∧ s.merge.htup i = some tuple

theorem Offers.head (offers : Offers seqOf s i cand tuple) : (s.held i).head? = some tuple := by
  rw [MergeState.held]
  cases inbuf : cand.inbuf with
  | true => rw [head?_append, offers.buffered inbuf, Option.some_or]
  | false =>
    obtain ⟨empty, -, isTuple⟩ := offers.waiting inbuf
    rw [empty, isTuple]
    rfl

theorem waiting_offers (front : FrontKept seqOf nProd s.merge) (inside : i < nProd)
    (empty : s.buffered i = []) (isReady : s.merge.ready i = true) :
    ∃ tuple, Offers seqOf s i ⟨s.merge.snum i, i, false⟩ tuple := by
  obtain ⟨tuple, isTuple⟩ := front.ready i inside isReady
  exact ⟨tuple, rfl, front.snum i inside tuple isTuple, nofun, fun _ => ⟨empty, isReady, isTuple⟩⟩

theorem offer_offers (front : FrontKept seqOf nProd s.merge)
    (buffer : MergeHolds seqOf nProd s.tsb s.buffered) (inside : i < nProd)
    (offered : offer s i = some cand) : ∃ tuple, Offers seqOf s i cand tuple := by
  obtain ⟨isEmpty, first⟩ := buffer.primPartEmpty_eq inside
  rw [offer, isEmpty] at offered
  split at offered
  · next empty =>
      split at offered
      · next isReady =>
          rw [← Option.some.inj offered]
          exact waiting_offers front inside (isEmpty_iff.mp empty) isReady
      · cases offered
  · next filled =>
      cases isBuf : s.buffered i with
      | nil => simp [isBuf] at filled
      | cons tuple tuples =>
        have isFirst : (s.buffered i).head? = some tuple := by rw [isBuf]; rfl
        rw [← Option.some.inj offered]
        exact ⟨tuple, rfl, (first tuple isFirst).2, fun _ => isFirst, nofun⟩

theorem offer_eq_none (buffer : MergeHolds seqOf nProd s.tsb s.buffered) (inside : i < nProd)
    (none_offered : offer s i = none) : s.buffered i = [] ∧ s.merge.ready i = false := by
  rw [offer, (buffer.primPartEmpty_eq inside).1] at none_offered
  split at none_offered
  · next empty =>
      split at none_offered
      · cases none_offered
      · next notReady => exact ⟨isEmpty_iff.mp empty, by simpa using notReady⟩
  · cases none_offered

structure MergeNext (seqOf : Tuple → Int) (nProd : Nat) (s after : MergeState Tuple) : Prop where
  front : FrontKept seqOf nProd after.merge
  buffer : MergeHolds seqOf nProd after.tsb after.buffered
  incoming : after.incoming = s.incoming

def takeFound (cand : Candidate) (s : MergeState Tuple) :
    Except MergeFault (Option (Nat × Tuple) × MergeState Tuple) :=
  if cand.inbuf then takeBuffered cand.lsn cand.midx s else takeHeld cand.midx s

theorem takeFound_spec (front : FrontKept seqOf nProd s.merge)
    (buffer : MergeHolds seqOf nProd s.tsb s.buffered) (inside : i < nProd)
    (ascending : (s.held i).Pairwise fun x y => seqOf x < seqOf y)
    (offers : Offers seqOf s i cand tuple) :
    ∃ after, takeFound cand s = .ok (some (i, tuple), after) ∧ MergeNext seqOf nProd s after ∧
      (cand.inbuf = false → after.tsb = s.tsb) ∧
      s.held i = tuple :: after.held i ∧ ∀ j < nProd, j ≠ i → after.held j = s.held j := by
  rw [takeFound, offers.midx, offers.lsn]
  cases inbuf : cand.inbuf with
  | true =>
    obtain ⟨tuples, isBuf⟩ := head?_eq_some_iff.mp (offers.buffered inbuf)
    obtain ⟨tsb, taken, holds⟩ := buffer.take inside isBuf (pairwise_append.mp ascending).1
    have bufferedNext : ∀ j < nProd, ({ s with tsb := tsb } : MergeState Tuple).buffered j =
        update s.buffered i tuples j := fun j isProd =>
      @MergeHolds.buffered _ _ _ _ _ { s with tsb := tsb } holds isProd
    refine ⟨{ s with tsb := tsb }, taken, ⟨front, holds.congr bufferedNext, rfl⟩, nofun, ?_,
      fun j isProd other => ?_⟩
    · rw [MergeState.held, MergeState.held, bufferedNext i inside, isBuf, update_self]
      rfl
    · rw [MergeState.held, MergeState.held, bufferedNext j isProd, update_of_ne other]
  | false =>
    obtain ⟨empty, isReady, isTuple⟩ := offers.waiting inbuf
    refine ⟨{ s with merge := s.merge.delTup i }, ?_, ⟨front.delTup inside isReady, buffer, rfl⟩,
      fun _ => rfl, ?_, fun j _ other => ?_⟩
    · simp [takeHeld, isTuple]
    · show s.buffered i ++ (s.merge.htup i).toList =
        tuple :: (s.buffered i ++ ((s.merge.delTup i).htup i).toList)
      simp [empty, isTuple, CMerge.delTup]
    · show s.buffered j ++ ((s.merge.delTup i).htup j).toList =
        s.buffered j ++ (s.merge.htup j).toList
      simp [CMerge.delTup, update_of_ne other]

theorem search_hands (front : FrontKept seqOf nProd s.merge)
    (buffer : MergeHolds seqOf nProd s.tsb s.buffered) (some_prod : 0 < nProd)
    (ascending : ∀ i < nProd, (s.held i).Pairwise fun x y => seqOf x < seqOf y)
    {cand : Nat → Candidate} (offers : ∀ i < nProd, ∃ tuple, Offers seqOf s i (cand i) tuple) :
    ∃ i after tuple, ((List.range nProd).map cand).foldl better none = some (cand i) ∧
      takeFound (cand i) s = .ok (some (i, tuple), after) ∧ MergeNext seqOf nProd s after ∧
      ((cand i).inbuf = false → after.tsb = s.tsb) ∧ Hands seqOf nProd s after i tuple := by
  have some_cand : (List.range nProd).map cand ≠ [] := by
    rw [Ne, map_eq_nil_iff, range_eq_nil]
    omega
  obtain ⟨best, mem, found, least⟩ := foldl_better some_cand
  obtain ⟨i, isProd, rfl⟩ := mem_map.mp mem
  have inside := mem_range.mp isProd
  obtain ⟨tuple, isOffer⟩ := offers i inside
  obtain ⟨after, taken, next, sameTsb, first, others⟩ :=
    takeFound_spec front buffer inside (ascending i inside) isOffer
  refine ⟨i, after, tuple, found, taken, next, sameTsb, inside, first, others, ?_⟩
  intro j isOther
  obtain ⟨other, otherOffer⟩ := offers j isOther
  refine ⟨other, otherOffer.head, ?_⟩
  rw [← isOffer.lsn, ← otherOffer.lsn]
  exact least _ (mem_map.mpr ⟨j, mem_range.mpr isOther, rfl⟩)

/-! ## The calls of the merge -/

def HandsOn (seqOf : Tuple → Int) (nProd : Nat) (s after : MergeState Tuple) :
    Option (Nat × Tuple) → Prop
  | none => ∀ i < nProd, after.held i = s.held i
  | some (i, tuple) => Hands seqOf nProd s after i tuple

def MergeState.Offering (nProd : Nat) (s : MergeState Tuple) : Prop :=
  (s.merge.useBuf = false ∨ s.merge.moveToBuf = false) ∧
    ∀ i < nProd, s.buffered i ≠ [] ∨ s.merge.ready i = true

theorem leaveBuffer_held (s : MergeState Tuple) : (leaveBuffer s).held = s.held := by
  rw [leaveBuffer]
  split <;> rfl

theorem leaveBuffer_next {after : MergeState Tuple} (next : MergeNext seqOf nProd s after) :
    MergeNext seqOf nProd s (leaveBuffer after) := by
  rw [leaveBuffer]
  split
  · exact ⟨⟨next.front.ready, next.front.snum, next.front.nfill⟩, next.buffer, next.incoming⟩
  · exact next

theorem moveReady_spec (is : List Nat) (inside : ∀ i ∈ is, i < nProd)
    (front : FrontKept seqOf nProd s.merge) (buffer : MergeHolds seqOf nProd s.tsb s.buffered) :
    moveReady is s = .error .outOfSpace ∨
      ∃ after, moveReady is s = .ok after ∧ MergeNext seqOf nProd s after ∧
        ∀ i < nProd, after.held i = s.held i := by
  induction is generalizing s with
  | nil => exact .inr ⟨s, rfl, ⟨front, buffer, rfl⟩, fun _ _ => rfl⟩
  | cons i is ih =>
    have isProd := inside i mem_cons_self
    have later : ∀ j ∈ is, j < nProd := fun j mem => inside j (mem_cons_of_mem _ mem)
    rw [moveReady]
    split
    · next isReady =>
        obtain ⟨tuple, isTuple⟩ := front.ready i isProd isReady
        obtain ⟨result, ran, puts⟩ := buffer.put isProd tuple
        rw [isTuple, front.snum i isProd tuple isTuple, ran]
        dsimp only
        split
        · exact .inl rfl
        · next taken =>
            have holds := puts (by simpa using taken)
            set moved : MergeState Tuple :=
              { s with
                merge := s.merge.delTup i
                tsb := { s.tsb with toTsb := result.tsb } } with isMoved
            have bufferedNext : ∀ j < nProd, moved.buffered j =
                update s.buffered i (s.buffered i ++ [tuple]) j := fun j isPart =>
              @MergeHolds.buffered _ _ _ _ _ moved holds isPart
            have sameHeld : ∀ j < nProd, moved.held j = s.held j := by
              intro j isPart
              rw [MergeState.held, MergeState.held, bufferedNext j isPart]
              by_cases here : j = i
              · simp [isMoved, here, CMerge.delTup, isTuple]
              · simp [isMoved, CMerge.delTup, update_of_ne here]
            rcases @ih moved later (front.delTup isProd isReady) (holds.congr bufferedNext) with
              full | ⟨after, movedOn, next, held⟩
            · exact .inl full
            · refine .inr ⟨after, movedOn, ⟨next.front, next.buffer, next.incoming⟩,
                fun j isPart => (held j isPart).trans (sameHeld j isPart)⟩
    · exact ih later front buffer

section Calls

variable (kept : MergeKept seqOf nProd s) (some_prod : 0 < nProd)
  (ascending : ∀ i < nProd, (s.held i).Pairwise fun x y => seqOf x < seqOf y)
include kept some_prod ascending

theorem getNextTupleOrd_spec (normal : s.merge.useBuf = false) :
    ∃ found after, getNextTupleOrd nProd s = .ok (found, after) ∧
      MergeNext seqOf nProd s after ∧ HandsOn seqOf nProd s after found ∧
      after.tsb = s.tsb ∧ (s.Offering nProd → found.isSome = true) := by
  have empty := kept.unbuffered normal
  rw [getNextTupleOrd]
  by_cases waits : s.merge.nfill ≠ nProd ∨ nProd = 0
  · rw [if_pos waits]
    refine ⟨none, s, rfl, ⟨kept.front, kept.buffer, rfl⟩, fun _ _ => rfl, rfl, fun offering => ?_⟩
    refine absurd (kept.front.nfill_eq fun i inside => ?_) (waits.resolve_right (by omega))
    exact (offering.2 i inside).resolve_left fun filled => filled (empty i inside)
  · rw [if_neg waits]
    push Not at waits
    obtain ⟨i, after, tuple, found, taken, next, sameTsb, hands⟩ :=
      search_hands kept.front kept.buffer some_prod ascending fun i inside =>
        waiting_offers kept.front inside (empty i inside)
          (kept.front.all_ready waits.1 i inside)
    rw [foldl_map] at found
    rw [searchReady, found]
    exact ⟨some (i, tuple), after, taken, next, hands, sameTsb rfl, fun _ => rfl⟩

theorem drain_spec : ∃ found after, drain nProd s = .ok (found, after) ∧
      MergeNext seqOf nProd s after ∧ HandsOn seqOf nProd s after found ∧
      (s.Offering nProd → found.isSome = true) := by
  rw [drain]
  rcases searchBuffered_spec s (List.range nProd) none with
    ⟨stopped, j, mem, none_offered⟩ | ⟨cands, isMap, found⟩
  · rw [stopped]
    refine ⟨none, s, rfl, ⟨kept.front, kept.buffer, rfl⟩, fun _ _ => rfl, fun offering => ?_⟩
    have inside := mem_range.mp mem
    obtain ⟨empty, notReady⟩ := offer_eq_none kept.buffer inside none_offered
    rcases offering.2 j inside with filled | isReady
    · exact absurd empty filled
    · simp [notReady] at isReady
  · -- every producer has offered a candidate
    have isCands : cands = (List.range nProd).map fun i => (offer s i).getD ⟨0, 0, false⟩ := by
      have each := congrArg (List.map fun cand => cand.getD ⟨0, 0, false⟩) isMap
      simpa [comp_def] using each.symm
    have offers : ∀ i < nProd, ∃ tuple, Offers seqOf s i ((offer s i).getD ⟨0, 0, false⟩) tuple := by
      intro i inside
      have offered : offer s i ∈ cands.map some := by
        rw [← isMap]
        exact mem_map.mpr ⟨i, mem_range.mpr inside, rfl⟩
      obtain ⟨cand, -, isCand⟩ := mem_map.mp offered
      rw [← isCand]
      exact offer_offers kept.front kept.buffer inside isCand.symm
    obtain ⟨i, after, tuple, isBest, taken, next, -, hands⟩ :=
      search_hands kept.front kept.buffer some_prod ascending offers
    rw [found, isCands, isBest]
    refine ⟨some (i, tuple), leaveBuffer after, ?_, leaveBuffer_next next, ?_, fun _ => rfl⟩
    · rw [takeFound] at taken
      simp [taken]
    · rw [HandsOn, Hands, leaveBuffer_held]
      exact hands

theorem getNextTupleBord_spec : getNextTupleBord nProd s = .error .outOfSpace ∧ ¬ s.Offering nProd ∨
      ∃ found after, getNextTupleBord nProd s = .ok (found, after) ∧
        MergeNext seqOf nProd s after ∧ HandsOn seqOf nProd s after found ∧
        (s.merge.useBuf = false → after.tsb = s.tsb) ∧
        (s.Offering nProd → found.isSome = true) := by
  rw [getNextTupleBord]
  split
  · next normal =>
      obtain ⟨found, after, ran, next, hands, sameTsb, offering⟩ :=
        getNextTupleOrd_spec kept some_prod ascending normal
      exact .inr ⟨found, after, ran, next, hands, fun _ => sameTsb, offering⟩
  · next buffering =>
      split
      · next moving =>
          have silent : ¬ s.Offering nProd := by
            rintro ⟨normal | draining, -⟩
            · exact buffering normal
            · simp [draining] at moving
          split
          · exact .inr ⟨none, s, rfl, ⟨kept.front, kept.buffer, rfl⟩, fun _ _ => rfl, fun _ => rfl,
              fun offering => absurd offering silent⟩
          · rcases moveReady_spec (List.range nProd) (fun _ => mem_range.mp) kept.front
              kept.buffer with full | ⟨after, moved, next, held⟩
            · rw [full]
              exact .inl ⟨rfl, silent⟩
            · rw [moved]
              exact .inr ⟨none, after, rfl, next, held, fun normal => absurd normal buffering,
                fun offering => absurd offering silent⟩
      · obtain ⟨found, after, ran, next, hands, offering⟩ := drain_spec kept some_prod ascending
        exact .inr ⟨found, after, ran, next, hands, fun normal => absurd normal buffering, offering⟩

end Calls

end Held

/-! ## Runs -/

structure MergeInv (seqOf : Tuple → Int) (nProd : Nat) (incoming : Nat → List Tuple)
    (events : List (MergeEvent Tuple)) (s : MergeState Tuple) : Prop where
  kept : MergeKept seqOf nProd s
  merging : Merging seqOf nProd (fun i => s.held i ++ s.incoming i) (handedOn events)
  received : ∀ i < nProd, receivedFrom i events = handedFrom i events ++ s.held i
  arrived : ∀ i < nProd, receivedFrom i events ++ s.incoming i = incoming i

section Events

variable (events : List (MergeEvent Tuple)) (i j : Nat) (tuple : Tuple)

theorem receivedFrom_received : receivedFrom j (events ++ [.received i tuple]) =
    receivedFrom j events ++ if i = j then [tuple] else [] := by
  by_cases same : i = j <;> simp [receivedFrom, same]

theorem handedFrom_received :
    handedFrom j (events ++ [.received i tuple]) = handedFrom j events := by
  simp [handedFrom]

theorem handedOn_received : handedOn (events ++ [.received i tuple]) = handedOn events := by
  simp [handedOn]

theorem receivedFrom_handedOn :
    receivedFrom j (events ++ [.handedOn i tuple]) = receivedFrom j events := by
  simp [receivedFrom]

theorem handedFrom_handedOn : handedFrom j (events ++ [.handedOn i tuple]) =
    handedFrom j events ++ if i = j then [tuple] else [] := by
  by_cases same : i = j <;> simp [handedFrom, same]

theorem handedOn_handedOn :
    handedOn (events ++ [.handedOn i tuple]) = handedOn events ++ [tuple] := by
  simp [handedOn]

end Events

section Runs

variable {seqOf : Tuple → Int} {nProd : Nat} {s : MergeState Tuple} {incoming : Nat → List Tuple}
  {events : List (MergeEvent Tuple)}

variable (inv : MergeInv seqOf nProd incoming events s)

include inv in
theorem MergeInv.ascending : ∀ i < nProd, (s.held i).Pairwise fun x y => seqOf x < seqOf y :=
  fun i inside => (pairwise_append.mp (inv.merging.ascending i inside)).1

variable {after : MergeState Tuple} {i : Nat} {tuple : Tuple}

section

include inv

theorem MergeInv.silent (kept : MergeKept seqOf nProd after)
    (sameHeld : ∀ i < nProd, after.held i = s.held i) (sameIncoming : after.incoming = s.incoming) :
    MergeInv seqOf nProd incoming (events ++ []) after := by
  rw [append_nil]
  refine ⟨kept, inv.merging.congr fun i inside => ?_, fun i inside => ?_, fun i inside => ?_⟩
  · rw [sameHeld i inside, sameIncoming]
  · rw [sameHeld i inside]
    exact inv.received i inside
  · rw [sameIncoming]
    exact inv.arrived i inside

theorem MergeInv.hands (kept : MergeKept seqOf nProd after)
    (hands : Hands seqOf nProd s after i tuple) (sameIncoming : after.incoming = s.incoming) :
    MergeInv seqOf nProd incoming (events ++ [.handedOn i tuple]) after := by
  obtain ⟨inside, first, others, least⟩ := hands
  refine ⟨kept, ?_, fun j isProd => ?_, fun j isProd => ?_⟩
  · rw [handedOn_handedOn]
    refine (inv.merging.take inside (by rw [first, cons_append]) ?_).congr fun j isProd => ?_
    · intro j isProd y isFirst
      obtain ⟨y', isFirst', le⟩ := least j isProd
      rw [head?_append, isFirst', Option.some_or] at isFirst
      rwa [← Option.some.inj isFirst]
    · by_cases here : j = i
      · rw [here, update_self, sameIncoming]
      · rw [update_of_ne here, others j isProd here, sameIncoming]
  · rw [receivedFrom_handedOn, handedFrom_handedOn, inv.received j isProd]
    by_cases here : i = j
    · rw [if_pos here, append_assoc, ← here, first, singleton_append]
    · rw [if_neg here, others j isProd (Ne.symm here), append_nil]
  · rw [receivedFrom_handedOn, sameIncoming]
    exact inv.arrived j isProd

theorem MergeInv.receive {rest : List Tuple} (free : s.merge.htup i = none)
    (isIncoming : s.incoming i = tuple :: rest) :
    MergeInv seqOf nProd incoming (events ++ [.received i tuple])
      { s with
        merge := s.merge.setTup i tuple (seqOf tuple)
        incoming := update s.incoming i rest } := by
  set after : MergeState Tuple :=
    { s with
      merge := s.merge.setTup i tuple (seqOf tuple)
      incoming := update s.incoming i rest } with isAfter
  have isHeld : after.held i = s.held i ++ [tuple] := by
    show s.buffered i ++ ((s.merge.setTup i tuple (seqOf tuple)).htup i).toList =
      s.buffered i ++ (s.merge.htup i).toList ++ [tuple]
    simp [CMerge.setTup, free]
  have others : ∀ j, j ≠ i → after.held j = s.held j ∧ after.incoming j = s.incoming j := by
    intro j other
    refine ⟨?_, update_of_ne other _ _⟩
    show s.buffered j ++ ((s.merge.setTup i tuple (seqOf tuple)).htup j).toList =
      s.buffered j ++ (s.merge.htup j).toList
    simp [CMerge.setTup, update_of_ne other]
  have isRest : after.incoming i = rest := update_self _ _ _
  have front : FrontKept seqOf nProd after.merge := by
    refine ⟨fun j isProd isReady => ?_, fun j isProd held isTuple => ?_, inv.kept.front.nfill⟩
    · by_cases here : j = i
      · exact ⟨tuple, by simp [isAfter, CMerge.setTup, here]⟩
      · simp only [isAfter, CMerge.setTup, update_of_ne here] at isReady ⊢
        exact inv.kept.front.ready j isProd isReady
    · by_cases here : j = i
      · simp only [isAfter, CMerge.setTup, here, update_self, Option.some.injEq]
          at isTuple ⊢
        rw [isTuple]
      · simp only [isAfter, CMerge.setTup, update_of_ne here] at isTuple ⊢
        exact inv.kept.front.snum j isProd held isTuple
  refine ⟨⟨front, inv.kept.buffer, inv.kept.unbuffered⟩, ?_, fun j isProd => ?_, fun j isProd => ?_⟩
  · rw [handedOn_received]
    refine inv.merging.congr fun j _ => ?_
    by_cases here : j = i
    · rw [here, isHeld, isRest, isIncoming, append_assoc, singleton_append]
    · rw [(others j here).1, (others j here).2]
  · rw [receivedFrom_received, handedFrom_received, inv.received j isProd]
    by_cases here : i = j
    · rw [if_pos here, ← here, isHeld, append_assoc]
    · rw [if_neg here, (others j (Ne.symm here)).1, append_nil]
  · rw [receivedFrom_received, ← inv.arrived j isProd]
    by_cases here : i = j
    · rw [if_pos here, ← here, isRest, isIncoming, append_assoc, singleton_append]
    · rw [if_neg here, (others j (Ne.symm here)).2, append_nil]

end

theorem FrontKept.setTupReady {merge : CMerge Tuple} (front : FrontKept seqOf nProd merge)
    (inside : i < nProd) (pending : merge.tupPending i = true) :
    FrontKept seqOf nProd (merge.setTupReady i) := by
  simp only [CMerge.tupPending, Bool.and_eq_true, Bool.not_eq_true'] at pending
  obtain ⟨notReady, isHeld⟩ := pending
  refine ⟨fun j isProd isReady => ?_, front.snum, ?_⟩
  · by_cases here : j = i
    · rw [here]
      exact Option.isSome_iff_exists.mp isHeld
    · simp only [CMerge.setTupReady, update_of_ne here] at isReady
      exact front.ready j isProd isReady
  · have changed := @sum_of_one_changed nProd i (fun j => if merge.ready j then (1 : Int) else 0)
      (fun j => if (merge.setTupReady i).ready j then (1 : Int) else 0) inside (fun j other => by
        simp [CMerge.setTupReady, update_of_ne other])
    rw [changed]
    simp [CMerge.setTupReady, notReady, front.nfill]

include inv in
theorem MergeInv.next (sound : MergeOp.next.Sound seqOf nProd s) :
    ∃ emitted after, mergeStep seqOf nProd s .next = (emitted, .ok after) ∧
      MergeInv seqOf nProd incoming (events ++ emitted) after := by
  obtain ⟨some_prod, sound⟩ := sound
  rcases getNextTupleBord_spec inv.kept some_prod inv.ascending with
    ⟨full, -⟩ | ⟨found, after, ran, next, hands, sameTsb, -⟩
  · simp [mergeStep, full] at sound
  · have stepped : (mergeStep seqOf nProd s .next).2 = .ok after := by
      rw [mergeStep, ran]
      cases found <;> rfl
    rw [stepped] at sound
    have kept : MergeKept seqOf nProd after := by
      refine ⟨next.front, next.buffer, fun left i inside => ?_⟩
      cases buffering : s.merge.useBuf with
      | false =>
        rw [MergeState.buffered, sameTsb buffering]
        exact inv.kept.unbuffered buffering i inside
      | true =>
        have count := sound buffering left i (Finset.mem_range.mpr inside)
        rw [next.buffer.counts inside] at count
        exact length_eq_zero_iff.mp (by omega)
    cases found with
    | none => exact ⟨[], after, by rw [mergeStep, ran], inv.silent kept hands next.incoming⟩
    | some handed =>
      exact ⟨[.handedOn handed.1 handed.2], after, by rw [mergeStep, ran],
        inv.hands kept hands next.incoming⟩

include inv in
theorem mergeStep_inv {op : MergeOp} (sound : op.Sound seqOf nProd s) :
    ∃ emitted after, mergeStep seqOf nProd s op = (emitted, .ok after) ∧
      MergeInv seqOf nProd incoming (events ++ emitted) after := by
  cases op with
  | receive idx =>
    refine ⟨_, _, rfl, ?_⟩
    cases isHeld : s.merge.htup idx with
    | some _ =>
      simp only [receiveTuple, isHeld]
      exact inv.silent inv.kept (fun _ _ => rfl) rfl
    | none =>
      cases isIncoming : s.incoming idx with
      | nil =>
        simp only [receiveTuple, isHeld, isIncoming]
        exact inv.silent inv.kept (fun _ _ => rfl) rfl
      | cons tuple rest =>
        simp only [receiveTuple, isHeld, isIncoming]
        exact inv.receive isHeld isIncoming
  | setReady idx =>
    refine ⟨_, _, rfl, ?_⟩
    split
    · next pending =>
        exact inv.silent ⟨inv.kept.front.setTupReady sound pending, inv.kept.buffer,
          inv.kept.unbuffered⟩ (fun _ _ => rfl) rfl
    · exact inv.silent inv.kept (fun _ _ => rfl) rfl
  | startBuffering | startDraining =>
    have front := inv.kept.front
    exact ⟨_, _, rfl, inv.silent ⟨⟨front.ready, front.snum, front.nfill⟩, inv.kept.buffer, nofun⟩
      (fun _ _ => rfl) rfl⟩
  | next => exact inv.next sound

theorem initMerge_inv (raw : Nat → TsbEntry Tuple) (tsbSize : Nat) (some_prod : 0 < nProd)
    (ascending : ∀ i < nProd, (incoming i).Pairwise fun x y => seqOf x < seqOf y) :
    MergeInv seqOf nProd incoming [] (initMerge raw nProd tsbSize incoming) := by
  have holds := initHeadedTsb_holds seqOf raw tsbSize some_prod
  have empty : ∀ i < nProd, (initMerge raw nProd tsbSize incoming).buffered i = [] :=
    fun i inside =>
      @MergeHolds.buffered _ _ _ _ _ (initMerge raw nProd tsbSize incoming) holds inside
  have noneHeld : ∀ i < nProd, (initMerge raw nProd tsbSize incoming).held i = [] := by
    intro i inside
    rw [MergeState.held, empty i inside]
    rfl
  refine ⟨⟨⟨nofun, nofun, by simp [initMerge]⟩, holds.congr empty, fun _ => empty⟩,
    ⟨fun i inside => ?_, .nil, nofun⟩, fun i inside => ?_, fun _ _ => rfl⟩
  · rw [noneHeld i inside]
    exact ascending i inside
  · rw [noneHeld i inside]
    rfl

end Runs

/-! ## A run with two producers -/

def oddAndEven : Nat → List Int := fun i => if i = 0 then [1, 3, 5] else [2, 4, 6]

def freshEntries : Nat → TsbEntry Int := fun _ => ⟨none, none, 0, none, none⟩

/-- The first tuples are moved to the buffer, which is then drained. -/
def drainingRun : List MergeOp :=
  [.receive 0, .setReady 0, .receive 1, .setReady 1, .startBuffering, .next, .startDraining,
    .receive 0, .setReady 0, .receive 1, .setReady 1, .next, .next, .receive 0, .setReady 0,
    .startDraining, .next]

end TelegraphCQ.Flux
