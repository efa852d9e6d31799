import TelegraphCQ.Flux.TsbAccounts
import TelegraphCQ.Flux.TsbSchedule

/-!
# Installing the tuples of a moved skew buffer

The copy builds the list of a partition from its sentinel on.  Whether it has the entries
for all tuples depends on the reserves: `finishPart` gives one back where the original had
used its own, but the loop after a page does not, and neither knows which entries the tuples
took.
-/

namespace TelegraphCQ.Flux

open Foundation List Function

variable {Tuple : Type}

/-! ## The list of a partition -/

structure BuiltPart (tsb : Tsb Tuple) (owner : Nat → Owner) (part : Nat) (cells : List Nat)
    (records : List (TsbRecord Tuple)) : Prop where
  list : PartList tsb owner part cells
  start : (cells ++ [tsb.table part]).head? = some (tsb.ack .produced part)
  records : cells.map tsb.recordAt = records

section Lists

variable {tsb next alloced : Tsb Tuple} {owner owner' : Nat → Owner} {part : Nat}
  {cells : List Nat} {records : List (TsbRecord Tuple)}

theorem BuiltPart.count (built : BuiltPart tsb owner part cells records) :
    tsb.counts part = records.length := by
  rw [built.list.count, ← built.records, length_map]

theorem BuiltPart.frame {q : Nat} (built : BuiltPart tsb owner q cells records)
    (other : q ≠ part) (untouched : Untouched tsb next owner owner' part) :
    BuiltPart next owner' q cells records := by
  refine ⟨built.list.frame other untouched, ?_, ?_⟩
  · rw [untouched.table q other, untouched.ack q other]
    exact built.start
  · rw [← built.records]
    refine map_congr_left fun a mem => ?_
    rw [Tsb.recordAt, untouched.heap q other a (built.list.owned a (by simp [mem])), Tsb.recordAt]

theorem BuiltPart.append {a : Nat} {free free' : List Nat}
    (built : BuiltPart tsb owner part cells records)
    (allotted : Allotted part a tsb owner free alloced free') (record : TsbRecord Tuple) :
    PartStep part tsb owner free (linkRecord record part a alloced)
        (update owner a (.list part)) free' ∧
      BuiltPart (linkRecord record part a alloced) (update owner a (.list part)) part
        (cells ++ [tsb.table part]) (records ++ [record]) := by
  obtain ⟨step, list, -, ack⟩ := linkRecord_spec record allotted built.list
  obtain ⟨atLast, -, others⟩ := linkRecord_heap allotted record (built.list.owned _ (by simp))
  refine ⟨step, list, ?_, ?_⟩
  · rw [head?_append, built.start, ack]
    rfl
  · rw [map_append, map_singleton, ← built.records]
    congr 1
    · refine map_congr_left fun b mem => ?_
      rw [Tsb.recordAt, others b, Tsb.recordAt]
      · rintro rfl
        exact allotted.fresh built.list (by simp [mem])
      · rintro rfl
        exact built.list.marked _ mem built.list.sentinel
    · rw [Tsb.recordAt, atLast]
      rfl

end Lists

/-! ## Room for the tuples -/

def passTuples : Nat → List Nat → List Nat
  | _, [] => []
  | count, page :: pages =>
    if count ≤ page then (page - count) :: pages else passTuples (count - page) pages

/-- Whether the copy has the entries for partitions with the given numbers of tuples, of which
some have lent their reserve to nobody.  The partition at hand may have its reserve (`spare`)
or may have used it up; a reserve is given back where more follows on the page. -/
def hasRoom : Bool → Nat → List Nat → List (Nat × Bool) → Bool
  | _, _, _, [] => true
  | spare, free, pages, (count, lent) :: parts =>
    let rest := passTuples count pages
    let more := decide (0 < rest.headD 0)
    decide (count ≤ free + spare.toNat) &&
      (lent || !more || (spare && decide (count ≤ free))) &&
      hasRoom true (free - count + (!lent && more).toNat) rest parts

section Room

variable {spare lent : Bool} {free left count : Nat} {pages : List Nat}
  {parts : List (Nat × Bool)}

theorem passTuples_succ :
    passTuples (count + 1) ((left + 1) :: pages) = passTuples count (left :: pages) := by
  by_cases here : count ≤ left
  · simp [passTuples, here]
  · simp [passTuples, here, Nat.add_sub_add_right]

theorem hasRoom_free : hasRoom spare (free + 1) ((left + 1) :: pages) ((count + 1, lent) :: parts) =
      hasRoom spare free (left :: pages) ((count, lent) :: parts) := by
  have fits : count + 1 ≤ free + 1 + spare.toNat ↔ count ≤ free + spare.toNat := by omega
  simp [hasRoom, passTuples_succ, fits]

theorem hasRoom_spare : hasRoom true 0 ((left + 1) :: pages) ((count + 1, lent) :: parts) =
      hasRoom false 0 (left :: pages) ((count, lent) :: parts) := by
  simp [hasRoom, passTuples_succ]

theorem hasRoom_full : hasRoom false 0 pages ((count + 1, lent) :: parts) = false := by
  simp [hasRoom]

theorem hasRoom_page : hasRoom spare free (0 :: left :: pages) ((count + 1, lent) :: parts) =
      hasRoom spare free (left :: pages) ((count + 1, lent) :: parts) := by
  simp [hasRoom, passTuples]

theorem hasRoom_finish : hasRoom spare free (left :: pages) ((0, lent) :: parts) =
      ((lent || !decide (0 < left) || spare) &&
        hasRoom true (free + (!lent && decide (0 < left)).toNat) (left :: pages) parts) := by
  simp [hasRoom, passTuples]

end Room

/-! ## The run of the installation -/

def progress (all : Nat → List (TsbRecord Tuple)) (current : Nat)
    (front : List (TsbRecord Tuple)) (q : Nat) : List (TsbRecord Tuple) :=
  if q < current then all q else if q = current then front else []

structure Installs (all : Nat → List (TsbRecord Tuple)) (front : List (TsbRecord Tuple))
    (state : Installing Tuple) (owner : Nat → Owner) (free : List Nat) : Prop where
  pool : Pool state.prod.tsb owner free
  accounts : Accounts state.prod.tsb free
  built : ∀ q < state.prod.tsb.numParts, ∃ cells, BuiltPart state.prod.tsb owner q cells
    ((progress all state.currPart front q).map TsbRecord.flipped)
  reserves : ∀ q, state.currPart < q → q < state.prod.tsb.numParts →
    state.prod.tsb.lastEnts q ≠ none

section Run

variable {all : Nat → List (TsbRecord Tuple)} {front records : List (TsbRecord Tuple)}
  {state : Installing Tuple} {owner : Nat → Owner} {free : List Nat}

theorem Installs.append {a : Nat} {free' : List Nat} {alloced : Tsb Tuple}
    (installs : Installs all front state owner free)
    (inside : state.currPart < state.prod.tsb.numParts)
    (allotted : Allotted state.currPart a state.prod.tsb owner free alloced free')
    (record : TsbRecord Tuple) :
    (∃ owner', Installs all (front ++ [record]) (installRecord record state) owner' free') ∧
      (installRecord record state).prod.tsb.lastEnts = alloced.lastEnts := by
  obtain ⟨cells, built⟩ := installs.built state.currPart inside
  have isTsb : (installRecord record state).prod.tsb =
      linkRecord record.flipped state.currPart a alloced := by
    simp only [installRecord, appendResultTsb, allotted.ran]
    rfl
  obtain ⟨step, builtNext⟩ := built.append allotted record.flipped
  have kept : (linkRecord record.flipped state.currPart a alloced).ReserveKept state.currPart := by
    rw [Tsb.ReserveKept, builtNext.count]
    simp
    omega
  refine ⟨⟨update owner a (.list state.currPart), ?_, ?_, ?_, ?_⟩, by rw [isTsb]; rfl⟩
  · rw [isTsb]
    exact step.pool
  · rw [isTsb]
    exact .after step inside installs.accounts kept
  · rw [isTsb, step.numParts]
    intro q isPart
    by_cases here : q = state.currPart
    · subst here
      have isProgress : progress all (installRecord record state).currPart (front ++ [record])
          state.currPart = progress all state.currPart front state.currPart ++ [record] := by
        simp [progress, installRecord]
      rw [isProgress, map_append]
      exact ⟨_, builtNext⟩
    · obtain ⟨others, builtOther⟩ := installs.built q isPart
      refine ⟨others, ?_⟩
      have isProgress : progress all (installRecord record state).currPart (front ++ [record])
          q = progress all state.currPart front q := by
        simp [progress, installRecord, here]
      rw [isProgress]
      exact builtOther.frame here step.untouched
  · rw [isTsb, step.numParts]
    intro q later isPart
    have other : q ≠ state.currPart := by
      have same : (installRecord record state).currPart = state.currPart := rfl
      omega
    rw [step.lastEnts q other]
    exact installs.reserves q later isPart

variable {a left numParts : Nat} {pages : List Nat} {later : List (List (TsbRecord Tuple))}
  {actions : List (InstallAction Tuple)}

theorem Installs.takeFree (installs : Installs all front state owner (a :: free))
    (inside : state.currPart < state.prod.tsb.numParts) (record : TsbRecord Tuple) :
    (∃ owner', Installs all (front ++ [record]) (installRecord record state) owner' free) ∧
      (installRecord record state).prod.tsb.lastEnts = state.prod.tsb.lastEnts := by
  obtain ⟨alloced, -, lastEnts, -, allotted⟩ := allocEntry_cons state.currPart installs.pool
  rw [← lastEnts]
  exact installs.append inside allotted record

theorem Installs.takeReserve (installs : Installs all front state owner [])
    (inside : state.currPart < state.prod.tsb.numParts)
    (last : state.prod.tsb.lastEnts state.currPart = some a) (record : TsbRecord Tuple) :
    (∃ owner', Installs all (front ++ [record]) (installRecord record state) owner' []) ∧
      (installRecord record state).prod.tsb.lastEnts state.currPart = none := by
  obtain ⟨alloced, lastEnts, allotted⟩ := allocEntryWLast_reserve installs.pool last
  obtain ⟨installsNext, isLast⟩ := installs.append inside allotted record
  refine ⟨installsNext, ?_⟩
  rw [isLast, lastEnts, update_self]

/-! A tuple for which there is no entry is lost, and the partition is never complete. -/

def Lacks (state : Installing Tuple) : Prop :=
  state.prod.tsb.counts state.currPart + state.counts state.currPart <
    state.metaData.counts state.currPart

theorem Lacks.installRecord (lacks : Lacks state) (record : TsbRecord Tuple) :
    Lacks (installRecord record state) := by
  have grown := (appendResultTsb_counts record.flipped state.currPart state.prod.tsb).2
  unfold Lacks at lacks ⊢
  simp only [Flux.installRecord, update_self]
  omega

theorem lacks_of_refused (installs : Installs all front state owner [])
    (last : state.prod.tsb.lastEnts state.currPart = none)
    (inside : state.currPart < state.prod.tsb.numParts)
    (counts : state.metaData.counts state.currPart = front.length + state.counts state.currPart)
    (record : TsbRecord Tuple) : Lacks (installRecord record state) := by
  obtain ⟨cells, built⟩ := installs.built state.currPart inside
  have refused : appendResultTsb record.flipped state.currPart state.prod.tsb =
      (false, state.prod.tsb) := by
    simp [appendResultTsb, allocEntryWLast_refused installs.pool last]
  have count := built.count
  simp only [progress, lt_irrefl, if_false, if_true, length_map] at count
  simp only [Lacks, installRecord, refused, update_self]
  omega

theorem runActions_lacks (schedule : Schedule left pages records later actions)
    (lacks : Lacks state) (current : state.counts state.currPart = records.length) :
    ∃ fault, runActions actions state = .error fault := by
  have failed : ∀ {state : Installing Tuple} (more : Bool) (actions : List (InstallAction Tuple)),
      Lacks state → state.counts state.currPart = 0 →
      runActions (.finish more :: actions) state = .error .assertion := by
    intro state more actions lacks current
    have unequal : state.metaData.counts state.currPart ≠
        state.prod.tsb.counts state.currPart := by
      unfold Lacks at lacks
      omega
    cases more with
    | true =>
      simp only [runActions_cons, runAction, finishPart, checkPart, if_neg unequal]
      rfl
    | false =>
      simp only [runActions_cons, runAction, passPart, checkPart, if_neg unequal]
      rfl
  induction schedule generalizing state with
  | @tuple left pages record records later actions schedule ih =>
    rw [runActions_cons]
    refine ih (lacks.installRecord record) ?_
    simp [installRecord, current]
  | finish schedule ih => exact ⟨_, failed _ _ lacks current⟩
  | page schedule ih => exact ih lacks current
  | last => exact ⟨_, failed _ _ lacks current⟩

/-! A partition is finished. -/

theorem Installs.advance (installs : Installs all (all state.currPart) state owner free) :
    Installs all [] { state with currPart := state.currPart + 1 } owner free := by
  refine ⟨installs.pool, installs.accounts, ?_, ?_⟩
  · intro q isPart
    have isProgress : progress all (state.currPart + 1) [] q =
        progress all state.currPart (all state.currPart) q := by
      unfold progress
      by_cases here : q = state.currPart
      · simp [here]
      · have before : q < state.currPart + 1 ↔ q < state.currPart := by omega
        simp [here, before]
    simp only [isProgress]
    exact installs.built q isPart
  · intro q later isPart
    exact installs.reserves q (by simp only at later; omega) isPart

theorem checkPart_complete (installs : Installs all (all state.currPart) state owner free)
    (inside : state.currPart < state.prod.tsb.numParts)
    (counts : state.metaData.counts state.currPart = (all state.currPart).length) :
    checkPart state = .ok () ∧
      state.prod.tsb.counts state.currPart = (all state.currPart).length := by
  obtain ⟨cells, built⟩ := installs.built state.currPart inside
  have count := built.count
  simp only [progress, lt_irrefl, if_false, if_true, length_map] at count
  exact ⟨by rw [checkPart, if_pos (counts.trans count.symm)], count⟩

theorem Installs.returnLastEnt (installs : Installs all front state owner free)
    (inside : state.currPart < state.prod.tsb.numParts)
    (last : state.prod.tsb.lastEnts state.currPart = some a)
    (some : 0 < state.prod.tsb.counts state.currPart) :
    ∃ next owner', returnLastEntTsb state.currPart state.prod.tsb = .ok next ∧
      Installs all front { state with prod := { state.prod with tsb := next } } owner'
        (a :: free) := by
  have step := returned_partStep installs.pool last
  have ran : returnLastEntTsb state.currPart state.prod.tsb =
      .ok (returned state.currPart a state.prod.tsb) := by
    rw [returnLastEntTsb, last]
    rfl
  refine ⟨_, _, ran, step.pool, ?_, ?_, ?_⟩
  · exact .after step inside installs.accounts ⟨some.le, fun _ => some⟩
  · intro q isPart
    obtain ⟨cells, built⟩ := installs.built q isPart
    exact ⟨cells, built.frame (Nat.ne_of_lt isPart) ((returned_pool installs.pool last).2 _)⟩
  · intro q later isPart
    have other : q ≠ state.currPart := Nat.ne_of_gt later
    simp only [returned, update_of_ne other]
    exact installs.reserves q later isPart

section

variable (installs : Installs all (all state.currPart) state owner free)
include installs

section

variable (inside : state.currPart < state.prod.tsb.numParts)
  (counts : state.metaData.counts state.currPart = (all state.currPart).length)
include inside counts

theorem finishPart_lent (more : Bool) (kept : (state.metaData.lents state.currPart || !more) = true)
    : runAction state (.finish more) = .ok { state with currPart := state.currPart + 1 } := by
  obtain ⟨checked, -⟩ := checkPart_complete installs inside counts
  cases more with
  | false =>
    rw [runAction, passPart, checked]
    rfl
  | true =>
    have lent : state.metaData.lents state.currPart = true := by simpa using kept
    simp only [runAction, finishPart, checked, lent]
    rfl

theorem finishPart_returned (used : all state.currPart ≠ [])
    (lent : state.metaData.lents state.currPart = false)
    (last : state.prod.tsb.lastEnts state.currPart = some a) :
    ∃ next owner', runAction state (.finish true) = .ok next ∧
      next.currPart = state.currPart + 1 ∧ next.metaData = state.metaData ∧
      next.counts = state.counts ∧ next.prod = { state.prod with tsb := next.prod.tsb } ∧
      next.prod.tsb.numParts = state.prod.tsb.numParts ∧
      next.prod.tsb.lastEnts (state.currPart + 1) = state.prod.tsb.lastEnts (state.currPart + 1) ∧
      Installs all [] next owner' (a :: free) := by
  obtain ⟨checked, count⟩ := checkPart_complete installs inside counts
  have some : 0 < (all state.currPart).length := length_pos_iff.mpr used
  obtain ⟨tsb, owner', returned, installsNext⟩ := installs.returnLastEnt inside last (by omega)
  have notEmpty : ¬ state.prod.tsb.counts state.currPart = 0 := by omega
  have ran : runAction state (.finish true) = .ok
      { state with prod := { state.prod with tsb }, currPart := state.currPart + 1 } := by
    simp [runAction, finishPart, checked, lent, bind, Except.bind, if_neg notEmpty, returned]
  have others : tsb.numParts = state.prod.tsb.numParts ∧
      tsb.lastEnts (state.currPart + 1) = state.prod.tsb.lastEnts (state.currPart + 1) := by
    simp only [returnLastEntTsb, last, Except.ok.injEq] at returned
    rw [← returned]
    exact ⟨rfl, update_of_ne (by omega) _ _⟩
  have installsAfter := @Installs.advance _ all
    { state with prod := { state.prod with tsb } } owner' (a :: free) installsNext
  exact ⟨_, owner', ran, rfl, rfl, rfl, rfl, others.1, others.2, installsAfter⟩

theorem finishPart_missing (used : all state.currPart ≠ [])
    (lent : state.metaData.lents state.currPart = false)
    (last : state.prod.tsb.lastEnts state.currPart = none) :
    runAction state (.finish true) = .error .nullEntry := by
  obtain ⟨checked, count⟩ := checkPart_complete installs inside counts
  have some : 0 < (all state.currPart).length := length_pos_iff.mpr used
  have notEmpty : ¬ state.prod.tsb.counts state.currPart = 0 := by omega
  simp [runAction, finishPart, checked, lent, bind, Except.bind, if_neg notEmpty, returnLastEntTsb,
    last]

end

end

structure Filled (all : Nat → List (TsbRecord Tuple)) (tsb : Tsb Tuple) (owner : Nat → Owner)
    (free : List Nat) : Prop where
  pool : Pool tsb owner free
  accounts : Accounts tsb free
  built : ∀ q < tsb.numParts, ∃ cells,
    BuiltPart tsb owner q cells ((all q).map TsbRecord.flipped)

def laterParts (all : Nat → List (TsbRecord Tuple)) (lents : Nat → Bool) (numParts part : Nat) :
    List (Nat × Bool) :=
  (List.range' part (numParts - part)).map fun q => ((all q).length, lents q)

theorem laterParts_eq (all : Nat → List (TsbRecord Tuple)) (lents : Nat → Bool) {part : Nat}
    (inside : part < numParts) : laterParts all lents numParts part =
      ((all part).length, lents part) :: laterParts all lents numParts (part + 1) := by
  have some : numParts - part = (numParts - (part + 1)) + 1 := by omega
  rw [laterParts, some, range'_succ, map_cons, laterParts]

structure Announced (all : Nat → List (TsbRecord Tuple)) (metaData : TsbMetaData Tuple)
    (numParts : Nat) : Prop where
  counts : ∀ q < numParts, metaData.counts q = (all q).length
  used : ∀ q < numParts, metaData.lents q = false → all q ≠ []

def EndsFilled (all : Nat → List (TsbRecord Tuple)) (state : Installing Tuple) (room : Bool)
    (outcome : Except TransferFault (Installing Tuple)) : Prop :=
  match room with
  | true => ∃ final owner free, outcome = .ok final ∧ final.metaData = state.metaData ∧
      final.prod = { state.prod with tsb := final.prod.tsb } ∧
      final.prod.tsb.numParts = state.prod.tsb.numParts ∧
      Filled all final.prod.tsb owner free
  | false => ∃ fault, outcome = .error fault

theorem EndsFilled.of_later {next : Installing Tuple} {room : Bool}
    {outcome : Except TransferFault (Installing Tuple)} (ends : EndsFilled all next room outcome)
    (sameMetaData : next.metaData = state.metaData)
    (sameProd : next.prod = { state.prod with tsb := next.prod.tsb })
    (parts : next.prod.tsb.numParts = state.prod.tsb.numParts) :
    EndsFilled all state room outcome := by
  cases room with
  | false => exact ends
  | true =>
    obtain ⟨final, owner, free, ran, metaData, prod, finalParts, filled⟩ := ends
    refine ⟨final, owner, free, ran, metaData.trans sameMetaData, ?_, finalParts.trans parts,
      filled⟩
    rw [prod, sameProd]

theorem Installs.filled (installs : Installs all [] state owner free)
    (atEnd : state.currPart = state.prod.tsb.numParts) : Filled all state.prod.tsb owner free := by
  refine ⟨installs.pool, installs.accounts, fun q isPart => ?_⟩
  have built := installs.built q isPart
  rwa [progress, if_pos (by omega)] at built

theorem runActions_ends (schedule : Schedule left pages records later actions)
    (installs : Installs all front state owner free) (awaits : Awaits numParts state records later)
    (isAll : front ++ records = all state.currPart)
    (isLater : later = (List.range' (state.currPart + 1) (numParts - (state.currPart + 1))).map all)
    (announced : Announced all state.metaData numParts) : EndsFilled all state
      (hasRoom (state.prod.tsb.lastEnts state.currPart).isSome free.length (left :: pages)
        ((records.length, state.metaData.lents state.currPart) ::
          laterParts all state.metaData.lents numParts (state.currPart + 1)))
      (runActions actions state) := by
  have inside : ∀ {state : Installing Tuple} {records : List (TsbRecord Tuple)}
      {later : List (List (TsbRecord Tuple))}, Awaits numParts state records later →
      state.currPart < state.prod.tsb.numParts ∧ state.currPart < numParts := by
    intro state records later awaits
    have parts := awaits.parts
    have place := awaits.place
    omega
  induction schedule generalizing state front owner free with
  | @tuple left pages record records later actions schedule ih =>
    obtain ⟨here, hereToo⟩ := inside awaits
    have isAllNext : front ++ [record] ++ records = all state.currPart := by
      rw [← isAll, append_assoc, singleton_append]
    have parts := (appendResultTsb_counts record.flipped state.currPart state.prod.tsb).1
    rw [runActions_cons, length_cons]
    cases free with
    | cons a free =>
      obtain ⟨⟨owner', installsNext⟩, lastEnts⟩ := installs.takeFree here record
      have rest := ih installsNext awaits.installRecord isAllNext isLater announced
      rw [lastEnts] at rest
      rw [length_cons, hasRoom_free]
      exact rest.of_later rfl rfl parts
    | nil =>
      cases last : state.prod.tsb.lastEnts state.currPart with
      | none =>
        rw [length_nil, Option.isSome_none, hasRoom_full]
        have current := awaits.current
        have counts := announced.counts state.currPart hereToo
        rw [← isAll, length_append] at counts
        have lacks := lacks_of_refused installs last here (by omega) record
        exact runActions_lacks schedule lacks awaits.installRecord.current
      | some a =>
        obtain ⟨⟨owner', installsNext⟩, used⟩ := installs.takeReserve here last record
        have rest := ih installsNext awaits.installRecord isAllNext isLater announced
        have usedToo : (installRecord record state).prod.tsb.lastEnts
            (installRecord record state).currPart = none := used
        rw [usedToo] at rest
        rw [length_nil, Option.isSome_some, hasRoom_spare]
        exact rest.of_later rfl rfl parts
  | @finish left pages records later actions schedule ih =>
    obtain ⟨here, hereToo⟩ := inside awaits
    have place := awaits.place
    rw [length_cons] at place
    rw [append_nil] at isAll
    subst isAll
    have several : numParts - (state.currPart + 1) =
        (numParts - (state.currPart + 1 + 1)) + 1 := by omega
    rw [several, range'_succ, map_cons] at isLater
    obtain ⟨isRecords, isLaterNext⟩ := List.cons.inj isLater
    have spare : (state.prod.tsb.lastEnts (state.currPart + 1)).isSome = true := by
      have parts := awaits.parts
      have kept := installs.reserves (state.currPart + 1) (Nat.lt_succ_self _) (by omega)
      simpa [Option.isSome_iff_ne_none] using kept
    have given : (!state.metaData.lents state.currPart && decide (0 < left)) =
        !(state.metaData.lents state.currPart || !decide (0 < left)) := by simp
    rw [length_nil, hasRoom_finish, laterParts_eq _ _ (by omega), runActions_cons, given,
      ← isRecords]
    by_cases kept : (state.metaData.lents state.currPart || !decide (0 < left)) = true
    · have finished := finishPart_lent installs here (announced.counts _ hereToo) _ kept
      have rest := ih installs.advance (awaits.advance rfl rfl rfl) isRecords isLaterNext
        announced
      simp only [spare] at rest
      rw [finished, kept, Bool.true_or, Bool.true_and, Bool.not_true, Bool.toNat_false,
        Nat.add_zero]
      exact rest.of_later rfl rfl rfl
    · rw [Bool.not_eq_true] at kept
      obtain ⟨lent, more⟩ : state.metaData.lents state.currPart = false ∧
          decide (0 < left) = true := by simpa using kept
      have used := announced.used state.currPart hereToo lent
      rw [kept, Bool.false_or, more]
      cases last : state.prod.tsb.lastEnts state.currPart with
      | none =>
        rw [finishPart_missing installs here (announced.counts _ hereToo) used lent last]
        exact ⟨_, rfl⟩
      | some a =>
        obtain ⟨next, owner', ran, isNext, metaData, counts, prod, parts, lastEnts, installsNext⟩ :=
          finishPart_returned installs here (announced.counts _ hereToo) used lent last
        have rest := ih installsNext (awaits.advance parts counts isNext)
          (by rw [isNext]; exact isRecords) (by rw [isNext]; exact isLaterNext)
          (by rw [metaData]; exact announced)
        rw [isNext, lastEnts, spare, metaData] at rest
        rw [ran]
        exact rest.of_later metaData prod parts
  | @page left pages record records later actions schedule ih =>
    rw [length_cons, hasRoom_page, ← length_cons]
    exact ih installs awaits isAll isLater announced
  | last =>
    obtain ⟨here, hereToo⟩ := inside awaits
    have place := awaits.place
    have parts := awaits.parts
    rw [append_nil] at isAll
    subst isAll
    rw [length_nil] at place
    have noLater : laterParts all state.metaData.lents numParts (state.currPart + 1) = [] := by
      rw [laterParts, Nat.sub_eq_zero_of_le (by omega)]
      rfl
    have finished := finishPart_lent installs here (announced.counts _ hereToo) false (by simp)
    rw [length_nil, hasRoom_finish, noLater, runActions_cons, finished]
    simp only [lt_irrefl, decide_false, Bool.not_false, Bool.or_true, Bool.true_or, hasRoom,
      Bool.and_self]
    exact ⟨_, owner, free, rfl, rfl, rfl, rfl, installs.advance.filled (by simp only; omega)⟩

end Run

end TelegraphCQ.Flux
