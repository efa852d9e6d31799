import Mathlib
import TelegraphCQ.Eddy.RangeTable

/-!
# Range table and sources stay aligned

The range table is the list of the relations of the sources, slot by slot, whatever queries
come and go.  So the first unused entry and the first free slot are the same place.
-/

namespace TelegraphCQ.Eddy.RangeTable

open Foundation List

section Aligned

variable {Rel : Type}

def SourceModule.realOid (source : SourceModule Rel) : Rel :=
  match source.scan with
  | .seqScan _ => source.currentRelation
  | .strmScan _ streamoid => streamoid

theorem getRealSourceOid_eq (slot : Option (SourceModule Rel)) :
    getRealSourceOid slot = slot.map SourceModule.realOid := by
  rcases slot with _ | ⟨_ | _, _, _, _⟩ <;> rfl

structure SourceOk (inUse : List (Nat × Rel)) (k : Nat) (source : SourceModule Rel) : Prop where
  operator : source.operator = k + 1
  varNo : sourceGetVarNo source.scan = k + 1
  distinct : source.usedByQueries.Nodup
  used : source.usedByQueries ≠ []
  users : ∀ queryid, queryid ∈ source.usedByQueries ↔ (queryid, source.realOid) ∈ inUse

structure Aligned (inUse : List (Nat × Rel)) (tables : SourceTables Rel) : Prop where
  entries : tables.rangetable = tables.sources.map (Option.map SourceModule.realOid)
  sources : ∀ k source, tables.sources[k]? = some (some source) → SourceOk inUse k source
  unique : (tables.rangetable.filterMap id).Nodup
  covered : ∀ use ∈ inUse, some use.2 ∈ tables.rangetable

theorem aligned_empty : Aligned [] (emptyTables : SourceTables Rel) where
  entries := rfl
  sources := by simp [emptyTables]
  unique := nodup_nil
  covered := by simp

variable {inUse : List (Nat × Rel)} {tables : SourceTables Rel}

variable (aligned : Aligned inUse tables)

include aligned in
theorem Aligned.entry (k : Nat) :
    tables.rangetable[k]? = (tables.sources[k]?).map (Option.map SourceModule.realOid) := by
  rw [aligned.entries, getElem?_map]

variable {source : SourceModule Rel} {rel scanoid : Rel} {queryid k : Nat}
  {rtable rangetable : List (Option Rel)} {scan : Scan Rel}

section

include aligned

theorem Aligned.slot_of_operator (member : some source ∈ tables.sources) :
    ∃ k, source.operator = k + 1 ∧ tables.sources[k]? = some (some source) := by
  obtain ⟨k, at_k⟩ := mem_iff_getElem?.mp member
  exact ⟨k, (aligned.sources k source at_k).operator, at_k⟩

theorem Aligned.used (member : some rel ∈ tables.rangetable) :
    ∃ queryid, (queryid, rel) ∈ inUse := by
  obtain ⟨k, at_k⟩ := mem_iff_getElem?.mp member
  rw [aligned.entry] at at_k
  obtain ⟨slot, source_at, named⟩ := Option.map_eq_some_iff.mp at_k
  obtain ⟨source, rfl, rfl⟩ := Option.map_eq_some_iff.mp named
  have ok := aligned.sources k source source_at
  obtain ⟨queryid, user⟩ := exists_mem_of_ne_nil _ ok.used
  exact ⟨queryid, (ok.users queryid).mp user⟩

theorem Aligned.active : getNumActiveSources tables = (tables.rangetable.filterMap id).length := by
  rw [getNumActiveSources, aligned.entries, filled_map, length_map]

theorem Aligned.congr {other : List (Nat × Rel)} (same : ∀ use, use ∈ inUse ↔ use ∈ other)
    : Aligned other tables where
  entries := aligned.entries
  sources := by
    intro k source at_k
    have ok := aligned.sources k source at_k
    exact ⟨ok.operator, ok.varNo, ok.distinct, ok.used, fun q => (ok.users q).trans (same _)⟩
  unique := aligned.unique
  covered := fun use member => aligned.covered use ((same use).mpr member)

end

/-! ## One use more -/

theorem nodup_fjordAddQuery {usedByQueries : List Nat} (distinct : usedByQueries.Nodup) :
    (fjordAddQuery queryid usedByQueries).Nodup := by
  rw [fjordAddQuery]
  split_ifs with there
  · exact distinct
  · exact nodup_cons.mpr ⟨there, distinct⟩

theorem realOid_addQueryTo (eddyrteidx queryid : Nat) (source : SourceModule Rel) :
    (addQueryTo eddyrteidx queryid source).realOid = source.realOid := by
  rw [addQueryTo]
  split_ifs <;> rfl

include aligned in
theorem aligned_addQueryTo (entry : tables.rangetable[k]? = some (some rel)) (queryid : Nat) :
    Aligned ((queryid, rel) :: inUse)
      { tables with
        sources := tables.sources.map (Option.map (addQueryTo (k + 1) queryid)) } where
  entries := by
    rw [aligned.entries, map_map]
    congr 1
    funext slot
    cases slot with
    | none => rfl
    | some source => exact congrArg some (realOid_addQueryTo (k + 1) queryid source).symm
  sources := by
    intro j source at_j
    rw [getElem?_map] at at_j
    obtain ⟨slot, before, mapped⟩ := Option.map_eq_some_iff.mp at_j
    obtain ⟨source, rfl, rfl⟩ := Option.map_eq_some_iff.mp mapped
    have ok := aligned.sources j source before
    have named : tables.rangetable[j]? = some (some source.realOid) := by
      rw [aligned.entry, before]
      rfl
    by_cases here : j = k
    · have same : source.realOid = rel := by
        rw [here, entry] at named
        exact (Option.some.inj (Option.some.inj named)).symm
      have reached : source.operator = k + 1 := by rw [ok.operator, here]
      rw [addQueryTo, if_pos reached]
      refine ⟨ok.operator, ok.varNo, nodup_fjordAddQuery ok.distinct, ?_, ?_⟩
      · exact ne_nil_of_mem (mem_fjordAddQuery.mpr (Or.inl rfl))
      · intro q
        have names : (q, source.realOid) = (queryid, rel) ↔ q = queryid := by simp [same]
        exact (mem_fjordAddQuery.trans (or_congr names.symm (ok.users q))).trans
          mem_cons.symm
    · have other : source.realOid ≠ rel := by
        intro same
        rw [same] at named
        exact here (slot_unique aligned.unique named entry)
      have missed : source.operator ≠ k + 1 := by
        rw [ok.operator]
        omega
      rw [addQueryTo, if_neg missed]
      refine ⟨ok.operator, ok.varNo, ok.distinct, ok.used, ?_⟩
      intro q
      rw [ok.users, mem_cons]
      simp [other]
  unique := aligned.unique
  covered := by
    intro use member
    rcases mem_cons.mp member with rfl | earlier
    · exact mem_of_getElem? entry
    · exact aligned.covered use earlier

include aligned in
theorem aligned_fillHole {rel : Rel} (absent : some rel ∉ tables.rangetable)
    {source : SourceModule Rel} {queryid : Nat} (named : source.realOid = rel)
    (users : source.usedByQueries = [queryid])
    (operator : source.operator = firstHole tables.sources + 1)
    (varNo : sourceGetVarNo source.scan = firstHole tables.sources + 1) :
    Aligned ((queryid, rel) :: inUse)
      ⟨fillHole rel tables.rangetable, fillHole source tables.sources⟩ where
  entries := by rw [fillHole_map, ← aligned.entries, named]
  sources := by
    intro k other at_k
    have unused : ∀ q, (q, rel) ∉ inUse := fun q member => absent (aligned.covered _ member)
    rw [getElem?_fillHole] at at_k
    split_ifs at at_k with here
    · obtain rfl : source = other := Option.some.inj (Option.some.inj at_k)
      refine ⟨here ▸ operator, here ▸ varNo, by simp [users], by simp [users], ?_⟩
      intro q
      simp [users, named, unused]
    · have ok := aligned.sources k other at_k
      have different : other.realOid ≠ rel := by
        rintro rfl
        apply absent
        refine mem_of_getElem? (i := k) ?_
        rw [aligned.entry, at_k]
        rfl
      refine ⟨ok.operator, ok.varNo, ok.distinct, ok.used, ?_⟩
      intro q
      rw [ok.users, mem_cons]
      simp [different]
  unique := by
    refine (perm_fillHole rel tables.rangetable).nodup_iff.mpr (nodup_cons.mpr ⟨?_, ?_⟩)
    · intro member
      obtain ⟨slot, there, filled⟩ := mem_filterMap.mp member
      exact absent (filled ▸ there)
    · exact aligned.unique
  covered := by
    have kept : ∀ r, some r ∈ tables.rangetable ∨ r = rel →
        some r ∈ fillHole rel tables.rangetable := by
      intro r either
      have inside : r ∈ (fillHole rel tables.rangetable).filterMap id := by
        refine (perm_fillHole rel tables.rangetable).mem_iff.mpr (mem_cons.mpr ?_)
        rcases either with there | same
        · exact Or.inr (mem_filterMap.mpr ⟨some r, there, rfl⟩)
        · exact Or.inl same
      obtain ⟨slot, there, filled⟩ := mem_filterMap.mp inside
      exact filled ▸ there
    intro use member
    rcases mem_cons.mp member with rfl | earlier
    · exact kept _ (Or.inr rfl)
    · exact kept _ (Or.inl (aligned.covered use earlier))

/-! ## One user less -/

def dropUser (queryid : Nat) : Option (SourceModule Rel) → Option (SourceModule Rel)
  | none => none
  | some source =>
    if (fjordRemoveQuery queryid source.usedByQueries).length = 0 then none
    else
      some { source with usedByQueries := fjordRemoveQuery queryid source.usedByQueries }

theorem removeFromSources_eq (queryid : Nat) (rest : List (Option (SourceModule Rel)))
    (passed : List (Option Rel)) (numbered : ∀ j source, rest[j]? = some (some source) →
      source.operator = passed.length + j + 1) : removeFromSources queryid rest
        (passed ++ rest.map (Option.map SourceModule.realOid)) = (rest.map (dropUser queryid),
        passed ++ (rest.map (dropUser queryid)).map (Option.map SourceModule.realOid)) := by
  induction rest generalizing passed with
  | nil => rfl
  | cons slot rest ih =>
    have later : ∀ entry j source, rest[j]? = some (some source) →
        source.operator = (passed ++ [entry]).length + j + 1 := by
      intro entry j source at_j
      rw [numbered (j + 1) source at_j, length_append, length_singleton]
      omega
    have shifted : ∀ (entry : Option Rel) (more : List (Option Rel)),
        passed ++ entry :: more = passed ++ [entry] ++ more := by simp
    cases slot with
    | none =>
      rw [map_cons, shifted, removeFromSources, ih _ (later _)]
      simp [dropUser]
    | some source =>
      have at_end : source.operator - 1 = passed.length := by
        rw [numbered 0 source rfl]
        omega
      rw [removeFromSources]
      by_cases last : (fjordRemoveQuery queryid source.usedByQueries).length = 0
      · have freed : removeSourceFromRt source.operator
            (passed ++ (some source :: rest).map (Option.map SourceModule.realOid)) =
              passed ++ [none] ++ rest.map (Option.map SourceModule.realOid) := by
          rw [removeSourceFromRt, at_end]
          simp
        rw [if_pos last, freed, ih _ (later _)]
        simp [dropUser, last]
      · rw [if_neg last, map_cons, shifted, ih _ (later _)]
        simp [dropUser, last, SourceModule.realOid]

theorem filled_dropUser (queryid : Nat) (sources : List (Option (SourceModule Rel))) :
    (((sources.map (dropUser queryid)).map (Option.map SourceModule.realOid)).filterMap
        id).Sublist ((sources.map (Option.map SourceModule.realOid)).filterMap id) := by
  induction sources with
  | nil => exact List.Sublist.refl _
  | cons slot rest ih =>
    cases slot with
    | none => exact ih
    | some source =>
      by_cases last : (fjordRemoveQuery queryid source.usedByQueries).length = 0
      · simp only [map_cons, dropUser, last, if_true]
        exact ih.cons _
      · simp only [map_cons, dropUser, last, if_false]
        exact ih.cons_cons _

def withoutQuery (queryid : Nat) (inUse : List (Nat × Rel)) : List (Nat × Rel) :=
  inUse.filter fun use => decide (use.1 ≠ queryid)

theorem mem_withoutQuery {use : Nat × Rel} :
    use ∈ withoutQuery queryid inUse ↔ use ∈ inUse ∧ use.1 ≠ queryid := by
  simp [withoutQuery]

theorem dropUser_ok {left : SourceModule Rel} (ok : SourceOk inUse k source)
    (dropped : dropUser queryid (some source) = some left) :
    SourceOk (withoutQuery queryid inUse) k left := by
  rw [dropUser] at dropped
  split_ifs at dropped with last
  obtain rfl := Option.some.inj dropped
  refine ⟨ok.operator, ok.varNo, (ok.distinct.erase _).erase _, ?_, ?_⟩
  · intro empty
    exact last (length_eq_zero_iff.mpr empty)
  · intro q
    rw [mem_fjordRemoveQuery ok.distinct, mem_withoutQuery, ok.users, and_comm]
    rfl

include aligned in
theorem aligned_dropUser (queryid : Nat) : Aligned (withoutQuery queryid inUse)
      ⟨(tables.sources.map (dropUser queryid)).map (Option.map SourceModule.realOid),
        tables.sources.map (dropUser queryid)⟩ where
  entries := rfl
  sources := by
    intro k left at_k
    rw [getElem?_map] at at_k
    obtain ⟨slot, before, dropped⟩ := Option.map_eq_some_iff.mp at_k
    cases slot with
    | none => cases dropped
    | some source => exact dropUser_ok (aligned.sources k source before) dropped
  unique := by
    have distinct := aligned.unique
    rw [aligned.entries] at distinct
    exact (filled_dropUser queryid tables.sources).nodup distinct
  covered := by
    intro use member
    obtain ⟨earlier, other⟩ := mem_withoutQuery.mp member
    obtain ⟨k, at_k⟩ := mem_iff_getElem?.mp (aligned.covered use earlier)
    rw [aligned.entry] at at_k
    obtain ⟨slot, source_at, named⟩ := Option.map_eq_some_iff.mp at_k
    obtain ⟨source, rfl, realOid_eq⟩ := Option.map_eq_some_iff.mp named
    have ok := aligned.sources k source source_at
    have user : use.1 ∈ fjordRemoveQuery queryid source.usedByQueries := by
      refine (mem_fjordRemoveQuery ok.distinct).mpr ⟨other, (ok.users _).mpr ?_⟩
      rw [realOid_eq]
      exact earlier
    have stays : ¬ (fjordRemoveQuery queryid source.usedByQueries).length = 0 := by
      intro none_left
      rw [length_eq_zero_iff.mp none_left] at user
      cases user
    refine mem_of_getElem? (i := k) ?_
    rw [getElem?_map, getElem?_map, source_at]
    simp only [Option.map_some, dropUser, if_neg stays]
    rw [← realOid_eq]
    rfl

theorem Scan.Names.relation (names : scan.Names rtable) :
    ∃ rel, rtFetch scan.scanrelid rtable = some (some rel) ∧
      ∀ idx operator usedByQueries, (SourceModule.mk (scan.adjust idx) rel operator
        usedByQueries).realOid = rel := by
  cases scan with
  | seqScan scanrelid =>
    obtain ⟨rel, fetched⟩ := names
    exact ⟨rel, fetched, fun _ _ _ => rfl⟩
  | strmScan scanrelid streamoid => exact ⟨streamoid, names, fun _ _ _ => rfl⟩

theorem sourceGetVarNo_adjust (scan : Scan Rel) (idx : Nat) :
    sourceGetVarNo (scan.adjust idx) = idx := by
  cases scan <;> rfl

theorem addSource_eq (scan : Scan Rel) (queryid : Nat) {sources : List (Option (SourceModule Rel))}
    (entry : rtFetch (firstHole sources + 1) rangetable = some (some rel))
    (room : getNumActiveSources ⟨rangetable, sources⟩ + 1 ≤ tcqMaxSources) :
    addSource scan (firstHole sources + 1) queryid ⟨rangetable, sources⟩ = .ok ⟨rangetable,
        fillHole ⟨scan.adjust (firstHole sources + 1), rel, firstHole sources + 1, [queryid]⟩
          sources⟩ := by
  simp only [addSource, entry, addPlanitemToEddy, not_not.mpr room, if_false, Nat.add_sub_cancel]
  have placed := @getElem?_fillHole _
    (⟨scan.adjust (firstHole sources + 1), rel, firstHole sources + 1, [queryid]⟩ :
      SourceModule Rel) sources (firstHole sources)
  rw [if_pos rfl] at placed
  simp only [bind, Except.bind, placed]
  exact if_pos (sourceGetVarNo_adjust scan _)

variable [DecidableEq Rel]

/-! ## Looking up a relation -/

theorem findRte_found (member : some scanoid ∈ rangetable) (idx : Nat) (unusedidx : Option Nat) :
    ∃ k u, findRte scanoid rangetable idx unusedidx = (some (idx + k), u) ∧
      rangetable[k]? = some (some scanoid) := by
  induction rangetable generalizing idx unusedidx with
  | nil => simp at member
  | cons rte rest ih =>
    by_cases here : rte = some scanoid
    · exact ⟨0, unusedidx, by rw [findRte, if_pos here]; rfl, by simp [here]⟩
    · have later : some scanoid ∈ rest := by
        rcases mem_cons.mp member with first | later
        · exact absurd first.symm here
        · exact later
      obtain ⟨k, u, found, at_k⟩ := ih later (idx + 1)
        (if unusedidx = none ∧ rte = none then some idx else unusedidx)
      refine ⟨k + 1, u, ?_, by simpa using at_k⟩
      rw [findRte, if_neg here, found, Nat.add_right_comm, Nat.add_assoc]

theorem findRte_absent (absent : some scanoid ∉ rangetable) (idx : Nat) (unused : Option Nat) :
    findRte scanoid rangetable idx unused =
      (none, unused.or (if firstHole rangetable = rangetable.length then none
        else some (idx + firstHole rangetable))) := by
  induction rangetable generalizing idx unused with
  | nil => simp [findRte, firstHole]
  | cons rte rest ih =>
    have other := ne_of_not_mem_cons absent
    rw [findRte, if_neg (Ne.symm other), ih (not_mem_of_not_mem_cons absent)]
    cases rte with
    | none => cases unused <;> simp [firstHole, findIdx_cons]
    | some rel =>
      have next : firstHole (some rel :: rest) = firstHole rest + 1 := by
        simp [firstHole, findIdx_cons]
      rw [if_neg (by simp), next, length_cons]
      simp only [Nat.add_right_cancel_iff, Nat.add_assoc, Nat.add_comm 1]

theorem enterRelation_found (member : some scanoid ∈ rangetable) :
    ∃ k, enterRelation scanoid rangetable = .ok (k + 1, rangetable) ∧
      rangetable[k]? = some (some scanoid) := by
  obtain ⟨k, u, found, at_k⟩ := findRte_found member 1 none
  exact ⟨k, by rw [enterRelation, found, Nat.add_comm], at_k⟩

theorem enterRelation_absent (absent : some scanoid ∉ rangetable) :
    enterRelation scanoid rangetable =
      .ok (firstHole rangetable + 1, fillHole scanoid rangetable) := by
  rw [enterRelation, findRte_absent absent, Option.none_or, fillHole]
  by_cases full : firstHole rangetable = rangetable.length
  · simp only [full, if_true]
  · have unused : rtFetch (1 + firstHole rangetable) rangetable = some none := by
      rw [rtFetch, if_neg (by omega), Nat.add_sub_cancel_left, getElem?_firstHole full]
    simp only [if_neg full, unused, ne_eq, not_true_eq_false, if_false, Nat.add_sub_cancel_left]
    rw [Nat.add_comm]

/-! ## Runs -/

theorem sanityCheck_of_entries (sources : List (Option (SourceModule Rel))) :
    sanityCheckRtSources ⟨sources.map (Option.map SourceModule.realOid), sources⟩ = true := by
  rw [sanityCheckRtSources, all_eq_true]
  intro i member
  have within : i < sources.length := by
    simpa using mem_range.mp member
  simp [within, getRealSourceOid_eq]

include aligned in
theorem removeQuery_aligned (queryid : Nat) : ∃ tables', removeQuery queryid tables = .ok tables' ∧
      Aligned (withoutQuery queryid inUse) tables' := by
  have removed := removeFromSources_eq queryid tables.sources [] (by
    intro j source at_j
    rw [(aligned.sources j source at_j).operator, length_nil, Nat.zero_add])
  rw [nil_append, nil_append, ← aligned.entries] at removed
  refine ⟨_, ?_, aligned_dropUser aligned queryid⟩
  simp only [removeQuery, removed, sanityCheck_of_entries, if_true]

def relations (inUse : List (Nat × Rel)) : Finset Rel := (inUse.map Prod.snd).toFinset

include aligned in
theorem Aligned.active_le : getNumActiveSources tables ≤ (relations inUse).card := by
  rw [aligned.active, ← toFinset_card_of_nodup aligned.unique]
  apply Finset.card_le_card
  intro rel member
  obtain ⟨slot, there, filled⟩ := mem_filterMap.mp (mem_toFinset.mp member)
  rw [show slot = some rel from filled] at there
  obtain ⟨queryid, use⟩ := aligned.used there
  exact mem_toFinset.mpr (mem_map.mpr ⟨_, use, rfl⟩)

include aligned in
theorem adjustScan_aligned (queryid : Nat) (names : scan.Names rtable)
    (limit : ∀ rel, rtFetch scan.scanrelid rtable = some (some rel) →
      (relations ((queryid, rel) :: inUse)).card ≤ tcqMaxSources) :
    ∃ rel tables', rtFetch scan.scanrelid rtable = some (some rel) ∧
      adjustScan queryid rtable scan tables = .ok tables' ∧
      Aligned ((queryid, rel) :: inUse) tables' := by
  obtain ⟨rel, fetched, real⟩ := names.relation
  refine ⟨rel, ?_⟩
  simp only [adjustScan, fetched, true_and]
  by_cases member : some rel ∈ tables.rangetable
  · obtain ⟨k, entered, at_k⟩ := enterRelation_found member
    have there : tables.sources.any (isOperator (k + 1)) = true := by
      have entry := at_k
      rw [aligned.entry] at entry
      obtain ⟨slot, source_at, named⟩ := Option.map_eq_some_iff.mp entry
      obtain ⟨source, rfl, -⟩ := Option.map_eq_some_iff.mp named
      refine any_eq_true.mpr ⟨_, mem_of_getElem? source_at, ?_⟩
      simp [isOperator, (aligned.sources k source source_at).operator]
    refine ⟨_, ?_, aligned_addQueryTo aligned at_k queryid⟩
    rw [entered]
    exact if_pos there
  · have same_hole : firstHole tables.rangetable = firstHole tables.sources := by
      rw [aligned.entries, firstHole_map]
    have nowhere : ¬ tables.sources.any (isOperator (firstHole tables.sources + 1)) = true := by
      intro found
      obtain ⟨slot, there, numbered_so⟩ := any_eq_true.mp found
      cases slot with
      | none => cases numbered_so
      | some source =>
        obtain ⟨k, numbered, at_k⟩ := aligned.slot_of_operator there
        have here : k = firstHole tables.sources := by
          have := eq_of_beq numbered_so
          omega
        exact firstHole_empty tables.sources source (here ▸ at_k)
    have room : getNumActiveSources tables + 1 ≤ tcqMaxSources := by
      have fresh : rel ∉ relations inUse := by
        intro used
        obtain ⟨use, there, rfl⟩ := mem_map.mp (mem_toFinset.mp used)
        exact member (aligned.covered use there)
      have counted : (relations ((queryid, rel) :: inUse)).card = (relations inUse).card + 1 := by
        rw [relations, map_cons, toFinset_cons]
        exact Finset.card_insert_of_notMem fresh
      have bound := limit rel fetched
      have active := aligned.active_le
      omega
    have entry : rtFetch (firstHole tables.sources + 1) (fillHole rel tables.rangetable) =
        some (some rel) := by
      rw [rtFetch, if_neg (by omega), Nat.add_sub_cancel, getElem?_fillHole, if_pos same_hole.symm]
    have placed := @aligned_fillHole _ _ _ aligned rel member
      ⟨scan.adjust (firstHole tables.sources + 1), rel, firstHole tables.sources + 1, [queryid]⟩
      queryid (real _ _ _) rfl rfl (sourceGetVarNo_adjust scan _)
    refine ⟨_, ?_, placed⟩
    rw [enterRelation_absent member, same_hole]
    refine (if_neg nowhere).trans ?_
    exact addSource_eq scan queryid entry room

def scannedRelations (rtable : List (Option Rel)) (scans : List (Scan Rel)) : List Rel :=
  scans.filterMap fun scan => (rtFetch scan.scanrelid rtable).join

theorem adjustScanAndRt_aligned (queryid : Nat) (rtable : List (Option Rel))
    (scans : List (Scan Rel)) (names : ∀ scan ∈ scans, scan.Names rtable)
    (inUse : List (Nat × Rel)) (tables : SourceTables Rel) (aligned : Aligned inUse tables)
    (limit : (relations ((scannedRelations rtable scans).map (queryid, ·) ++ inUse)).card ≤
      tcqMaxSources) : ∃ tables', adjustScanAndRt queryid rtable scans tables = .ok tables' ∧
      Aligned ((scannedRelations rtable scans).map (queryid, ·) ++ inUse) tables' := by
  induction scans generalizing inUse tables with
  | nil => exact ⟨tables, rfl, aligned⟩
  | cons scan scans ih =>
    have split : ∀ rel, rtFetch scan.scanrelid rtable = some (some rel) →
        ∀ use, use ∈ (scannedRelations rtable scans).map (queryid, ·) ++ (queryid, rel) :: inUse ↔
          use ∈ (scannedRelations rtable (scan :: scans)).map (queryid, ·) ++ inUse := by
      intro rel fetched use
      simp only [scannedRelations, filterMap_cons, fetched, Option.join_some,
        map_cons, mem_append, mem_cons]
      tauto
    have same_relations : ∀ rel, rtFetch scan.scanrelid rtable = some (some rel) →
        relations ((scannedRelations rtable scans).map (queryid, ·) ++ (queryid, rel) :: inUse) =
          relations ((scannedRelations rtable (scan :: scans)).map (queryid, ·) ++ inUse) := by
      intro rel fetched
      ext other
      simp only [relations, mem_toFinset, mem_map, split rel fetched]
    obtain ⟨rel, tables₁, fetched, adjusted, aligned₁⟩ :=
      adjustScan_aligned aligned queryid (names scan (by simp)) (by
        intro rel fetched
        refine le_trans (Finset.card_le_card ?_) limit
        rw [← same_relations rel fetched]
        intro other member
        simp only [relations, mem_toFinset, map_append, mem_append] at member ⊢
        exact Or.inr member)
    obtain ⟨tables', rest, aligned'⟩ :=
      ih (fun other member => names other (by simp [member])) _ tables₁ aligned₁
        (by rw [same_relations rel fetched]; exact limit)
    refine ⟨tables', ?_, aligned'.congr (split rel fetched)⟩
    rw [adjustScanAndRt, adjusted]
    exact rest

def inUseAfter : List (QueryOp Rel) → List (Nat × Rel) :=
  List.foldl (fun inUse op =>
    match op with
    | .addPlan queryid fresh =>
      (scannedRelations fresh.rtable fresh.sources).map (queryid, ·) ++ inUse
    | .removeQuery queryid => withoutQuery queryid inUse) []

def WithinLimit (ops : List (QueryOp Rel)) : Prop :=
  ∀ earlier, earlier <+: ops → (relations (inUseAfter earlier)).card ≤ tcqMaxSources

theorem queryStep_aligned {ops : List (QueryOp Rel)} {op : QueryOp Rel}
    (within : WithinLimit (ops ++ [op]))
    (aligned : Aligned (inUseAfter ops) tables) :
    ∃ next, queryStep tables op = ([], .ok next) ∧ Aligned (inUseAfter (ops ++ [op])) next := by
  have limit := within _ (prefix_refl _)
  rw [inUseAfter, foldl_append] at limit ⊢
  cases op with
  | addPlan queryid fresh =>
    obtain ⟨next, added, alignedNext⟩ :=
      adjustScanAndRt_aligned queryid fresh.rtable fresh.sources fresh.names _ tables aligned
        limit
    exact ⟨next, by rw [queryStep, added], alignedNext⟩
  | removeQuery queryid =>
    obtain ⟨next, removed, alignedNext⟩ := removeQuery_aligned aligned queryid
    exact ⟨next, by rw [queryStep, removed], alignedNext⟩

/-- Entry `k + 1` belongs to slot `k`. -/
structure InStep (inUse : List (Nat × Rel)) (tables : SourceTables Rel) : Prop where
  length : tables.rangetable.length = tables.sources.length
  invalid : ∀ k : Nat, tables.rangetable[k]? = some none ↔ tables.sources[k]? = some none
  named : ∀ (k : Nat) (source : SourceModule Rel), tables.sources[k]? = some (some source) →
    tables.rangetable[k]? = some (getRealSourceOid (some source))
  once : ∀ (j k : Nat) (rel : Rel), tables.rangetable[j]? = some (some rel) →
    tables.rangetable[k]? = some (some rel) → j = k
  scanned : ∀ rel, some rel ∈ tables.rangetable ↔ ∃ queryid, (queryid, rel) ∈ inUse

/-- No assertion fails in any history of admissions and removals within the limit, and the
two tables are in step after it. -/
theorem range_table_in_step (ops : List (QueryOp Rel)) (within : WithinLimit ops) :
    ∃ tables, queryMachine.run emptyTables ops = ([], .ok tables) ∧
      InStep (inUseAfter ops) tables := by
  obtain ⟨outs, tables, ran, silent, aligned⟩ :=
    @Machine.run_total _ _ _ _ queryMachine WithinLimit
      (fun ops outs tables => outs = [] ∧ Aligned (inUseAfter ops) tables)
      (fun ops op within earlier shorter =>
        within earlier (shorter.trans (prefix_append ops [op])))
      (by
        rintro ops op outs tables within ⟨silent, aligned⟩
        obtain ⟨next, stepped, alignedNext⟩ := queryStep_aligned within aligned
        exact ⟨[], next, stepped, by rw [silent, append_nil], alignedNext⟩)
      emptyTables ⟨rfl, aligned_empty⟩ ops within
  refine ⟨tables, by rw [ran, silent], ?_, ?_, ?_, ?_, ?_⟩
  · rw [aligned.entries, length_map]
  · intro k
    rw [aligned.entry]
    simp
  · intro k source at_k
    rw [aligned.entry, at_k, getRealSourceOid_eq]
    rfl
  · intro j k rel at_j at_k
    exact slot_unique aligned.unique at_j at_k
  · intro rel
    constructor
    · exact aligned.used
    · rintro ⟨queryid, use⟩
      exact aligned.covered _ use

end Aligned

def freshJoin : FreshEddy String where
  rtable := [some "packets", some "hosts"]
  sources := [.strmScan 1 "packets", .seqScan 2]
  names := by simp [Scan.Names, rtFetch]

def freshScan : FreshEddy String where
  rtable := [some "hosts"]
  sources := [.seqScan 1]
  names := by simp [Scan.Names, rtFetch]

/-- The entry of the stream is used again for the join that comes back. -/
theorem range_table_in_step_after_churn :
    ∃ tables, queryMachine.run emptyTables
        [.addPlan 0 freshJoin, .addPlan 1 freshScan, .removeQuery 0, .addPlan 2 freshJoin] =
          ([], .ok tables) ∧
      InStep (inUseAfter [.addPlan 0 freshJoin, .addPlan 1 freshScan, .removeQuery 0,
        .addPlan 2 freshJoin]) tables := by
  apply range_table_in_step
  intro earlier shorter
  have taken := prefix_iff_eq_take.mp shorter
  have all : ∀ n ≤ 4, (relations (inUseAfter (([.addPlan 0 freshJoin, .addPlan 1 freshScan,
      .removeQuery 0, .addPlan 2 freshJoin] : List (QueryOp String)).take n))).card ≤
        tcqMaxSources := by
    decide +kernel
  rw [taken]
  exact all _ shorter.length_le

end TelegraphCQ.Eddy.RangeTable
