import Mathlib.Data.List.TakeDrop
import Mathlib.Data.List.TakeWhile
import TelegraphCQ.Eddy.Fjord

/-!
# Queries that share a state module

A windowed state module keeps the join predicates of all queries that probe it: for each
outer hash key a list of clauses, and for each clause the queries that are interested in
it (`add_stem_to_matching_fstem`).  Next to them stands the list of its users.  Removing a
query (`ProcessRemoveQueryFSteM`) drops the first entry that is found and all user entries.
The records are allocated one by one, and a record that is freed leaves its list through a
comparison of pointers.
-/

namespace TelegraphCQ.Stems

open Eddy List

section SharedClauses

variable {Key Clause : Type}

structure FSteMClauses (Clause : Type) where
  address : Nat
  stemclauses : Clause
  interestedQueries : List Nat
  deriving DecidableEq, Repr

structure FSteMOuterHashkey (Key Clause : Type) where
  address : Nat
  outerhashkey : Key
  fstemclausesList : List (FSteMClauses Clause)
  deriving DecidableEq, Repr

structure SharedSteM (Key Clause : Type) where
  fstemouterhashkeys : List (FSteMOuterHashkey Key Clause)
  usedByQueries : List Nat
  deriving DecidableEq, Repr

/-- The list is not assigned again, so that nothing is appended to an empty one. -/
def lappendInPlace {Item : Type} (items : List Item) (item : Item) : List Item :=
  match items with
  | [] => []
  | first :: rest => first :: rest ++ [item]

/-- What a plan brings along, and how its parts are compared with `equal`. -/
structure StemPlan (Key Clause : Type) where
  outerhashkey : Key
  stemclauses : Clause
  equalKey : Key → Bool
  equalClauses : Clause → Bool

def addToClausesList (stem : StemPlan Key Clause) (queryid fresh : Nat)
    (clausesList : List (FSteMClauses Clause)) : List (FSteMClauses Clause) :=
  match clausesList.span fun clauses => !stem.equalClauses clauses.stemclauses with
  | (before, clauses :: after) =>
    before ++ { clauses with
      interestedQueries := lappendInPlace clauses.interestedQueries queryid } :: after
  | (_, []) => lappendInPlace clausesList ⟨fresh, stem.stemclauses, [queryid]⟩

def addToOuterHashkeys (stem : StemPlan Key Clause) (queryid fresh : Nat)
    (outerhashkeys : List (FSteMOuterHashkey Key Clause)) :
    List (FSteMOuterHashkey Key Clause) :=
  match outerhashkeys.span fun outer => !stem.equalKey outer.outerhashkey with
  | (before, outer :: after) =>
    before ++ { outer with
      fstemclausesList :=
        addToClausesList stem queryid fresh outer.fstemclausesList } :: after
  | (_, []) =>
    lappendInPlace outerhashkeys
      ⟨fresh, stem.outerhashkey, [⟨fresh + 1, stem.stemclauses, [queryid]⟩]⟩

def addStemToMatchingFSteM (stem : StemPlan Key Clause) (queryid fresh : Nat) :
    Option (SharedSteM Key Clause) → SharedSteM Key Clause
  | none =>
    { fstemouterhashkeys :=
        [⟨fresh, stem.outerhashkey, [⟨fresh + 1, stem.stemclauses, [queryid]⟩]⟩]
      usedByQueries := fjordAddQuery queryid [] }
  | some node =>
    { fstemouterhashkeys := addToOuterHashkeys stem queryid fresh node.fstemouterhashkeys
      usedByQueries := fjordAddQuery queryid node.usedByQueries }

/-- The records that are freed, and what is left of the outer hash keys.  The cell of the
current outer hash key of a probe is compared with a record, which it never equals. -/
def removeFound (queryid : Nat) (before : List (FSteMOuterHashkey Key Clause))
    (outer : FSteMOuterHashkey Key Clause) (after : List (FSteMOuterHashkey Key Clause))
    (clausesBefore : List (FSteMClauses Clause)) (clauses : FSteMClauses Clause)
    (clausesAfter : List (FSteMClauses Clause)) :
    List Nat × List (FSteMOuterHashkey Key Clause) :=
  if clauses.interestedQueries.length = 1 then
    if outer.fstemclausesList.length = 1 then
      ([outer.address],
        (before ++ outer :: after).eraseP fun other => other.address = outer.address)
    else
      ([clauses.address], before ++ { outer with
        fstemclausesList := (clausesBefore ++ clauses :: clausesAfter).eraseP fun other =>
          other.address = clauses.address } :: after)
  else
    ([], before ++ { outer with
      fstemclausesList := clausesBefore ++ { clauses with
        interestedQueries := clauses.interestedQueries.erase queryid } :: clausesAfter } ::
          after)

def FSteMOuterHashkey.mentions (queryid : Nat) (outer : FSteMOuterHashkey Key Clause) : Bool :=
  outer.fstemclausesList.any fun clauses => clauses.interestedQueries.contains queryid

/-- Whether no query is left, the records that are freed, and the state module. -/
def processRemoveQueryFSteM (queryid : Nat) (node : SharedSteM Key Clause) :
    Bool × List Nat × SharedSteM Key Clause :=
  match node.fstemouterhashkeys.span fun outer => !outer.mentions queryid with
  | (_, []) => (false, [], node)
  | (before, outer :: after) =>
    match outer.fstemclausesList.span fun clauses =>
        !clauses.interestedQueries.contains queryid with
    | (_, []) => (false, [], node)
    | (clausesBefore, clauses :: clausesAfter) =>
      let (freed, outerhashkeys) :=
        removeFound queryid before outer after clausesBefore clauses clausesAfter
      let usedByQueries := fjordRemoveQuery queryid node.usedByQueries
      (usedByQueries.isEmpty, freed, ⟨outerhashkeys, usedByQueries⟩)

/-! ## Histories -/

inductive SharingOp (Key Clause : Type) where
  | addPlan (stem : StemPlan Key Clause) (queryid : Nat)
  | remove (queryid : Nat)

/-- A state module that is reported as unused is taken out of the eddy.  The second part
counts the records that may have been allocated. -/
def sharingStep (state : Option (SharedSteM Key Clause) × Nat) :
    SharingOp Key Clause → Option (SharedSteM Key Clause) × Nat
  | .addPlan stem queryid => (some (addStemToMatchingFSteM stem queryid state.2 state.1),
      state.2 + 2)
  | .remove queryid =>
    match state.1 with
    | none => state
    | some node =>
      match processRemoveQueryFSteM queryid node with
      | (true, _, _) => (none, state.2)
      | (false, _, left) => (some left, state.2)

def shared (ops : List (SharingOp Key Clause)) : Option (SharedSteM Key Clause) × Nat :=
  ops.foldl sharingStep (none, 0)

def FSteMClauses.uses (outerhashkey : Key) (clauses : FSteMClauses Clause) :
    List ((Key × Clause) × Nat) :=
  clauses.interestedQueries.map fun queryid => ((outerhashkey, clauses.stemclauses), queryid)

def FSteMOuterHashkey.uses (outer : FSteMOuterHashkey Key Clause) :
    List ((Key × Clause) × Nat) :=
  outer.fstemclausesList.flatMap (FSteMClauses.uses outer.outerhashkey)

def SharedSteM.uses (node : SharedSteM Key Clause) : List ((Key × Clause) × Nat) :=
  node.fstemouterhashkeys.flatMap FSteMOuterHashkey.uses

def FSteMOuterHashkey.addresses (outer : FSteMOuterHashkey Key Clause) : List Nat :=
  outer.address :: outer.fstemclausesList.map FSteMClauses.address

def SharedSteM.addresses (node : SharedSteM Key Clause) : List Nat :=
  node.fstemouterhashkeys.flatMap FSteMOuterHashkey.addresses

/-- Nothing is left of the query and everything of the others, no record that is left is
freed, and the report is right. -/
structure RemovesExactly (queryid : Nat) (node : SharedSteM Key Clause)
    (result : Bool × List Nat × SharedSteM Key Clause) : Prop where
  uses : result.2.2.uses = node.uses.filter fun use => use.2 ≠ queryid
  users : ∀ user, user ∈ result.2.2.usedByQueries ↔
    user ≠ queryid ∧ user ∈ node.usedByQueries
  freed : ∀ address ∈ result.2.1, address ∈ node.addresses ∧
    address ∉ result.2.2.addresses
  reported : result.1 = true ↔ result.2.2.usedByQueries = []

def UsedOnce (queryid : Nat) (node : SharedSteM Key Clause) : Prop :=
  node.uses.countP (fun use => use.2 = queryid) ≤ 1

/-! ## The invariant -/

def FSteMOuterHashkey.Filled (outer : FSteMOuterHashkey Key Clause) : Prop :=
  outer.fstemclausesList ≠ [] ∧
    ∀ clauses ∈ outer.fstemclausesList, clauses.interestedQueries ≠ []

structure Shares (node : SharedSteM Key Clause) (fresh : Nat) : Prop where
  distinct : node.addresses.Nodup
  allocated : ∀ address ∈ node.addresses, address < fresh
  filled : ∀ outer ∈ node.fstemouterhashkeys, outer.Filled
  users : node.usedByQueries ≠ []
  once : node.usedByQueries.Nodup
  used : ∀ user ∈ node.usedByQueries, ∃ use ∈ node.uses, use.2 = user

variable {queryid fresh : Nat} {stem : StemPlan Key Clause}
  {keys left : List (FSteMOuterHashkey Key Clause)} {freed : List Nat}

variable {Item : Type} {found : Item → Bool} {items before after : List Item} {item : Item}
  {node : SharedSteM Key Clause}

theorem span_eq_some (spanned : items.span (fun item => !found item) = (before, item :: after)) :
    items = before ++ item :: after ∧ found item = true := by
  rw [span_eq_takeWhile_dropWhile] at spanned
  obtain ⟨front, back⟩ := Prod.mk.inj spanned
  have isFound : (items.dropWhile fun item => !found item).head? = some item := by
    rw [back]
    rfl
  refine ⟨?_, ?_⟩
  · rw [← front, ← back, takeWhile_append_dropWhile]
  · have first := head?_dropWhile_not (fun item => !found item) items
    rw [isFound] at first
    simpa using first

theorem span_eq_none (spanned : items.span (fun item => !found item) = (before, [])) :
    ∀ item ∈ items, found item = false := by
  rw [span_eq_takeWhile_dropWhile] at spanned
  have nothing := dropWhile_eq_nil_iff.mp (Prod.mk.inj spanned).2
  intro item isItem
  simpa using nothing item isItem

structure DropsEntry (queryid : Nat) (keys left : List (FSteMOuterHashkey Key Clause))
    (freed : List Nat) : Prop where
  uses : ∃ front predicate back,
    keys.flatMap FSteMOuterHashkey.uses = front ++ (predicate, queryid) :: back ∧
    left.flatMap FSteMOuterHashkey.uses = front ++ back
  addresses : (left.flatMap FSteMOuterHashkey.addresses).Sublist
    (keys.flatMap FSteMOuterHashkey.addresses)
  freed : ∀ address ∈ freed, address ∈ keys.flatMap FSteMOuterHashkey.addresses ∧
    address ∉ left.flatMap FSteMOuterHashkey.addresses
  filled : ∀ outer ∈ left, outer.Filled

theorem DropsEntry.append {before after : List (FSteMOuterHashkey Key Clause)}
    {outer : FSteMOuterHashkey Key Clause} (drops : DropsEntry queryid [outer] left freed)
    (distinct : ((before ++ outer :: after).flatMap FSteMOuterHashkey.addresses).Nodup)
    (filled : ∀ other ∈ before ++ outer :: after, other.Filled) :
    DropsEntry queryid (before ++ outer :: after) (before ++ left ++ after) freed := by
  simp only [flatMap_append, flatMap_cons] at distinct
  obtain ⟨-, distinctRest, apart⟩ := nodup_append.mp distinct
  obtain ⟨-, -, apartRest⟩ := nodup_append.mp distinctRest
  obtain ⟨front, predicate, back, old, new⟩ := drops.uses
  simp only [flatMap_singleton] at old
  refine ⟨⟨before.flatMap FSteMOuterHashkey.uses ++ front, predicate,
    back ++ after.flatMap FSteMOuterHashkey.uses, ?_, ?_⟩, ?_, ?_, ?_⟩
  · simp [old]
  · simp [new]
  · have inside := drops.addresses
    simp only [flatMap_singleton] at inside
    simp only [flatMap_append, flatMap_cons, append_assoc]
    exact (inside.append (List.Sublist.refl _)).append_left _
  · intro address isFreed
    obtain ⟨old, gone⟩ := drops.freed address isFreed
    simp only [flatMap_singleton] at old
    simp only [flatMap_append, flatMap_cons, mem_append]
    refine ⟨.inr (.inl old), ?_⟩
    rintro ((inBefore | inLeft) | inAfter)
    · exact apart _ inBefore _ (mem_append_left _ old) rfl
    · exact gone inLeft
    · exact apartRest _ old _ inAfter rfl
  · rw [forall_mem_append, forall_mem_cons] at filled
    exact forall_mem_append.mpr ⟨forall_mem_append.mpr ⟨filled.1, drops.filled⟩, filled.2.2⟩

theorem eraseP_address {address : Item → Nat}
    (distinct : ∀ other ∈ before, address other ≠ address item) :
    (before ++ item :: after).eraseP (fun other => address other = address item) =
      before ++ after := by
  rw [eraseP_append_right _ (by simpa using distinct), eraseP_cons_of_pos (by simp)]

theorem removeFound_drops {before after : List (FSteMOuterHashkey Key Clause)}
    {outer : FSteMOuterHashkey Key Clause} {front back : List (FSteMClauses Clause)}
    {clauses : FSteMClauses Clause} (isList : outer.fstemclausesList = front ++ clauses :: back)
    (mentioned : queryid ∈ clauses.interestedQueries)
    (distinct : ((before ++ outer :: after).flatMap FSteMOuterHashkey.addresses).Nodup)
    (filled : ∀ other ∈ before ++ outer :: after, other.Filled) :
    DropsEntry queryid (before ++ outer :: after)
      (removeFound queryid before outer after front clauses back).2
      (removeFound queryid before outer after front clauses back).1 := by
  have filledOuter := (filled outer (by simp)).2
  rw [isList, forall_mem_append, forall_mem_cons] at filledOuter
  obtain ⟨filledFront, -, filledBack⟩ := filledOuter
  have distinctOuter := distinct
  simp only [flatMap_append, flatMap_cons] at distinctOuter
  obtain ⟨-, distinctRest, apart⟩ := nodup_append.mp distinctOuter
  obtain ⟨notOuter, distinctClauses⟩ := nodup_cons.mp (nodup_append.mp distinctRest).1
  rw [isList, map_append, map_cons] at distinctClauses
  obtain ⟨-, distinctBack, apartFront⟩ := nodup_append.mp distinctClauses
  obtain ⟨notBack, -⟩ := nodup_cons.mp distinctBack
  unfold removeFound
  split_ifs with single lone
  · have alone : front = [] ∧ back = [] := by
      simpa [isList, Nat.add_eq_one_iff] using lone
    obtain ⟨only, isOnly⟩ := length_eq_one_iff.mp single
    have noOther : ∀ other ∈ before, other.address ≠ outer.address := by
      intro other isOther
      exact apart _ (mem_flatMap.mpr ⟨other, isOther, mem_cons_self⟩) _
        (mem_append_left _ mem_cons_self)
    have dropped : DropsEntry queryid [outer] [] [outer.address] := by
      refine ⟨⟨[], (outer.outerhashkey, clauses.stemclauses), [], ?_, rfl⟩, by simp, ?_, by simp⟩
      · simpa [FSteMOuterHashkey.uses, FSteMClauses.uses, isList, alone, isOnly] using
          (mem_singleton.mp (isOnly ▸ mentioned)).symm
      · simp [FSteMOuterHashkey.addresses]
    simpa [eraseP_address noOther] using dropped.append distinct filled
  · obtain ⟨only, isOnly⟩ := length_eq_one_iff.mp single
    have isQuery : queryid = only := mem_singleton.mp (isOnly ▸ mentioned)
    have noOther : ∀ other ∈ front, other.address ≠ clauses.address := by
      intro other isOther
      exact apartFront _ (mem_map_of_mem isOther) _ mem_cons_self
    have dropped : DropsEntry queryid [outer] [{ outer with fstemclausesList := front ++ back }]
        [clauses.address] := by
      refine ⟨⟨front.flatMap (FSteMClauses.uses outer.outerhashkey),
        (outer.outerhashkey, clauses.stemclauses),
        back.flatMap (FSteMClauses.uses outer.outerhashkey), ?_, ?_⟩, ?_, ?_, ?_⟩
      · simp [FSteMOuterHashkey.uses, FSteMClauses.uses, isList, isOnly, isQuery]
      · simp [FSteMOuterHashkey.uses]
      · simp [FSteMOuterHashkey.addresses, isList]
      · refine forall_mem_singleton.mpr ⟨by simp [FSteMOuterHashkey.addresses, isList], ?_⟩
        simp only [FSteMOuterHashkey.addresses, flatMap_singleton, map_append, mem_cons, mem_append]
        rintro (same | inFront | inBack)
        · exact notOuter (by simp [isList, same])
        · exact apartFront _ inFront _ mem_cons_self rfl
        · exact notBack inBack
      · refine forall_mem_singleton.mpr
          ⟨fun nothing => ?_, forall_mem_append.mpr ⟨filledFront, filledBack⟩⟩
        obtain ⟨rfl, rfl⟩ := append_eq_nil_iff.mp nothing
        exact lone (by rw [isList]; rfl)
    simpa [eraseP_address noOther] using dropped.append distinct filled
  · obtain ⟨first, rest, -, isInterested, erased⟩ := exists_erase_eq mentioned
    have dropped : DropsEntry queryid [outer] [{ outer with
        fstemclausesList := front ++ { clauses with
          interestedQueries := clauses.interestedQueries.erase queryid } :: back }] [] := by
      refine ⟨⟨front.flatMap (FSteMClauses.uses outer.outerhashkey) ++ first.map fun queryid =>
          ((outer.outerhashkey, clauses.stemclauses), queryid),
        (outer.outerhashkey, clauses.stemclauses), (rest.map fun queryid =>
          ((outer.outerhashkey, clauses.stemclauses), queryid)) ++
            back.flatMap (FSteMClauses.uses outer.outerhashkey), ?_, ?_⟩, ?_, by simp, ?_⟩
      · simp [FSteMOuterHashkey.uses, FSteMClauses.uses, isList, isInterested]
      · simp [FSteMOuterHashkey.uses, FSteMClauses.uses, erased]
      · simp [FSteMOuterHashkey.addresses, isList]
      · refine forall_mem_singleton.mpr ⟨by simp, forall_mem_append.mpr
          ⟨filledFront, forall_mem_cons.mpr ⟨fun nothing => ?_, filledBack⟩⟩⟩
        rw [erased, append_eq_nil_iff] at nothing
        exact single (by simp [isInterested, nothing])
    simpa using dropped.append distinct filled

theorem processRemoveQueryFSteM_cases {node : SharedSteM Key Clause} (shares : Shares node fresh) :
    (processRemoveQueryFSteM queryid node = (false, [], node) ∧
      ∀ use ∈ node.uses, use.2 ≠ queryid) ∨
    ∃ freed left, DropsEntry queryid node.fstemouterhashkeys left freed ∧
      processRemoveQueryFSteM queryid node =
        ((fjordRemoveQuery queryid node.usedByQueries).isEmpty, freed,
          ⟨left, fjordRemoveQuery queryid node.usedByQueries⟩) := by
  unfold processRemoveQueryFSteM
  split
  case h_1 before spanned =>
    left
    refine ⟨rfl, ?_⟩
    intro use isUse same
    obtain ⟨outer, isOuter, inOuter⟩ := mem_flatMap.mp isUse
    obtain ⟨clauses, isClauses, inClauses⟩ := mem_flatMap.mp inOuter
    obtain ⟨user, isUser, rfl⟩ := mem_map.mp inClauses
    have unmentioned := span_eq_none spanned outer isOuter
    simp only [FSteMOuterHashkey.mentions, any_eq_false] at unmentioned
    exact unmentioned clauses isClauses (by simpa [← same] using isUser)
  case h_2 before outer after spanned =>
    obtain ⟨isKeys, mentions⟩ := span_eq_some spanned
    split
    case h_1 front inside =>
      have nowhere := span_eq_none inside
      obtain ⟨clauses, isClauses, found⟩ := any_eq_true.mp mentions
      rw [nowhere clauses isClauses] at found
      cases found
    case h_2 front clauses back inside =>
      obtain ⟨isList, found⟩ := span_eq_some inside
      right
      have distinct := shares.distinct
      have filled := shares.filled
      rw [SharedSteM.addresses, isKeys] at distinct
      rw [isKeys] at filled
      have drops := removeFound_drops isList (by simpa using found) distinct filled
      refine ⟨_, _, ?_, rfl⟩
      rw [isKeys]
      exact drops

theorem removesExactly_iff (shares : Shares node fresh) :
    RemovesExactly queryid node (processRemoveQueryFSteM queryid node) ↔ UsedOnce queryid node := by
  rcases @processRemoveQueryFSteM_cases _ _ queryid _ _ shares with
    ⟨same, unused⟩ | ⟨freed, left, drops, removed⟩
  · have noUser : queryid ∉ node.usedByQueries := by
      intro isUser
      obtain ⟨use, isUse, isQuery⟩ := shares.used queryid isUser
      exact unused use isUse isQuery
    have none_ : node.uses.countP (fun use => use.2 = queryid) = 0 := by
      simpa [countP_eq_zero] using unused
    rw [same, UsedOnce, none_]
    refine iff_of_true ⟨?_, ?_, by simp, by simp [shares.users]⟩ (Nat.zero_le 1)
    · exact (filter_eq_self.mpr (by simpa using unused)).symm
    · intro user
      exact ⟨fun isUser => ⟨fun same => noUser (same ▸ isUser), isUser⟩, And.right⟩
  · obtain ⟨front, predicate, back, old, new⟩ := drops.uses
    have others : node.uses.filter (fun use => use.2 ≠ queryid) =
        (front ++ back).filter fun use => use.2 ≠ queryid := by
      simp [SharedSteM.uses, old]
    have count : node.uses.countP (fun use => use.2 = queryid) =
        (front ++ back).countP (fun use => use.2 = queryid) + 1 := by
      simp [SharedSteM.uses, old, Nat.add_assoc]
    have left_iff : left.flatMap FSteMOuterHashkey.uses =
        node.uses.filter (fun use => use.2 ≠ queryid) ↔ UsedOnce queryid node := by
      have few : (front ++ back).countP (fun use => use.2 = queryid) + 1 ≤ 1 ↔
          (front ++ back).countP (fun use => use.2 = queryid) = 0 := by
        omega
      rw [new, others, eq_comm, filter_eq_self, UsedOnce, count, few, countP_eq_zero]
      simp
    rw [removed]
    constructor
    · intro exact_
      exact left_iff.mp exact_.uses
    · intro once
      exact ⟨left_iff.mpr once, fun user => mem_fjordRemoveQuery shares.once, drops.freed,
        isEmpty_iff⟩

/-! ## Every history -/

theorem Shares.remove (shares : Shares node fresh) {after : SharedSteM Key Clause}
    (removed : processRemoveQueryFSteM queryid node = (false, freed, after)) :
    Shares after fresh := by
  rcases @processRemoveQueryFSteM_cases _ _ queryid _ _ shares with
    ⟨same, -⟩ | ⟨gone, left, drops, isRemoved⟩
  · obtain ⟨-, -, rfl⟩ := by simpa using same.symm.trans removed
    exact shares
  · obtain ⟨someLeft, rfl, rfl⟩ := by simpa using isRemoved.symm.trans removed
    obtain ⟨front, predicate, back, old, new⟩ := drops.uses
    refine ⟨shares.distinct.sublist drops.addresses,
      fun address isLeft => shares.allocated address (drops.addresses.subset isLeft),
      drops.filled, ?_, ?_, ?_⟩
    · simpa using someLeft
    · exact (shares.once.erase _).erase _
    · intro user isUser
      obtain ⟨other, wasUser⟩ := (mem_fjordRemoveQuery shares.once).mp isUser
      obtain ⟨use, isUse, rfl⟩ := shares.used user wasUser
      rw [SharedSteM.uses, old] at isUse
      refine ⟨use, ?_, rfl⟩
      rw [SharedSteM.uses, new]
      simp only [mem_append, mem_cons] at isUse ⊢
      rcases isUse with inFront | rfl | inBack
      · exact .inl inFront
      · exact absurd rfl other
      · exact .inr inBack

theorem lappendInPlace_eq (nonempty : items ≠ []) (item : Item) :
    lappendInPlace items item = items ++ [item] := by
  cases items with
  | nil => exact absurd rfl nonempty
  | cons first rest => rfl

theorem addToClausesList_spec {clausesList : List (FSteMClauses Clause)}
    (nonempty : clausesList ≠ [])
    (filled : ∀ clauses ∈ clausesList, clauses.interestedQueries ≠ []) (key : Key) :
    ∃ extra, (extra = [] ∨ extra = [fresh]) ∧
      (addToClausesList stem queryid fresh clausesList).map FSteMClauses.address =
        clausesList.map FSteMClauses.address ++ extra ∧
      (∀ clauses ∈ addToClausesList stem queryid fresh clausesList,
        clauses.interestedQueries ≠ []) ∧ clausesList.flatMap (FSteMClauses.uses key) ⊆
        (addToClausesList stem queryid fresh clausesList).flatMap (FSteMClauses.uses key) ∧
      ∃ use ∈ (addToClausesList stem queryid fresh clausesList).flatMap
        (FSteMClauses.uses key), use.2 = queryid := by
  unfold addToClausesList
  split
  case h_1 before clauses after spanned =>
    obtain ⟨rfl, -⟩ := span_eq_some spanned
    rw [lappendInPlace_eq (filled clauses (by simp))]
    refine ⟨[], .inl rfl, by simp, ?_, ?_, ((key, clauses.stemclauses), queryid), ?_, rfl⟩
    · intro other isOther
      simp only [mem_append, mem_cons] at isOther filled
      rcases isOther with inBefore | rfl | inAfter
      · exact filled other (.inl inBefore)
      · simp
      · exact filled other (.inr (.inr inAfter))
    · intro use isUse
      simp only [flatMap_append, flatMap_cons, FSteMClauses.uses, map_append, mem_append] at isUse ⊢
      tauto
    · simp [FSteMClauses.uses]
  case h_2 =>
    rw [lappendInPlace_eq nonempty]
    refine ⟨[fresh], .inr rfl, by simp, ?_, by simp, ((key, stem.stemclauses), queryid), ?_, rfl⟩
    · exact forall_mem_append.mpr ⟨filled, by simp⟩
    · simp [FSteMClauses.uses]

theorem addToOuterHashkeys_spec (nonempty : keys ≠ []) (filled : ∀ outer ∈ keys, outer.Filled) :
    ∃ extra, (extra = [] ∨ extra = [fresh] ∨ extra = [fresh, fresh + 1]) ∧
      ((addToOuterHashkeys stem queryid fresh keys).flatMap FSteMOuterHashkey.addresses).Perm
        (keys.flatMap FSteMOuterHashkey.addresses ++ extra) ∧
      (∀ outer ∈ addToOuterHashkeys stem queryid fresh keys, outer.Filled) ∧
      keys.flatMap FSteMOuterHashkey.uses ⊆
        (addToOuterHashkeys stem queryid fresh keys).flatMap FSteMOuterHashkey.uses ∧
      ∃ use ∈ (addToOuterHashkeys stem queryid fresh keys).flatMap FSteMOuterHashkey.uses,
        use.2 = queryid := by
  unfold addToOuterHashkeys
  split
  case h_1 before outer after spanned =>
    obtain ⟨rfl, -⟩ := span_eq_some spanned
    obtain ⟨extra, isExtra, addresses, filledList, kept, use, isUse, isQuery⟩ :=
      @addToClausesList_spec _ _ queryid fresh stem _ (filled outer (by simp)).1
        (filled outer (by simp)).2 outer.outerhashkey
    refine ⟨extra, isExtra.imp_right .inl, ?_, ?_, ?_, use, ?_, isQuery⟩
    · simp only [flatMap_append, flatMap_cons, FSteMOuterHashkey.addresses, addresses,
        append_assoc, cons_append]
      exact ((perm_append_comm.append_left _).cons _).append_left _
    · intro other isOther
      simp only [mem_append, mem_cons] at isOther filled
      rcases isOther with inBefore | rfl | inAfter
      · exact filled other (.inl inBefore)
      · refine ⟨?_, filledList⟩
        intro nothing
        rw [show addToClausesList stem queryid fresh outer.fstemclausesList = [] from nothing]
          at isUse
        cases isUse
      · exact filled other (.inr (.inr inAfter))
    · intro other isOther
      simp only [flatMap_append, flatMap_cons, mem_append] at isOther ⊢
      exact isOther.imp_right (Or.imp_left fun inside => kept inside)
    · simp only [flatMap_append, flatMap_cons, mem_append]
      exact .inr (.inl isUse)
  case h_2 =>
    rw [lappendInPlace_eq nonempty]
    refine ⟨[fresh, fresh + 1], .inr (.inr rfl), ?_, ?_, by simp,
      ((stem.outerhashkey, stem.stemclauses), queryid), ?_, rfl⟩
    · simp [FSteMOuterHashkey.addresses]
    · exact forall_mem_append.mpr ⟨filled, by simp [FSteMOuterHashkey.Filled]⟩
    · simp [FSteMOuterHashkey.uses, FSteMClauses.uses]

theorem Shares.addPlan (shares : Shares node fresh) (stem : StemPlan Key Clause) (queryid : Nat) :
    Shares (addStemToMatchingFSteM stem queryid fresh (some node)) (fresh + 2) := by
  have nonempty : node.fstemouterhashkeys ≠ [] := by
    intro nothing
    obtain ⟨user, isUser⟩ := exists_mem_of_ne_nil _ shares.users
    obtain ⟨use, isUse, -⟩ := shares.used user isUser
    rw [SharedSteM.uses, nothing] at isUse
    cases isUse
  obtain ⟨extra, isExtra, addresses, filled, kept, use, isUse, isQuery⟩ :=
    @addToOuterHashkeys_spec _ _ queryid fresh stem _ nonempty shares.filled
  have range : extra.Nodup ∧ ∀ address ∈ extra, fresh ≤ address ∧ address < fresh + 2 := by
    rcases isExtra with rfl | rfl | rfl <;> simp
  refine ⟨?_, ?_, filled, ?_, ?_, ?_⟩
  · refine addresses.nodup_iff.mpr (nodup_append.mpr ⟨shares.distinct, range.1, ?_⟩)
    intro old isOld new isNew
    exact (lt_of_lt_of_le (shares.allocated old isOld) (range.2 new isNew).1).ne
  · intro address isAddress
    rcases mem_append.mp (addresses.mem_iff.mp isAddress) with old | new
    · exact Nat.lt_add_right 2 (shares.allocated address old)
    · exact (range.2 address new).2
  · exact ne_nil_of_mem (mem_fjordAddQuery.mpr (.inl rfl) : queryid ∈ _)
  · simp only [addStemToMatchingFSteM, fjordAddQuery]
    split_ifs with isUser
    · exact shares.once
    · exact nodup_cons.mpr ⟨isUser, shares.once⟩
  · intro user isUser
    rcases mem_fjordAddQuery.mp isUser with rfl | old
    · exact ⟨use, isUse, isQuery⟩
    · obtain ⟨other, isOther, isUse⟩ := shares.used user old
      exact ⟨other, kept isOther, isUse⟩

theorem shared_shares (ops : List (SharingOp Key Clause)) :
    ∀ node ∈ (shared ops).1, Shares node (shared ops).2 := by
  suffices general : ∀ state : Option (SharedSteM Key Clause) × Nat,
      (∀ node ∈ state.1, Shares node state.2) →
        ∀ node ∈ (ops.foldl sharingStep state).1, Shares node (ops.foldl sharingStep state).2 from
    general (none, 0) (by simp)
  induction ops with
  | nil => exact fun _ shares => shares
  | cons op ops ih =>
    intro state shares
    apply ih
    obtain ⟨current, fresh⟩ := state
    cases op with
    | addPlan stem queryid =>
      rintro node ⟨⟩
      cases current with
      | none =>
        refine ⟨?_, ?_, ?_, ?_, ?_, ?_⟩ <;>
          simp [sharingStep, addStemToMatchingFSteM, SharedSteM.addresses, SharedSteM.uses,
            FSteMOuterHashkey.addresses, FSteMOuterHashkey.uses, FSteMClauses.uses,
            FSteMOuterHashkey.Filled, fjordAddQuery]
      | some node => exact (shares node rfl).addPlan stem queryid
    | remove queryid =>
      cases current with
      | none => exact shares
      | some node =>
        simp only [sharingStep]
        split
        case h_1 => simp
        case h_2 left removed =>
          rintro _ ⟨⟩
          exact (shares node rfl).remove removed

/-- After every history of admissions and removals, removing a query is exact if and only
if the query has at most one join predicate. -/
theorem query_removed_exactly_iff (ops : List (SharingOp Key Clause)) (queryid : Nat)
    (node : SharedSteM Key Clause) (reached : (shared ops).1 = some node) :
    RemovesExactly queryid node (processRemoveQueryFSteM queryid node) ↔
      UsedOnce queryid node :=
  removesExactly_iff (shared_shares ops node reached)

end SharedClauses

def numbered (key clause : Nat) : StemPlan Nat Nat := ⟨key, clause, (key == ·), (clause == ·)⟩

theorem single_predicate_removed :
    RemovesExactly 1 ⟨[⟨0, 5, [⟨1, 7, [1]⟩]⟩], [1]⟩
      (processRemoveQueryFSteM 1 ⟨[⟨0, 5, [⟨1, 7, [1]⟩]⟩], [1]⟩) :=
  (query_removed_exactly_iff [.addPlan (numbered 5 7) 1] 1 _ rfl).mpr (by
    unfold UsedOnce
    decide)

/-- The second join predicate stays, and the state module is reported as unused. -/
theorem second_predicate_left :
    (shared [.addPlan (numbered 5 7) 1, .addPlan (numbered 6 8) 1]).1.map
      (fun node => processRemoveQueryFSteM 1 node) =
        some (true, [0], ⟨[⟨2, 6, [⟨3, 8, [1]⟩]⟩], []⟩) := by
  decide

end TelegraphCQ.Stems
