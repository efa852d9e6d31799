import Mathlib
import TelegraphCQ.Foundation.Machine

/-!
# The heap of an archived stream

An archived stream is a heap that only grows at its end (`streamheapam.c`, `shio.c`).  A scan
remembers the place of the tuple that it has returned last.  When it finds no further one it
has not ended: the next call goes on from there, with what has been inserted meanwhile.

A page is the list of the tuples that its line pointers are for.  The scan is made with
`SnapshotAny` and without keys, so that every tuple satisfies it.
-/

namespace TelegraphCQ.Archive

open Foundation List

/-- The first offset on a page is one. -/
structure ItemPointer where
  blockNumber : Nat
  offsetNumber : Nat
  deriving DecidableEq, Repr

inductive HeapFault where
  | tupleTooBig
  | stillTooBig
  | failedToAdd
  | failedReadBuffer
  | assertion
  deriving DecidableEq, Repr

structure Relation (Tuple : Type) where
  pages : List (List Tuple)
  targblock : Option Nat
  deriving DecidableEq, Repr

/-- Whether `rs_ctup` has data, its `t_self`, and `rs_mctid` if it is valid. -/
structure HeapScanDesc where
  hasData : Bool
  self : ItemPointer
  mctid : Option ItemPointer
  deriving DecidableEq, Repr

variable {Tuple : Type} (dataLen : Tuple → Nat)

/-! ## Inserting -/

def maxAlign (len : Nat) : Nat := (len + 7) / 8 * 8

def tLen (tup : Tuple) : Nat := 24 + dataLen tup

def maxTupleSize : Nat := 8168

/-- Between the line pointers, each of four bytes, and the items. -/
def space (page : List Tuple) : Nat :=
  8172 - (page.map fun tup => 4 + maxAlign (tLen dataLen tup)).sum

def pageGetFreeSpace (page : List Tuple) : Nat := space dataLen page - 4

def extend (len : Nat) (relation : Relation Tuple) :
    Except HeapFault (Nat × Relation Tuple) :=
  if pageGetFreeSpace dataLen [] < len then .error .stillTooBig
  else .ok (relation.pages.length, ⟨relation.pages ++ [[]], some relation.pages.length⟩)

def streamGetBufferForTuple (len : Nat) (relation : Relation Tuple) :
    Except HeapFault (Nat × Relation Tuple) :=
  let len := maxAlign len
  if maxTupleSize < len then .error .tupleTooBig
  else
    match relation.targblock.or
        (if 0 < relation.pages.length then some (relation.pages.length - 1) else none) with
    | none => extend dataLen len relation
    | some targetBlock =>
      match relation.pages[targetBlock]? with
      | none => .error .failedReadBuffer
      | some page =>
        if len ≤ pageGetFreeSpace dataLen page then
          .ok (targetBlock, { relation with targblock := some targetBlock })
        else extend dataLen len relation

def streamPutHeapTuple (buffer : Nat) (tup : Tuple) (relation : Relation Tuple) :
    Except HeapFault (Relation Tuple) :=
  match relation.pages[buffer]? with
  | none => .error .failedReadBuffer
  | some page =>
    if space dataLen page < 4 + maxAlign (tLen dataLen tup) then .error .failedToAdd
    else .ok { relation with pages := relation.pages.set buffer (page ++ [tup]) }

def streamheapInsert (tup : Tuple) (relation : Relation Tuple) :
    Except HeapFault (Relation Tuple) := do
  let (buffer, relation) ← streamGetBufferForTuple dataLen (tLen dataLen tup) relation
  streamPutHeapTuple dataLen buffer tup relation

/-! ## Scanning -/

def scanPages : Nat → Nat → List (List Tuple) → Option (ItemPointer × Tuple)
  | _, _, [] => none
  | page, lineoff, lines :: pages =>
    match lines[lineoff - 1]? with
    | some tup => some (⟨page, lineoff⟩, tup)
    | none => scanPages (page + 1) 1 pages

def streamheapgettup (pages : List (List Tuple)) (tid : Option ItemPointer) :
    Except HeapFault (Option (ItemPointer × Tuple)) :=
  if pages.length = 0 then .ok none
  else
    let page := tid.elim 0 ItemPointer.blockNumber
    let lineoff := tid.elim 1 (·.offsetNumber + 1)
    if page < pages.length then .ok (scanPages page lineoff (pages.drop page))
    else .error .assertion

/-- The place is saved before the call, and taken from there after one that found nothing. -/
def HeapScanDesc.resume (scan : HeapScanDesc) : HeapScanDesc :=
  if scan.hasData then { scan with mctid := some scan.self }
  else
    match scan.mctid with
    | some mctid => { scan with hasData := true, self := mctid }
    | none => scan

def streamheapGetnext (pages : List (List Tuple)) (scan : HeapScanDesc) :
    Except HeapFault (Option Tuple × HeapScanDesc) := do
  let scan := scan.resume
  match ← streamheapgettup pages (if scan.hasData then some scan.self else none) with
  | some (self, tup) => .ok (some tup, { scan with hasData := true, self })
  | none => .ok (none, { scan with hasData := false })

/-! ## Runs -/

structure ScannedHeap (Tuple : Type) where
  relation : Relation Tuple
  scan : HeapScanDesc

def beginScan (pages : List (List Tuple)) : ScannedHeap Tuple :=
  ⟨⟨pages, none⟩, ⟨false, ⟨0, 0⟩, none⟩⟩

inductive HeapOp (Tuple : Type) where
  | insert (tup : Tuple)
  | getnext
  deriving DecidableEq, Repr

/-- A tuple that is too big is refused before anything has changed. -/
def heapStep (s : ScannedHeap Tuple) :
    HeapOp Tuple → List Tuple × Except HeapFault (ScannedHeap Tuple)
  | .insert tup =>
    match streamheapInsert dataLen tup s.relation with
    | .error .tupleTooBig => ([], .ok s)
    | .error fault => ([], .error fault)
    | .ok relation => ([], .ok { s with relation })
  | .getnext =>
    match streamheapGetnext s.relation.pages s.scan with
    | .error fault => ([], .error fault)
    | .ok (tup, scan) => (tup.toList, .ok { s with scan })

def heapMachine : Machine (ScannedHeap Tuple) (HeapOp Tuple) Tuple HeapFault where
  step := heapStep dataLen

def insertions (ops : List (HeapOp Tuple)) : List Tuple :=
  ops.filterMap fun
    | .insert tup => if maxAlign (tLen dataLen tup) ≤ maxTupleSize then some tup else none
    | .getnext => none

/-! ## The place of a scan -/

section Places

variable {dataLen} {pages rest before : List (List Tuple)} {lines : List Tuple} {count : Nat}
  {scan : HeapScanDesc} {tup : Tuple} {relation : Relation Tuple}

/-- As many tuples as given are before the place. -/
def Stands (pages : List (List Tuple)) (count : Nat) : Option ItemPointer → Prop
  | none => count = 0
  | some tid => ∃ before lines rest, pages = before ++ lines :: rest ∧
      tid.blockNumber = before.length ∧ tid.offsetNumber ≤ lines.length ∧
      count = before.flatten.length + tid.offsetNumber

def HeapScanDesc.place (scan : HeapScanDesc) : Option ItemPointer :=
  if scan.hasData then some scan.self else scan.mctid

/-- The next tuple is found, on this page or a later one, or there is none. -/
def Finds (pages : List (List Tuple)) (count : Nat) : Option (ItemPointer × Tuple) → Prop
  | some (tid, tup) => pages.flatten[count]? = some tup ∧ Stands pages (count + 1) (some tid)
  | none => pages.flatten.length = count

theorem finds_here {offset : Nat} (found : lines[offset]? = some tup) :
    Finds (before ++ lines :: rest) (before.flatten.length + offset)
      (some (⟨before.length, offset + 1⟩, tup)) := by
  have within := (List.getElem?_eq_some_iff.mp found).1
  refine ⟨?_, before, lines, rest, rfl, rfl, within, rfl⟩
  rw [flatten_append, List.getElem?_append_right (Nat.le_add_right _ _), Nat.add_sub_cancel_left,
    flatten_cons, List.getElem?_append_left within, found]

theorem scanPages_finds {offset : Nat} (inside : offset ≤ lines.length) :
    Finds (before ++ lines :: rest) (before.flatten.length + offset)
      (scanPages before.length (offset + 1) (lines :: rest)) := by
  induction rest generalizing before lines offset
  all_goals
    rw [scanPages, Nat.add_sub_cancel]
    cases found : lines[offset]?
  case nil.none =>
    have beyond := List.getElem?_eq_none_iff.mp found
    simp [scanPages, Finds, inside.antisymm beyond]
  case cons.none next rest ih =>
    have beyond := List.getElem?_eq_none_iff.mp found
    have later := @ih (before ++ [lines]) next 0 (Nat.zero_le _)
    simpa [inside.antisymm beyond] using later
  all_goals exact finds_here found

theorem gettup_finds {tid : Option ItemPointer} (stands : Stands pages count tid) :
    ∃ found, streamheapgettup pages tid = .ok found ∧ Finds pages count found := by
  unfold streamheapgettup
  cases tid with
  | none =>
    cases pages with
    | nil => exact ⟨none, rfl, Eq.symm stands⟩
    | cons lines rest =>
      refine ⟨_, rfl, ?_⟩
      simpa [show count = 0 from stands] using
        @scanPages_finds _ rest [] lines 0 (Nat.zero_le _)
  | some tid =>
    obtain ⟨before, lines, rest, rfl, block, inside, rfl⟩ := stands
    refine ⟨_, ?_, scanPages_finds inside⟩
    simp [block]

theorem resume_place (scan : HeapScanDesc) :
    (if scan.resume.hasData then some scan.resume.self else none) = scan.place ∧
      scan.resume.mctid = scan.place := by
  obtain ⟨hasData, self, mctid⟩ := scan
  cases hasData <;> cases mctid <;> exact ⟨rfl, rfl⟩

theorem getnext_spec (stands : Stands pages count scan.place) :
    ∃ found next, streamheapGetnext pages scan = .ok (found, next) ∧
      pages.flatten[count]? = found ∧
      Stands pages (count + found.toList.length) next.place := by
  obtain ⟨resumed, saved⟩ := resume_place scan
  obtain ⟨found, ran, finds⟩ := gettup_finds stands
  rw [← resumed] at ran
  cases found with
  | some found =>
    exact ⟨some found.2, { scan.resume with hasData := true, self := found.1 },
      by simp only [streamheapGetnext, ran]; rfl, finds⟩
  | none =>
    refine ⟨none, { scan.resume with hasData := false },
      by simp only [streamheapGetnext, ran]; rfl, List.getElem?_eq_none finds.le, ?_⟩
    simpa [HeapScanDesc.place, saved] using stands

variable (dataLen) in
/-- A tuple is put at the end of the last page, or on a new one if it does not fit there. -/
inductive Appended (tup : Tuple) : List (List Tuple) → List (List Tuple) → Prop
  | fill (front : List (List Tuple)) (last : List Tuple)
      (fits : maxAlign (tLen dataLen tup) ≤ pageGetFreeSpace dataLen last) :
      Appended tup (front ++ [last]) (front ++ [last ++ [tup]])
  | extend (pages : List (List Tuple))
      (small : maxAlign (tLen dataLen tup) ≤ maxTupleSize)
      (full : ∀ last ∈ pages.getLast?,
        pageGetFreeSpace dataLen last < maxAlign (tLen dataLen tup)) :
      Appended tup pages (pages ++ [[tup]])

variable (dataLen) in
/-- What is on a page fits there, and a page is left for a tuple that does not fit on it. -/
structure Filled (pages : List (List Tuple)) : Prop where
  fits : ∀ page ∈ pages, page ≠ [] ∧
    (page.map fun tup => 4 + maxAlign (tLen dataLen tup)).sum ≤ 8172
  left : pages.IsChain fun page next => ∀ tup ∈ next.head?,
    pageGetFreeSpace dataLen page < maxAlign (tLen dataLen tup)

variable (dataLen) in
theorem header_le (tup : Tuple) : 24 ≤ maxAlign (tLen dataLen tup) := by
  simp only [maxAlign, tLen]
  omega

variable {after : List (List Tuple)} (appended : Appended dataLen tup pages after)
include appended

theorem Appended.filled (filled : Filled dataLen pages) : Filled dataLen after := by
  have header := header_le dataLen tup
  cases appended with
  | fill front last fits =>
    obtain ⟨started, used⟩ := filled.fits last (by simp)
    have left := isChain_append.mp filled.left
    have more : ((last ++ [tup]).map fun tup => 4 + maxAlign (tLen dataLen tup)).sum ≤ 8172 := by
      rw [pageGetFreeSpace, space] at fits
      simp only [map_append, sum_append, map_cons, map_nil, sum_cons, sum_nil]
      omega
    refine ⟨forall_mem_append.mpr ⟨?_, ?_⟩, isChain_append.mpr ⟨left.1, isChain_singleton _, ?_⟩⟩
    · exact (forall_mem_append.mp filled.fits).1
    · exact forall_mem_singleton.mpr ⟨by simp, more⟩
    · simpa [head?_append_of_ne_nil _ started] using left.2.2
  | extend _ small full =>
    refine ⟨forall_mem_append.mpr ⟨filled.fits, ?_⟩,
      isChain_append.mpr ⟨filled.left, isChain_singleton _, by simpa using full⟩⟩
    refine forall_mem_singleton.mpr ⟨by simp, ?_⟩
    change 4 + maxAlign (tLen dataLen tup) + 0 ≤ 8172
    rw [maxTupleSize] at small
    omega

theorem Appended.flatten_eq : after.flatten = pages.flatten ++ [tup] := by
  cases appended <;> simp

theorem Appended.stands {tid : Option ItemPointer} (stands : Stands pages count tid) :
    Stands after count tid := by
  cases tid with
  | none => exact stands
  | some tid =>
    obtain ⟨before, lines, rest, split, block, inside, counted⟩ := stands
    cases appended with
    | extend => exact ⟨before, lines, rest ++ [[tup]], by simp [split], block, inside, counted⟩
    | fill front last =>
      rcases eq_nil_or_concat rest with rfl | ⟨others, other, rfl⟩
      · obtain ⟨rfl, isLast⟩ := append_inj' split rfl
        obtain rfl := (cons.inj isLast).1
        exact ⟨front, last ++ [tup], [], rfl, block, by simp; omega, counted⟩
      · rw [concat_eq_append, ← cons_append, ← append_assoc] at split
        obtain ⟨rfl, -⟩ := append_inj' split rfl
        exact ⟨before, lines, others ++ [last ++ [tup]], by simp, block, inside, counted⟩

omit appended

/-- The page to insert into is the last one. -/
def Relation.AtEnd (relation : Relation Tuple) : Prop :=
  ∀ block ∈ relation.targblock, block + 1 = relation.pages.length

theorem put_eq {targblock : Option Nat}
    (fits : maxAlign (tLen dataLen tup) ≤ pageGetFreeSpace dataLen lines) :
    streamPutHeapTuple dataLen before.length tup ⟨before ++ [lines], targblock⟩ =
      .ok ⟨before ++ [lines ++ [tup]], targblock⟩ := by
  have header := header_le dataLen tup
  have room : ¬space dataLen lines < 4 + maxAlign (tLen dataLen tup) := by
    rw [pageGetFreeSpace] at fits
    omega
  simp [streamPutHeapTuple, room]

theorem insert_spec (atEnd : relation.AtEnd) (tup : Tuple) :
    if maxAlign (tLen dataLen tup) ≤ maxTupleSize then
      ∃ next, streamheapInsert dataLen tup relation = .ok next ∧ next.AtEnd ∧
        Appended dataLen tup relation.pages next.pages
    else streamheapInsert dataLen tup relation = .error .tupleTooBig := by
  obtain ⟨pages, targblock⟩ := relation
  by_cases small : maxAlign (tLen dataLen tup) ≤ maxTupleSize
  · rw [if_pos small, streamheapInsert, streamGetBufferForTuple, if_neg (not_lt.mpr small)]
    have fresh : ¬pageGetFreeSpace dataLen ([] : List Tuple) < maxAlign (tLen dataLen tup) :=
      not_lt.mpr small
    have extended : (extend dataLen (maxAlign (tLen dataLen tup)) ⟨pages, targblock⟩ >>=
        fun found => streamPutHeapTuple dataLen found.1 tup found.2) =
        .ok ⟨pages ++ [[tup]], some pages.length⟩ := by
      rw [extend, if_neg fresh]
      exact put_eq (not_lt.mp fresh)
    have atNew : Relation.AtEnd ⟨pages ++ [[tup]], some pages.length⟩ := by
      simp [Relation.AtEnd]
    rcases eq_nil_or_concat pages with rfl | ⟨front, last, rfl⟩
    · cases targblock with
      | none => exact ⟨_, extended, atNew, .extend _ small nofun⟩
      | some block => cases atEnd block rfl
    · rw [concat_eq_append] at *
      have target : targblock.or (if 0 < (front ++ [last]).length then
          some ((front ++ [last]).length - 1) else none) = some front.length := by
        cases targblock with
        | none => simp
        | some block => simpa [Relation.AtEnd] using atEnd
      simp only [target, List.getElem?_concat_length]
      split_ifs with fits
      · exact ⟨_, put_eq fits, by simp [Relation.AtEnd], .fill _ _ fits⟩
      · exact ⟨_, extended, atNew, .extend _ small (by simpa using fits)⟩
  · rw [if_neg small, streamheapInsert, streamGetBufferForTuple, if_pos (not_le.mp small)]
    rfl

end Places

/-! ## Whole runs -/

section Runs

variable (pages : List (List Tuple))

/-- The relation holds what has been inserted, and a beginning of it has been returned. -/
structure Tailed (ops : List (HeapOp Tuple)) (returned : List Tuple) (s : ScannedHeap Tuple) :
    Prop where
  content : s.relation.pages.flatten = pages.flatten ++ insertions dataLen ops
  atEnd : s.relation.AtEnd
  begins : returned <+: s.relation.pages.flatten
  stands : Stands s.relation.pages returned.length s.scan.place
  filled : Filled dataLen pages → Filled dataLen s.relation.pages

variable {dataLen pages} {ops : List (HeapOp Tuple)} {returned : List Tuple}
  {s : ScannedHeap Tuple} (tailed : Tailed dataLen pages ops returned s)
include tailed

theorem Tailed.getnext :
    ∃ found next, (heapMachine dataLen).step s .getnext = (found, .ok next) ∧
      returned ++ found = s.relation.pages.flatten.take (returned.length + 1) ∧
      Tailed dataLen pages (ops ++ [.getnext]) (returned ++ found) next := by
  obtain ⟨content, atEnd, before, stands, filled⟩ := tailed
  obtain ⟨found, scan, ran, here, later⟩ := getnext_spec stands
  have taken : returned ++ found.toList =
      s.relation.pages.flatten.take (returned.length + 1) := by
    rw [take_add_one, here, ← prefix_iff_eq_take.mp before]
  refine ⟨found.toList, { s with scan }, by simp [heapMachine, heapStep, ran], taken, ?_, atEnd,
    taken ▸ take_prefix _ _, ?_, filled⟩
  · simpa [insertions] using content
  · rwa [length_append]

theorem Tailed.step (op : HeapOp Tuple) :
    ∃ found next, (heapMachine dataLen).step s op = (found, .ok next) ∧
      Tailed dataLen pages (ops ++ [op]) (returned ++ found) next := by
  cases op with
  | getnext =>
    obtain ⟨found, next, stepped, -, still⟩ := tailed.getnext
    exact ⟨found, next, stepped, still⟩
  | insert tup =>
    have spec := @insert_spec _ dataLen _ tailed.atEnd tup
    obtain ⟨content, atEnd, before, stands, filled⟩ := tailed
    split_ifs at spec with small
    · obtain ⟨relation, ran, still, appended⟩ := spec
      refine ⟨[], { s with relation }, by simp [heapMachine, heapStep, ran], ?_, still, ?_, ?_,
        appended.filled ∘ filled⟩
      · simp [appended.flatten_eq, content, insertions, small]
      · rw [append_nil, appended.flatten_eq]
        exact before.trans (prefix_append _ [tup])
      · rw [append_nil]
        exact appended.stands stands
    · refine ⟨[], s, by simp [heapMachine, heapStep, spec], ?_, atEnd, ?_, ?_, filled⟩
      · simpa [insertions, small] using content
      all_goals rwa [append_nil]

/-- Each call returns one more tuple until all have been returned. -/
theorem Tailed.drain (n : Nat) :
    ∃ found next, (heapMachine dataLen).run s (replicate n .getnext) = (found, .ok next) ∧
      returned ++ found = s.relation.pages.flatten.take (returned.length + n) := by
  induction n generalizing ops returned s with
  | zero => exact ⟨[], s, rfl, by simpa using prefix_iff_eq_take.mp tailed.begins⟩
  | succ n ih =>
    obtain ⟨found, next, stepped, taken, still⟩ := tailed.getnext
    obtain ⟨more, final, ran, all⟩ := ih still
    have same : next.relation.pages.flatten = s.relation.pages.flatten := by
      rw [still.content, tailed.content]
      simp [insertions]
    refine ⟨found ++ more, final, ?_, ?_⟩
    · rw [replicate_succ, Machine.run_cons_ok _ stepped, ran]
    · rw [← append_assoc, all, same, taken, length_take, take_eq_take_iff]
      omega

omit tailed

variable (dataLen pages) in
theorem run_tailed (ops : List (HeapOp Tuple)) :
    ∃ returned s, (heapMachine dataLen).run (beginScan pages) ops = (returned, .ok s) ∧
      Tailed dataLen pages ops returned s :=
  @Machine.run_always _ _ _ _ (heapMachine dataLen) (Tailed dataLen pages)
    (fun _ op _ _ tailed => tailed.step op) (beginScan pages)
    ⟨(append_nil _).symm, nofun, nil_prefix, rfl, id⟩ ops

end Runs

end TelegraphCQ.Archive
