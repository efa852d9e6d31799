import Mathlib.Data.List.Nodup

/-!
# Modules of the shared eddy and their users

Every module of the eddy and every source keeps the list of the queries that use it
(`processNode.c`).
-/

namespace TelegraphCQ.Eddy

def tcqMaxSources : Nat := 64

def fjordAddQuery (queryid : Nat) (usedByQueries : List Nat) : List Nat :=
  if queryid ∈ usedByQueries then usedByQueries else queryid :: usedByQueries

variable {queryid q : Nat} {usedByQueries : List Nat}

@[simp] theorem mem_fjordAddQuery :
    q ∈ fjordAddQuery queryid usedByQueries ↔ q = queryid ∨ q ∈ usedByQueries := by
  unfold fjordAddQuery
  split_ifs with member
  · constructor
    · exact .inr
    · rintro (rfl | old)
      · exact member
      · exact old
  · exact List.mem_cons

/-- `lremovei` is called twice. -/
def fjordRemoveQuery (queryid : Nat) (usedByQueries : List Nat) : List Nat :=
  (usedByQueries.erase queryid).erase queryid

theorem mem_fjordRemoveQuery (distinct : usedByQueries.Nodup) :
    q ∈ fjordRemoveQuery queryid usedByQueries ↔ q ≠ queryid ∧ q ∈ usedByQueries := by
  rw [fjordRemoveQuery, List.erase_of_not_mem fun member => (distinct.mem_erase_iff.mp member).1 rfl,
    distinct.mem_erase_iff]

end TelegraphCQ.Eddy
