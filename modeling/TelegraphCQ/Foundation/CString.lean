import Mathlib.Data.List.Infix
import Mathlib.Data.List.TakeWhile

/-!
# Strings in memory

The string functions of C on a piece of memory, a list of bytes.  A string is what stands
before the first NUL byte.  The lemmas are for a string that is followed by its NUL.
-/

namespace TelegraphCQ.Foundation

open List

abbrev Byte := UInt8

namespace CString

def nul : Byte := 0

def content (memory : List Byte) : List Byte :=
  memory.takeWhile (· ≠ nul)

/-- How far away the first occurrence of a byte in the string is. -/
def strchr (sought : Byte) : List Byte → Option Nat
  | [] => none
  | byte :: memory =>
    if byte = sought then some 0
    else if byte = nul then none
    else (strchr sought memory).map (· + 1)

def strcspn (rejected memory : List Byte) : Nat :=
  (memory.takeWhile fun byte => byte ≠ nul ∧ byte ∉ rejected).length

def toLower (byte : Byte) : Byte :=
  if 65 ≤ byte ∧ byte ≤ 90 then byte + 32 else byte

/-- Whether `strcasecmp` gives zero. -/
def sameIgnoringCase (first second : List Byte) : Bool :=
  first.map toLower == second.map toLower

/-- Whether `strncasecmp` gives zero. -/
def sameStart (size : Nat) (first second : List Byte) : Bool :=
  sameIgnoringCase (first.take size) (second.take size)

def replaceAll (old new : Byte) : List Byte → List Byte
  | [] => []
  | byte :: memory =>
    if byte = nul then byte :: memory
    else (if byte = old then new else byte) :: replaceAll old new memory

variable {text after : List Byte} {sought : Byte}

theorem content_append (proper : nul ∉ text) : content (text ++ nul :: after) = text := by
  have all : ∀ byte ∈ text, decide (byte ≠ nul) = true := by
    intro byte isByte
    rw [decide_eq_true_eq]
    rintro rfl
    exact proper isByte
  rw [content, takeWhile_append_of_pos all, takeWhile_cons_of_neg (by simp), append_nil]

theorem strchr_some (before : sought ∉ text) (proper : nul ∉ text) :
    strchr sought (text ++ sought :: after) = some text.length := by
  induction text with
  | nil => simp [strchr]
  | cons byte text ih =>
    have different : byte ≠ sought := by
      rintro rfl
      exact before mem_cons_self
    have notNul : byte ≠ nul := by
      rintro rfl
      exact proper mem_cons_self
    have found := ih (fun isByte => before (mem_cons_of_mem _ isByte))
      (fun isByte => proper (mem_cons_of_mem _ isByte))
    simp [strchr, different, notNul, found]

theorem strchr_none (before : sought ∉ text) (notNul : sought ≠ nul) :
    strchr sought (text ++ nul :: after) = none := by
  induction text with
  | nil => simp [strchr, notNul.symm]
  | cons byte text ih =>
    have different : byte ≠ sought := by
      rintro rfl
      exact before mem_cons_self
    have missing := ih fun isByte => before (mem_cons_of_mem _ isByte)
    by_cases ends : byte = nul
    · simp [strchr, ends, notNul.symm]
    · simp [strchr, different, ends, missing]

theorem strcspn_append (rejected : List Byte) (proper : nul ∉ text) :
    strcspn rejected (text ++ nul :: after) =
      (text.takeWhile fun byte => byte ∉ rejected).length := by
  induction text with
  | nil => simp [strcspn]
  | cons byte text ih =>
    have notNul : byte ≠ nul := by
      rintro rfl
      exact proper mem_cons_self
    have rest := ih fun isByte => proper (mem_cons_of_mem _ isByte)
    rw [strcspn] at rest ⊢
    by_cases stops : byte ∈ rejected
    · simp [stops]
    · simpa [stops, notNul] using rest

theorem replaceAll_append (old new : Byte) (proper : nul ∉ text) :
    replaceAll old new (text ++ nul :: after) =
      text.map (fun byte => if byte = old then new else byte) ++ nul :: after := by
  induction text with
  | nil => simp [replaceAll]
  | cons byte text ih =>
    have notNul : byte ≠ nul := by
      rintro rfl
      exact proper mem_cons_self
    have rest := ih fun isByte => proper (mem_cons_of_mem _ isByte)
    simp [replaceAll, notNul, rest]

end CString

end TelegraphCQ.Foundation
