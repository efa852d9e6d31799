import Mathlib.Data.List.Infix
import Mathlib.Tactic.Ring

/-!
# Streams of packets

A stream is written and read in pieces of any length.  What has been written and not yet read
is a slice of it; a reader that takes packets of a fixed length finds each of them again.
-/

namespace TelegraphCQ.Foundation

open List

variable {Item : Type}

def slice (first last : Nat) (items : List Item) : List Item := (items.take last).drop first

variable {first last : Nat} {items : List Item}

theorem length_slice (within : last ≤ items.length) :
    (slice first last items).length = last - first := by
  simp [slice, within]

@[simp] theorem slice_self (place : Nat) (items : List Item) : slice place place items = [] := by
  simp [slice]

theorem slice_append {middle : Nat} (earlier : first ≤ middle) (later : middle ≤ last)
    (items : List Item) :
    slice first middle items ++ slice middle last items = slice first last items := by
  have taken : items.take middle = (items.take last).take middle := by
    rw [take_take, Nat.min_eq_left later]
  have dropped : (items.take last).drop first =
      ((items.take last).take middle ++ (items.take last).drop middle).drop first := by
    rw [take_append_drop]
  by_cases short : items.length ≤ middle
  · have nothing : slice middle last items = [] := by
      rw [slice]
      exact drop_of_length_le (by simp; omega)
    rw [nothing, append_nil, slice, slice, take_of_length_le short,
      take_of_length_le (short.trans later)]
  · rw [slice, slice, slice, dropped, drop_append_of_le_length (by simp; omega), taken]

theorem take_slice (first last count : Nat) (items : List Item) :
    (slice first last items).take count = slice first (min (first + count) last) items := by
  rw [slice, slice, take_drop, take_take]

theorem drop_slice (first last count : Nat) (items : List Item) :
    (slice first last items).drop count = slice (first + count) last items := by
  rw [slice, slice, drop_drop]

theorem slice_of_append (within : last ≤ items.length) (more : List Item) :
    slice first last (items ++ more) = slice first last items := by
  rw [slice, slice, take_append_of_le_length within]

section Packets

variable {size : Nat} {packets : List (List Item)}

section

variable (uniform : ∀ packet ∈ packets, packet.length = size)
include uniform

theorem length_flatten_uniform : packets.flatten.length = packets.length * size := by
  induction packets with
  | nil => simp
  | cons packet packets ih =>
    rw [flatten_cons, length_append, uniform packet mem_cons_self,
      ih fun other mem => uniform other (mem_cons_of_mem _ mem), length_cons]
    ring

theorem drop_flatten_uniform (count : Nat) :
    packets.flatten.drop (count * size) = (packets.drop count).flatten := by
  induction count generalizing packets with
  | zero => simp
  | succ count ih =>
    cases packets with
    | nil => simp
    | cons packet packets =>
      have places : (count + 1) * size = packet.length + count * size := by
        rw [uniform packet mem_cons_self]
        ring
      rw [flatten_cons, places, drop_append, drop_succ_cons]
      simp only [drop_of_length_le (Nat.le_add_right _ _), nil_append, Nat.add_sub_cancel_left]
      exact ih fun other mem => uniform other (mem_cons_of_mem _ mem)

theorem slice_packet {index : Nat} {packet : List Item} (packet_at : packets[index]? = some packet)
    (first : Nat) (within : last ≤ size) :
    slice (index * size + first) (index * size + last) packets.flatten =
      slice first last packet := by
  obtain ⟨index_lt, rfl⟩ := List.getElem?_eq_some_iff.mp packet_at
  have length_eq := uniform packets[index] (List.getElem_mem index_lt)
  rw [slice, slice, ← List.drop_drop, ← List.take_drop, drop_flatten_uniform uniform,
    drop_eq_getElem_cons index_lt, flatten_cons, take_append_of_le_length (by omega)]

end

end Packets

end TelegraphCQ.Foundation
