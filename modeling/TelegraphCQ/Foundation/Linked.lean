import Mathlib.Data.List.Basic
import Mathlib.Data.List.Induction

/-!
# Linked lists

Cells of a heap linked by a `next` pointer, and by a `prev` pointer where they are doubly linked: a
segment of a doubly linked list, between the cell before it and the cell after it.  A cell is
linked in or unlinked by cutting the list into segments and changing the pointers at the cut.
-/

namespace TelegraphCQ.Foundation

open List

variable {Addr : Type*}

def Follows (next : Addr → Option Addr) : List Addr → Prop
  | [] => True
  | cell :: cells => next cell = cells.head? ∧ Follows next cells

variable {next : Addr → Option Addr} {cells : List Addr}

theorem Follows.congr {next' : Addr → Option Addr}
    (follows : Follows next cells) (same : ∀ cell ∈ cells, next' cell = next cell) :
    Follows next' cells := by
  induction cells with
  | nil => trivial
  | cons cell cells ih =>
    obtain ⟨here, rest⟩ := follows
    refine ⟨(same cell (by simp)).trans here, ih rest ?_⟩
    intro other member
    exact same other (mem_cons_of_mem _ member)

def Linked (next prev : Addr → Option Addr) :
    Option Addr → List Addr → Option Addr → Prop
  | _, [], _ => True
  | before, cell :: cells, after =>
    prev cell = before ∧ next cell = cells.head?.or after ∧
      Linked next prev (some cell) cells after

namespace Linked

variable {next prev next' prev' : Addr → Option Addr} {before before' after after' : Option Addr}
  {cells front back : List Addr} {cell : Addr}

theorem congr (linked : Linked next prev before cells after)
    (sameNext : ∀ c ∈ cells, next' c = next c) (samePrev : ∀ c ∈ cells, prev' c = prev c) :
    Linked next' prev' before cells after := by
  induction cells generalizing before with
  | nil => trivial
  | cons c cells ih =>
    obtain ⟨isPrev, isNext, rest⟩ := linked
    refine ⟨(samePrev c (by simp)).trans isPrev, (sameNext c (by simp)).trans isNext, ?_⟩
    exact ih rest (fun d mem => sameNext d (mem_cons_of_mem _ mem))
      fun d mem => samePrev d (mem_cons_of_mem _ mem)

theorem append_iff : Linked next prev before (front ++ back) after ↔
      Linked next prev before front (back.head?.or after) ∧
        Linked next prev (front.getLast?.or before) back after := by
  induction front generalizing before with
  | nil => simp [Linked]
  | cons c front ih =>
    have heads : ((front ++ back).head?).or after = front.head?.or (back.head?.or after) := by
      cases front <;> simp
    have lasts : ((c :: front).getLast?).or before = front.getLast?.or (some c) := by
      cases front with
      | nil => simp
      | cons d front =>
        rw [getLast?_cons_cons, getLast?_eq_getLast_of_ne_nil (by simp)]
        simp
    simp only [cons_append, Linked, ih, heads, lasts, and_assoc]

theorem relink_last (linked : Linked next prev before cells after) (nodup : cells.Nodup)
    (sameNext : ∀ c ∈ cells, cells.getLast? ≠ some c → next' c = next c)
    (samePrev : ∀ c ∈ cells, prev' c = prev c)
    (last : ∀ c, cells.getLast? = some c → next' c = after') :
    Linked next' prev' before cells after' := by
  induction cells generalizing before with
  | nil => trivial
  | cons c cells ih =>
    obtain ⟨isPrev, isNext, rest⟩ := linked
    obtain ⟨unlisted, nodup⟩ := nodup_cons.mp nodup
    refine ⟨(samePrev c (by simp)).trans isPrev, ?_, ?_⟩
    · cases cells with
      | nil => simpa using last c rfl
      | cons d cells =>
        rw [sameNext c (by simp), isNext]
        · simp
        · intro isLast
          rw [getLast?_cons_cons] at isLast
          exact unlisted (mem_of_getLast? isLast)
    · cases cells with
      | nil => trivial
      | cons d cells =>
        rw [getLast?_cons_cons] at sameNext last
        exact ih rest nodup (fun e mem => sameNext e (mem_cons_of_mem _ mem))
          (fun e mem => samePrev e (mem_cons_of_mem _ mem)) last

theorem relink_first (linked : Linked next prev before cells after) (nodup : cells.Nodup)
    (sameNext : ∀ c ∈ cells, next' c = next c)
    (samePrev : ∀ c ∈ cells, cells.head? ≠ some c → prev' c = prev c)
    (first : ∀ c, cells.head? = some c → prev' c = before') :
    Linked next' prev' before' cells after := by
  cases cells with
  | nil => trivial
  | cons c cells =>
    obtain ⟨-, isNext, rest⟩ := linked
    obtain ⟨unlisted, -⟩ := nodup_cons.mp nodup
    refine ⟨first c rfl, (sameNext c (by simp)).trans isNext, ?_⟩
    refine rest.congr (fun d mem => sameNext d (mem_cons_of_mem _ mem)) fun d mem => ?_
    refine samePrev d (mem_cons_of_mem _ mem) fun isFirst => ?_
    exact unlisted (Option.some.inj isFirst ▸ mem)

section Relinking

variable (nodup : (front ++ cell :: back).Nodup)
  (sameNext : ∀ c ∈ front ++ back, front.getLast? ≠ some c → next' c = next c)
  (samePrev : ∀ c ∈ front ++ back, back.head? ≠ some c → prev' c = prev c)
include nodup sameNext samePrev

theorem relink {link link' : Option Addr} (inFront : Linked next prev none front link)
    (inBack : Linked next prev link' back none)
    (last : ∀ c, front.getLast? = some c → next' c = after')
    (first : ∀ c, back.head? = some c → prev' c = before') :
    Linked next' prev' none front after' ∧ Linked next' prev' before' back none := by
  obtain ⟨frontNodup, restNodup, apart⟩ := nodup_append.mp nodup
  constructor
  · refine inFront.relink_last frontNodup (fun c mem => sameNext c (by simp [mem])) ?_ last
    intro c mem
    refine samePrev c (by simp [mem]) fun isFirst => ?_
    exact apart c mem c (mem_cons_of_mem _ (mem_of_mem_head? isFirst)) rfl
  · refine inBack.relink_first (nodup_cons.mp restNodup).2 ?_
      (fun c mem => samePrev c (by simp [mem])) first
    intro c mem
    refine sameNext c (by simp [mem]) fun isLast => ?_
    exact apart c (mem_of_getLast? isLast) c (mem_cons_of_mem _ mem) rfl

theorem remove (linked : Linked next prev none (front ++ cell :: back) none)
    (last : ∀ c, front.getLast? = some c → next' c = back.head?)
    (first : ∀ c, back.head? = some c → prev' c = front.getLast?) :
    Linked next' prev' none (front ++ back) none := by
  obtain ⟨inFront, -, -, inBack⟩ := append_iff.mp linked
  rw [append_iff, Option.or_none, Option.or_none]
  exact inFront.relink nodup sameNext samePrev inBack last first

theorem insert (linked : Linked next prev none (front ++ back) none)
    (last : ∀ c, front.getLast? = some c → next' c = some cell)
    (first : ∀ c, back.head? = some c → prev' c = some cell)
    (cellNext : next' cell = back.head?) (cellPrev : prev' cell = front.getLast?) :
    Linked next' prev' none (front ++ cell :: back) none := by
  obtain ⟨inFront, inBack⟩ := append_iff.mp linked
  obtain ⟨front', back'⟩ := inFront.relink nodup sameNext samePrev inBack last first
  rw [append_iff]
  exact ⟨front', by rw [cellPrev, Option.or_none], by rw [cellNext, Option.or_none], back'⟩

end Relinking

theorem pointers (linked : Linked next prev none (front ++ cell :: back) none) :
    next cell = back.head? ∧ prev cell = front.getLast? := by
  obtain ⟨-, isPrev, isNext, -⟩ := append_iff.mp linked
  exact ⟨by simpa using isNext, by simpa using isPrev⟩

end Linked

/-! ## Walking along the pointers -/

def walk (link : Addr → Option Addr) : Nat → Option Addr → List Addr
  | 0, _ => []
  | _ + 1, none => []
  | steps + 1, some cell => cell :: walk link steps (link cell)

theorem Follows.walk {link : Addr → Option Addr} {cells : List Addr}
    (follows : Follows link cells) {steps : Nat} (enough : cells.length ≤ steps) :
    walk link steps cells.head? = cells := by
  induction cells generalizing steps with
  | nil => cases steps <;> rfl
  | cons cell cells ih =>
    obtain ⟨isNext, rest⟩ := follows
    cases steps with
    | zero => simp at enough
    | succ steps =>
      rw [head?_cons, Foundation.walk, isNext, ih rest (by simpa using enough)]

variable {prev : Addr → Option Addr}

theorem Linked.follows
    {before : Option Addr} (linked : Linked next prev before cells none) : Follows next cells := by
  induction cells generalizing before with
  | nil => trivial
  | cons cell cells ih =>
    obtain ⟨-, isNext, rest⟩ := linked
    exact ⟨by rw [isNext, Option.or_none], ih rest⟩

theorem Linked.follows_reverse {after : Option Addr} (linked : Linked next prev none cells after) :
    Follows prev cells.reverse := by
  induction cells using List.reverseRecOn generalizing after with
  | nil => trivial
  | append_singleton cells cell ih =>
    obtain ⟨front, isPrev, -⟩ := Linked.append_iff.mp linked
    rw [reverse_append]
    refine ⟨?_, ih front⟩
    rw [isPrev, Option.or_none, ← head?_reverse]
    rfl

end TelegraphCQ.Foundation
