import TelegraphCQ.Foundation.Bytes
import TelegraphCQ.Foundation.Fifo
import TelegraphCQ.Foundation.Machine

/-!
# The circular queue of variable-length elements

The queue of `resultq.c`.  Its buffer holds elements of different sizes between
`head` and `tail`; an element is never split, so when one does not fit before the
end of the buffer the tail returns to the start and `wall` marks where the bytes
in use stop.  Pointers are offsets from the start of the buffer.  The build checks
the queue (`RESULTQ_DEBUG`), so unused memory is overwritten.
-/

namespace TelegraphCQ.ResultQueue

open Foundation

def maxAllocSize : Int := 0x3fffffff

def qhdrsz : Int := 8

def padsize : Int := 5

def pad : UInt8 := 0x3f

def eltcheck : Nat := 0xccabbaee

/-- The value of a sum in the type `int`. -/
def cInt (value : Int) : Int := value.bmod 4294967296

/-- A queue serializer with the contract of `resultq.h`: `serialize` fills exactly
`determineSize` bytes of an object that fits one allocation, and `deserialize`
recovers the object from them. -/
structure QueueSerializer (Data : Type) where
  determineSize : Data → Int
  serialize : Data → List UInt8
  deserialize : Memory → Data
  length_serialize : ∀ data, ((serialize data).length : Int) = determineSize data
  determineSize_le : ∀ data, determineSize data ≤ maxAllocSize
  deserialize_serialize : ∀ data mem, Memory.Holds mem 0 (serialize data) →
    deserialize mem = data

instance word_neZero : NeZero (256 ^ 4) := ⟨by decide⟩

/-- The serializer of `intermediateTuple.c` for the four bytes of a pointer. -/
def pointerSerializer : QueueSerializer (Fin (256 ^ 4)) where
  determineSize _ := 4
  serialize pointer := Memory.wordBytes 4 pointer
  deserialize src := Fin.ofNat (256 ^ 4) (Memory.readWord src 4 0)
  length_serialize _ := by simp
  determineSize_le _ := by decide
  deserialize_serialize pointer mem holds := by
    rw [Memory.readWord_of_holds holds, Nat.mod_eq_of_lt pointer.isLt]
    exact Fin.ofNat_val_eq_self pointer

structure Queue where
  bufEnd : Int
  head : Int
  tail : Int
  wall : Int
  bytesfree : Int
  numelts : Int
  mem : Memory

inductive QueueFault where
  | invalidAllocSize (size : Int)
  | negativeFree
  | headPastWall (head wall bufEnd numelts bytesfree : Int)
  | invalidElement
  deriving DecidableEq, Repr

/-- `sizeof(Queue)` is unsigned, so a negative size passes the first test and is
refused by the allocator. -/
def makeQueue (sizeofQueue : Nat) (size : Int) : Except QueueFault (Option Queue) :=
  if 0 ≤ size ∧ size < sizeofQueue then .ok none
  else if ¬ (0 < size ∧ size ≤ maxAllocSize) then .error (.invalidAllocSize size)
  else
    .ok (some
      { bufEnd := size - sizeofQueue
        head := 0
        tail := 0
        wall := size - sizeofQueue
        bytesfree := size - sizeofQueue
        numelts := 0
        mem := fun _ => 0 })

namespace Queue

def spaceToEnd (ptr : Int) (q : Queue) : Int := q.bufEnd - ptr

def IsEmpty (q : Queue) : Prop := q.bytesfree = q.spaceToEnd 0

def IsFull (q : Queue) : Prop := q.bytesfree - (q.bufEnd - q.wall) = 0

instance (q : Queue) : Decidable q.IsEmpty := inferInstanceAs (Decidable (_ = _))

instance (q : Queue) : Decidable q.IsFull := inferInstanceAs (Decidable (_ = _))

end Queue

section Operations

variable {Data : Type} (qs : QueueSerializer Data)

def eltSize (data : Data) : Int := cInt (qs.determineSize data + qhdrsz + padsize)

/-- The stores of one element: the check word, its length, the padding and then
the serialized bytes. -/
def storeElt (data : Data) (addr : Int) (mem : Memory) : Memory :=
  (((mem.write addr (Memory.wordBytes 4 eltcheck)).write (addr + 4)
    (Memory.wordBytes 4 (eltSize qs data).toNat)).write (addr + qhdrsz)
    (List.replicate (eltSize qs data - qhdrsz).toNat pad)).write (addr + qhdrsz)
    (qs.serialize data)

def placeElt (data : Data) (spaceavail : Int) (q : Queue) :
    Except QueueFault (Bool × Queue) :=
  if spaceavail < eltSize qs data then .ok (false, q)
  else if q.bytesfree - eltSize qs data < 0 then .error .negativeFree
  else
    .ok (true,
      { q with
        mem := storeElt qs data q.tail q.mem
        tail := q.tail + eltSize qs data
        numelts := q.numelts + 1
        bytesfree := q.bytesfree - eltSize qs data })

def wrapTail (q : Queue) : Queue :=
  { q with
    mem := q.mem.write q.tail (List.replicate (q.spaceToEnd q.tail).toNat 0xff)
    wall := q.tail
    tail := 0 }

def enqueueElt (data : Data) (q : Queue) : Except QueueFault (Bool × Queue) :=
  if q.IsFull then .ok (false, q)
  else
    let q := if q.wall ≤ q.tail then { q with wall := q.bufEnd } else q
    if q.tail < q.head then placeElt qs data (q.head - q.tail) q
    else if q.spaceToEnd q.tail < eltSize qs data then
      let q := wrapTail q
      if q.IsFull then .ok (false, q)
      else if q.tail < q.head then placeElt qs data (q.head - q.tail) q
      else placeElt qs data (q.spaceToEnd q.tail) q
    else placeElt qs data (q.spaceToEnd q.tail) q

/-- `VARSIZE` of the element at `addr`. -/
def varSize (mem : Memory) (addr : Int) : Int :=
  (mem.readWord 4 (addr + 4) % 2 ^ 30 : Nat)

def takeElt (q : Queue) : Except QueueFault (Option Data × Queue) :=
  if q.mem.readWord 4 q.head ≠ eltcheck then .error .invalidElement
  else
    .ok (some (qs.deserialize (q.mem.view (q.head + qhdrsz))),
      { q with
        mem := q.mem.write q.head (List.replicate (varSize q.mem q.head).toNat 0)
        head := q.head + varSize q.mem q.head
        bytesfree := q.bytesfree + varSize q.mem q.head
        numelts := q.numelts - 1 })

def dequeueElt (q : Queue) : Except QueueFault (Option Data × Queue) :=
  if q.IsEmpty then .ok (none, q)
  else if q.wall < q.head then
    .error (.headPastWall q.head q.wall q.bufEnd q.numelts q.bytesfree)
  else if q.head = q.wall then takeElt qs { q with head := 0, wall := q.bufEnd }
  else takeElt qs q

/-! ## Runs -/

inductive QueueOp (Data : Type) where
  | enqueue (data : Data)
  | dequeue
  deriving DecidableEq, Repr

def enqueueEvent (data : Data) (accepted : Bool) : FifoEvent Data :=
  if accepted then .accepted data else .refused data

def dequeueEvent : Option Data → FifoEvent Data
  | some data => .removed data
  | none => .nothing

def queueStep (q : Queue) :
    QueueOp Data → List (FifoEvent Data) × Except QueueFault Queue
  | .enqueue data =>
    match enqueueElt qs data q with
    | .error fault => ([], .error fault)
    | .ok (accepted, next) => ([enqueueEvent data accepted], .ok next)
  | .dequeue =>
    match dequeueElt qs q with
    | .error fault => ([], .error fault)
    | .ok (found, next) => ([dequeueEvent found], .ok next)

def queueMachine : Machine Queue (QueueOp Data) (FifoEvent Data) QueueFault where
  step := queueStep qs

end Operations

end TelegraphCQ.ResultQueue
