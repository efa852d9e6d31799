import TelegraphCQ.ResultQueue.Queue

/-!
# The serializer of results

What is sent through a queue of results (`rqdest.c`): tuples, errors, and the messages that
the two ends of a Flux connection send each other.  A result is stored as its type and then
what belongs to it.
-/

namespace TelegraphCQ.ResultQueue

open Foundation

def heapTupleSize : Nat := 24

/-- The bytes of a tuple; it was allocated together with its header. -/
structure HeapTuple where
  data : List UInt8
  allocated : ((heapTupleSize + data.length : Nat) : Int) ≤ maxAllocSize
  deriving DecidableEq

/-- The text of an error.  With its type and length it has to fit an allocation, as the queue
does that it is put into. -/
structure ErrorText where
  data : List UInt8
  allocated : ((4 + 4 + data.length : Nat) : Int) ≤ maxAllocSize
  deriving DecidableEq

inductive Result where
  | done
  | error (text : ErrorText)
  | heapTuple (tuple : HeapTuple)
  | fprodsync (info : Fin (256 ^ 4))
  | fconssync
  | fprodalive (info : Fin (256 ^ 4))
  | pauseack
  deriving DecidableEq

namespace Result

/-- The number of the type in `ResultType`. -/
def type : Result → Nat
  | done => 199
  | error _ => 200
  | heapTuple _ => 201
  | fprodsync _ => 202
  | fconssync => 203
  | fprodalive _ => 204
  | pauseack => 205

def determineSize : Result → Int
  | error text => 4 + (4 + text.data.length)
  | heapTuple tuple => 4 + (tuple.data.length + 4)
  | fprodsync _ | fprodalive _ => 4 + 4
  | done | fconssync | pauseack => 4

def serializeData : Result → List UInt8
  | error text => Memory.wordBytes 4 (4 + text.data.length) ++ text.data
  | heapTuple tuple => Memory.wordBytes 4 tuple.data.length ++ tuple.data
  | fprodsync info | fprodalive info => Memory.wordBytes 4 info
  | done | fconssync | pauseack => []

def serialize (result : Result) : List UInt8 :=
  Memory.wordBytes 4 result.type ++ result.serializeData

/-- The length word of a text counts the word itself; two of its bits are flags. -/
def errorLength (src : Memory) : Nat := src.readWord 4 4 % 2 ^ 30 - 4

def tupleLength (src : Memory) : Nat := src.readWord 4 4

/-- Of a type that does not exist, or a length that cannot be allocated, the source raises an
error; no result is serialized to it. -/
def deserialize (src : Memory) : Result :=
  match src.readWord 4 0 with
  | 200 =>
    if fits : ((4 + 4 + (src.readBytes 8 (errorLength src)).length : Nat) : Int) ≤
        maxAllocSize then
      error ⟨src.readBytes 8 (errorLength src), fits⟩
    else done
  | 201 =>
    if fits : ((heapTupleSize + (src.readBytes 8 (tupleLength src)).length : Nat) : Int) ≤
        maxAllocSize then
      heapTuple ⟨src.readBytes 8 (tupleLength src), fits⟩
    else done
  | 202 => fprodsync (Fin.ofNat (256 ^ 4) (src.readWord 4 4))
  | 203 => fconssync
  | 204 => fprodalive (Fin.ofNat (256 ^ 4) (src.readWord 4 4))
  | 205 => pauseack
  | _ => done

theorem length_serialize (result : Result) :
    (result.serialize.length : Int) = result.determineSize := by
  rw [serialize, List.length_append, Memory.length_wordBytes]
  cases result with
  | heapTuple tuple =>
    simp only [serializeData, determineSize, List.length_append, Memory.length_wordBytes]
    omega
  | _ => simp [serializeData, determineSize]

theorem determineSize_le (result : Result) : result.determineSize ≤ maxAllocSize := by
  cases result with
  | error text =>
    have allocated := text.allocated
    simp only [determineSize]
    omega
  | heapTuple tuple =>
    have allocated := tuple.allocated
    simp only [determineSize, heapTupleSize] at allocated ⊢
    omega
  | _ => simp [determineSize, maxAllocSize]

theorem readWord_type {result : Result} {mem : Memory}
    (holds : mem.Holds 0 result.serialize) : mem.readWord 4 0 = result.type := by
  have word := Memory.readWord_of_holds (Memory.holds_append.mp holds).1
  rw [word]
  cases result <;> rfl

theorem deserialize_serialize (result : Result) (mem : Memory)
    (holds : mem.Holds 0 result.serialize) : deserialize mem = result := by
  have type_eq := readWord_type holds
  have data_holds : mem.Holds 4 result.serializeData := by
    simpa using (Memory.holds_append.mp holds).2
  rw [deserialize, type_eq]
  cases result with
  | error text =>
    obtain ⟨word, data⟩ := Memory.holds_append.mp data_holds
    have allocated := text.allocated
    have length_eq : errorLength mem = text.data.length := by
      have read := Memory.readWord_of_holds word
      simp only [maxAllocSize] at allocated
      simp only [errorLength, read]
      omega
    have bytes : mem.readBytes 8 (errorLength mem) = text.data := by
      rw [length_eq]
      exact Memory.readBytes_of_holds data
    simp only [type, bytes, dif_pos allocated]
  | heapTuple tuple =>
    obtain ⟨word, data⟩ := Memory.holds_append.mp data_holds
    have allocated := tuple.allocated
    have length_eq : tupleLength mem = tuple.data.length := by
      have read := Memory.readWord_of_holds word
      simp only [maxAllocSize] at allocated
      simp only [tupleLength, read]
      omega
    have bytes : mem.readBytes 8 (tupleLength mem) = tuple.data := by
      rw [length_eq]
      exact Memory.readBytes_of_holds data
    simp only [type, bytes, dif_pos allocated]
  | fprodsync info | fprodalive info =>
    have read : mem.readWord 4 4 = info := by
      rw [Memory.readWord_of_holds data_holds, Nat.mod_eq_of_lt info.isLt]
    simp only [type, read, Fin.ofNat_val_eq_self]
  | _ => rfl

end Result

def resultSerializer : QueueSerializer Result where
  determineSize := Result.determineSize
  serialize := Result.serialize
  deserialize := Result.deserialize
  length_serialize := Result.length_serialize
  determineSize_le := Result.determineSize_le
  deserialize_serialize := Result.deserialize_serialize

end TelegraphCQ.ResultQueue
