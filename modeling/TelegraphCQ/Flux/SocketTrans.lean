import TelegraphCQ.ResultQueue.Queue

/-!
# The socket transport

The transport of `fluxroutines.c` between two machines.  Results are gathered in a queue of the
sender.  When an insertion is refused or a flush is asked for, the memory of the whole queue is
sent over the socket, as far as it accepts bytes (`send_queue_nb`), and no result is taken before
it is gone.  The receiver hands on the results of its queue; when there are none left it reads
the next queue from the socket (`receive_queue_nb`) and adjusts the pointers in it.

The build checks the queues (`RESULTQ_DEBUG`), so a byte follows each of them.  Both sides wait
for the socket in a loop at that byte.  Here the loop is the repetition of the call.
-/

namespace TelegraphCQ.Flux

open Foundation ResultQueue

def sizeofQueue : Nat := 52

def dummy : UInt8 := 59

/-- What determines the bytes of a queue besides its contents.  The words of `avgfree` and
`numcalls` are not read after they are received. -/
structure QueueMemory where
  size : Nat
  address : Nat
  lock : Nat
  statistics : Queue → Fin 12 → UInt8
  room : sizeofQueue + 8 ≤ size
  allocated : (size : Int) ≤ maxAllocSize
  addressed : address + size < 256 ^ 4

inductive TransFault where
  | queue (fault : QueueFault)
  | assertion
  deriving DecidableEq, Repr

/-! ## The memory of a queue -/

section Image

variable (memory : QueueMemory)

def queueWords (q : Queue) : List Nat :=
  let start := memory.address + sizeofQueue
  [memory.size, 0, start, start + q.bufEnd.toNat, start + q.head.toNat, start + q.tail.toNat,
    start + q.wall.toNat, memory.lock, q.bytesfree.toNat, q.numelts.toNat]

def queueImage (q : Queue) : List UInt8 :=
  (queueWords memory q).flatMap (Memory.wordBytes 4) ++
    (List.ofFn (memory.statistics q) ++ q.mem.readBytes 0 q.bufEnd.toNat)

end Image

def imageWord (bytes : List UInt8) (index : Nat) : Nat :=
  (Memory.ofBytes bytes).readWord 4 (4 * index : Nat)

/-- The queue in received memory, with the pointers relative to the start they were sent with. -/
def relocate (bytes : List UInt8) : Queue where
  bufEnd := (imageWord bytes 3 : Int) - imageWord bytes 2
  head := (imageWord bytes 4 : Int) - imageWord bytes 2
  tail := (imageWord bytes 5 : Int) - imageWord bytes 2
  wall := (imageWord bytes 6 : Int) - imageWord bytes 2
  bytesfree := cInt (imageWord bytes 8)
  numelts := cInt (imageWord bytes 9)
  mem := (Memory.ofBytes bytes).view sizeofQueue

/-- The check at the end of `swizzle_queue_ptrs`.  For a tail before the head the source computes
the bytes in use. -/
def checkFree (q : Queue) : Except TransFault Queue :=
  if q.tail = q.head then
    if q.IsEmpty ∨ q.IsFull then .ok q else .error .assertion
  else if q.tail < q.head then
    if q.bytesfree = (q.wall - q.head) + q.tail then .ok q else .error .assertion
  else
    if q.bytesfree = (q.wall - q.tail) + q.head then .ok q else .error .assertion

def swizzleQueuePtrs (bytes : List UInt8) : Except TransFault Queue :=
  let q := relocate bytes
  checkFree (if q.head = q.wall then { q with head := 0 } else q)

def clearQueue (q : Queue) : Queue :=
  { q with head := 0, tail := 0, wall := q.bufEnd, bytesfree := q.bufEnd, numelts := 0 }

/-! ## Both ends -/

/-- While a queue is read, `image` are the bytes of it that have arrived. -/
structure QueueComm where
  queue : Queue
  pos : Nat
  image : List UInt8
  done : Bool

def newQueueComm (q : Queue) : QueueComm := ⟨q, 0, [], true⟩

def queueCommFlush (qc : QueueComm) : QueueComm :=
  if qc.done then { qc with done := false, pos := 0, image := [] } else qc

/-- One call, in which the socket accepts at most `limit` bytes. -/
def sendQueueNb (memory : QueueMemory) (limit : Nat) (qc : QueueComm) :
    List UInt8 × QueueComm :=
  if qc.pos < memory.size then
    let written := ((queueImage memory qc.queue).drop qc.pos).take limit
    (written, { qc with pos := qc.pos + written.length })
  else if limit = 0 then ([], qc)
  else ([dummy], { qc with done := true, queue := clearQueue qc.queue })

/-- How many bytes each `read` of a call finds at most; a read that would block finds none. -/
structure ReadLimits where
  size : Nat
  body : Nat
  dummy : Nat
  deriving DecidableEq, Repr

def readUpTo (upTo limit : Nat) (wire : List UInt8) (qc : QueueComm) : List UInt8 × QueueComm :=
  let bytes := wire.take (min limit (upTo - qc.pos))
  (wire.drop bytes.length,
    { qc with pos := qc.pos + bytes.length, image := qc.image ++ bytes })

def readDummy (limit : Nat) (qc : QueueComm) :
    List UInt8 → Except TransFault (List UInt8 × QueueComm)
  | [] => .ok ([], qc)
  | byte :: wire =>
    if limit = 0 then .ok (byte :: wire, qc)
    else if byte ≠ dummy then .error .assertion
    else
      match swizzleQueuePtrs qc.image with
      | .error fault => .error fault
      | .ok q => .ok (wire, { qc with queue := q, done := true })

def receiveQueueNb (limits : ReadLimits) (wire : List UInt8) (qc : QueueComm) :
    Except TransFault (List UInt8 × QueueComm) :=
  let (wire, qc) := readUpTo 4 limits.size wire qc
  if qc.pos < 4 then .ok (wire, qc)
  else
    let size := imageWord qc.image 0
    let (wire, qc) := readUpTo size limits.body wire qc
    if qc.pos < size then .ok (wire, qc)
    else readDummy limits.dummy qc wire

/-! ## Runs -/

variable {Data : Type}

structure SocketTrans where
  sender : QueueComm
  receiver : QueueComm
  wire : List UInt8

inductive TransOp (Data : Type) where
  | sendResult (data : Data) (flush : Bool) (limit : Nat)
  | flush
  | recvResult (limits : ReadLimits)
  deriving DecidableEq, Repr

/-- What a call returns, and the bytes that it puts on the wire or takes from it. -/
inductive TransEvent (Data : Type) where
  | sent (data : Data)
  | notSent (data : Data)
  | received (data : Data)
  | notReceived
  | wrote (count : Nat)
  | read (count : Nat)
  deriving DecidableEq, Repr

section Step

variable (qs : QueueSerializer Data) (memory : QueueMemory)

/-- `enqueue` has to find room for a header in the buffer. -/
def enqueue (data : Data) (q : Queue) : Except TransFault (Bool × Queue) :=
  if q.bufEnd < qhdrsz then .error .assertion
  else
    match enqueueElt qs data q with
    | .error fault => .error (.queue fault)
    | .ok result => .ok result

def sentEvent (data : Data) (accepted : Bool) : TransEvent Data :=
  if accepted then .sent data else .notSent data

def sendResult (data : Data) (flush : Bool) (limit : Nat) (s : SocketTrans) :
    List (TransEvent Data) × Except TransFault SocketTrans :=
  if s.sender.done then
    match enqueue qs data s.sender.queue with
    | .error fault => ([], .error fault)
    | .ok (accepted, q) =>
      let qc := { s.sender with queue := q }
      ([sentEvent data accepted],
        .ok { s with sender := if !accepted || flush then queueCommFlush qc else qc })
  else
    let (written, qc) := sendQueueNb memory limit s.sender
    ([.wrote written.length, .notSent data],
      .ok { s with sender := qc, wire := s.wire ++ written })

def recvResult (limits : ReadLimits) (s : SocketTrans) :
    List (TransEvent Data) × Except TransFault SocketTrans :=
  if s.receiver.done then
    match dequeueElt qs s.receiver.queue with
    | .error fault => ([], .error (.queue fault))
    | .ok (some data, q) =>
      ([.received data], .ok { s with receiver := { s.receiver with queue := q } })
    | .ok (none, q) =>
      ([.notReceived],
        .ok { s with receiver := queueCommFlush { s.receiver with queue := q } })
  else
    match receiveQueueNb limits s.wire s.receiver with
    | .error fault => ([], .error fault)
    | .ok (wire, qc) =>
      ([.read (s.wire.length - wire.length), .notReceived],
        .ok { s with receiver := qc, wire := wire })

def transStep (s : SocketTrans) :
    TransOp Data → List (TransEvent Data) × Except TransFault SocketTrans
  | .sendResult data flush limit => sendResult qs memory data flush limit s
  | .flush => ([], .ok { s with sender := queueCommFlush s.sender })
  | .recvResult limits => recvResult qs limits s

def transMachine : Machine SocketTrans (TransOp Data) (TransEvent Data) TransFault where
  step := transStep qs memory

end Step

def emptyQueue (memory : QueueMemory) : Queue where
  bufEnd := (memory.size : Int) - sizeofQueue
  head := 0
  tail := 0
  wall := (memory.size : Int) - sizeofQueue
  bytesfree := (memory.size : Int) - sizeofQueue
  numelts := 0
  mem := fun _ => 0

/-- Both sides have made their queues, not necessarily of one size. -/
def newSocketTrans (memory other : QueueMemory) : SocketTrans where
  sender := newQueueComm (emptyQueue memory)
  receiver := newQueueComm (emptyQueue other)
  wire := []

def sentResults (events : List (TransEvent Data)) : List Data :=
  events.filterMap fun
    | .sent data => some data
    | _ => none

def receivedResults (events : List (TransEvent Data)) : List Data :=
  events.filterMap fun
    | .received data => some data
    | _ => none

def bytesWritten (events : List (TransEvent Data)) : Nat :=
  (events.map fun | .wrote count => count | _ => 0).sum

def bytesRead (events : List (TransEvent Data)) : Nat :=
  (events.map fun | .read count => count | _ => 0).sum

end TelegraphCQ.Flux
