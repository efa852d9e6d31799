import TelegraphCQ.Flux.SocketImage
import TelegraphCQ.Foundation.Packets
import TelegraphCQ.ResultQueue.ResultSerializer

/-!
# The socket transport delivers in order

The queues that were given to the socket follow each other in one stream of bytes, each with the
byte behind it.  What is on the wire is the part of the stream between what was read and what was
written.  The receiver has handed on the results of the queues that it has read.
-/

namespace TelegraphCQ.Flux

open Foundation ResultQueue List

variable {Data : Type}

/-! ## The stream -/

structure Buffer (Data : Type) where
  items : List Data
  image : List UInt8

def Buffer.packet (buffer : Buffer Data) : List UInt8 := buffer.image ++ [dummy]

def stream (buffers : List (Buffer Data)) : List UInt8 := (buffers.map Buffer.packet).flatten

def contents (buffers : List (Buffer Data)) : List Data := buffers.flatMap Buffer.items

@[simp] theorem contents_append (buffers later : List (Buffer Data)) :
    contents (buffers ++ later) = contents buffers ++ contents later := by
  simp [contents]

@[simp] theorem stream_append (buffers later : List (Buffer Data)) :
    stream (buffers ++ later) = stream buffers ++ stream later := by
  simp [stream]

variable {buffers later early : List (Buffer Data)} {count written read : Nat}
  {items sent received : List Data} {qc : QueueComm} {events emitted : List (TransEvent Data)}
  {s next : SocketTrans} {wire : List UInt8}

theorem contents_take_succ {buffer : Buffer Data} (buffer_at : buffers[count]? = some buffer) :
    contents (buffers.take (count + 1)) = contents (buffers.take count) ++ buffer.items := by
  rw [take_add_one, buffer_at, contents_append]
  simp [contents]

section Correct

variable (qs : QueueSerializer Data) (memory : QueueMemory)

structure Buffer.Carries (buffer : Buffer Data) : Prop where
  length : buffer.image.length = memory.size
  word : buffer.image.take 4 = Memory.wordBytes 4 memory.size
  opens : ∃ q, swizzleQueuePtrs buffer.image = .ok q ∧ Stores qs q buffer.items

inductive Sends : QueueComm → List (Buffer Data) → List Data → Nat → Prop
  | filling {qc : QueueComm} {buffers : List (Buffer Data)} {items : List Data}
      (done : qc.done = true) (filling : Filling qs memory qc.queue items) :
      Sends qc buffers (contents buffers ++ items) (buffers.length * (memory.size + 1))
  | sending {qc : QueueComm} {buffers : List (Buffer Data)} {items : List Data}
      (done : qc.done = false) (gathered : Gathered qs memory qc.queue items)
      (within : qc.pos ≤ memory.size) :
      Sends qc (buffers ++ [⟨items, queueImage memory qc.queue⟩]) (contents buffers ++ items)
        (buffers.length * (memory.size + 1) + qc.pos)

inductive Receives : QueueComm → List (Buffer Data) → List Data → Nat → Prop
  | emptying {qc : QueueComm} {buffers : List (Buffer Data)} {items received : List Data}
      (count : Nat) (done : qc.done = true) (stores : Stores qs qc.queue items)
      (some_left : received ++ items = contents (buffers.take count)) :
      Receives qc buffers received (count * (memory.size + 1))
  | reading {qc : QueueComm} {buffers : List (Buffer Data)} (count : Nat)
      (done : qc.done = false) (within : qc.pos ≤ memory.size)
      (image : qc.image = slice (count * (memory.size + 1))
        (count * (memory.size + 1) + qc.pos) (stream buffers)) :
      Receives qc buffers (contents (buffers.take count)) (count * (memory.size + 1) + qc.pos)

structure Transfers (buffers : List (Buffer Data)) (events : List (TransEvent Data))
    (s : SocketTrans) : Prop where
  carries : ∀ buffer ∈ buffers, buffer.Carries qs memory
  sends : Sends qs memory s.sender buffers (sentResults events) (bytesWritten events)
  receives : Receives qs memory s.receiver buffers (receivedResults events) (bytesRead events)
  behind : bytesRead events ≤ bytesWritten events
  wire : s.wire = slice (bytesRead events) (bytesWritten events) (stream buffers)

end Correct

variable {qs : QueueSerializer Data} {memory : QueueMemory}

section

variable (carries : ∀ buffer ∈ buffers, buffer.Carries qs memory)
include carries

theorem length_packet : ∀ packet ∈ buffers.map Buffer.packet, packet.length = memory.size + 1 := by
  intro packet mem
  obtain ⟨buffer, buffer_mem, rfl⟩ := mem_map.mp mem
  rw [Buffer.packet, length_append, (carries buffer buffer_mem).length]
  rfl

theorem length_stream : (stream buffers).length = buffers.length * (memory.size + 1) := by
  rw [stream, length_flatten_uniform (length_packet carries), length_map]

variable {buffer : Buffer Data}

theorem slice_stream (buffer_at : buffers[count]? = some buffer)
    (first : Nat) {last : Nat} (within : last ≤ memory.size + 1) :
    slice (count * (memory.size + 1) + first) (count * (memory.size + 1) + last)
      (stream buffers) = slice first last buffer.packet := by
  refine slice_packet (length_packet carries) ?_ first within
  rw [getElem?_map, buffer_at]
  rfl

theorem slice_dummy (buffer_at : buffers[count]? = some buffer) {pos : Nat}
    (finished : pos = memory.size) :
    slice (count * (memory.size + 1) + pos) (count * (memory.size + 1) + pos + 1)
      (stream buffers) = [dummy] := by
  subst finished
  have length_eq := (carries buffer (mem_of_getElem? buffer_at)).length
  rw [Nat.add_assoc, slice_stream carries buffer_at _ le_rfl, slice, Buffer.packet, ← length_eq,
    take_of_length_le (by simp), drop_left]

end

theorem Gathered.carries {q : Queue} (gathered : Gathered qs memory q items) :
    Buffer.Carries qs memory ⟨items, queueImage memory q⟩ where
  length := length_queueImage gathered.size
  word := by
    have length_eq : (Memory.wordBytes 4 memory.size).length = 4 := Memory.length_wordBytes _ _
    simp only [queueImage, queueWords, flatMap_cons, append_assoc]
    rw [take_append_of_le_length (by omega), take_of_length_le (by omega)]
  opens := swizzleQueuePtrs_queueImage gathered

/-! ## Events -/

@[simp] theorem sentResults_append (events more : List (TransEvent Data)) :
    sentResults (events ++ more) = sentResults events ++ sentResults more := by
  simp [sentResults]

@[simp] theorem receivedResults_append (events more : List (TransEvent Data)) :
    receivedResults (events ++ more) = receivedResults events ++ receivedResults more := by
  simp [receivedResults]

@[simp] theorem bytesWritten_append (events more : List (TransEvent Data)) :
    bytesWritten (events ++ more) = bytesWritten events + bytesWritten more := by
  simp [bytesWritten]

@[simp] theorem bytesRead_append (events more : List (TransEvent Data)) :
    bytesRead (events ++ more) = bytesRead events + bytesRead more := by
  simp [bytesRead]

/-! ## The sender -/

theorem Sends.written_le (sends : Sends qs memory qc buffers sent written) :
    written ≤ buffers.length * (memory.size + 1) := by
  cases sends with
  | filling => exact le_refl _
  | sending done gathered within =>
    rw [length_append, length_singleton, Nat.add_mul]
    omega

theorem Sends.filling_of_done (sends : Sends qs memory qc buffers sent written)
    (done : qc.done = true) :
    ∃ items, Filling qs memory qc.queue items ∧ sent = contents buffers ++ items ∧
      written = buffers.length * (memory.size + 1) := by
  cases sends with
  | filling _ filling => exact ⟨_, filling, rfl, rfl⟩
  | sending sending => rw [done] at sending; cases sending

theorem Receives.append {qc : QueueComm} {buffers : List (Buffer Data)} {received : List Data}
    {read : Nat} (receives : Receives qs memory qc buffers received read)
    (carries : ∀ buffer ∈ buffers, buffer.Carries qs memory)
    (within : read ≤ buffers.length * (memory.size + 1)) (later : List (Buffer Data)) :
    Receives qs memory qc (buffers ++ later) received read := by
  have length_eq := length_stream carries
  have taken : ∀ {count}, count * (memory.size + 1) ≤ buffers.length * (memory.size + 1) →
      (buffers ++ later).take count = buffers.take count := by
    intro count le
    exact take_append_of_le_length (Nat.le_of_mul_le_mul_right le (Nat.succ_pos _))
  cases receives with
  | emptying count done stores some_left =>
    exact .emptying count done stores (by rw [taken within, some_left])
  | reading count done short image =>
    have earlier := taken (Nat.le_trans (Nat.le_add_right _ _) within)
    rw [← earlier]
    refine .reading count done short ?_
    rw [image, stream_append, slice_of_append (by omega)]

theorem Transfers.of_sends (transfers : Transfers qs memory buffers events s)
    (carries : ∀ buffer ∈ later, buffer.Carries qs memory)
    (sends : Sends qs memory qc (buffers ++ later) (sentResults (events ++ emitted))
      (bytesWritten events)) (received : receivedResults emitted = [])
    (written : bytesWritten emitted = 0) (read : bytesRead emitted = 0) :
    Transfers qs memory (buffers ++ later) (events ++ emitted) { s with sender := qc } := by
  have written_le := transfers.sends.written_le
  have behind := transfers.behind
  have length_eq := length_stream transfers.carries
  have receives := transfers.receives.append transfers.carries (behind.trans written_le) later
  constructor
  · exact forall_mem_append.mpr ⟨transfers.carries, carries⟩
  · rwa [bytesWritten_append, written]
  · rwa [receivedResults_append, received, append_nil, bytesRead_append, read]
  · rw [bytesWritten_append, written, bytesRead_append, read]
    exact behind
  · rw [bytesWritten_append, written, bytesRead_append, read, stream_append]
    exact transfers.wire.trans (slice_of_append (by omega) _).symm

theorem Transfers.flush {buffers : List (Buffer Data)} {events emitted : List (TransEvent Data)}
    {s : SocketTrans} {q : Queue} {items : List Data}
    (transfers : Transfers qs memory buffers events s) (done : s.sender.done = true)
    (written_eq : bytesWritten events = buffers.length * (memory.size + 1))
    (gathered : Gathered qs memory q items)
    (sent : sentResults (events ++ emitted) = contents buffers ++ items)
    (received : receivedResults emitted = []) (written : bytesWritten emitted = 0)
    (read : bytesRead emitted = 0) :
    Transfers qs memory (buffers ++ [⟨items, queueImage memory q⟩]) (events ++ emitted)
      { s with sender := queueCommFlush { s.sender with queue := q } } := by
  refine transfers.of_sends ?_ ?_ received written read
  · intro buffer mem
    rw [mem_singleton.mp mem]
    exact gathered.carries
  · rw [queueCommFlush, if_pos done, sent, written_eq]
    exact @Sends.sending Data qs memory
      { queue := q, pos := 0, image := [], done := false } buffers items rfl gathered
      (Nat.zero_le _)

theorem sendResult_filling (transfers : Transfers qs memory buffers events s)
    (done : s.sender.done = true) (data : Data) (flush : Bool) (limit : Nat) :
    ∃ emitted next later, sendResult qs memory data flush limit s = (emitted, .ok next) ∧
      Transfers qs memory (buffers ++ later) (events ++ emitted) next := by
  obtain ⟨items, filling, sent, written⟩ := transfers.sends.filling_of_done done
  obtain ⟨accepted, q, enqueued, outcome⟩ := enqueue_filling data filling
  rw [sendResult, if_pos done, enqueued]
  rcases outcome with ⟨rfl, filled⟩ | ⟨rfl, gathered⟩
  · have sent_more : sentResults (events ++ [sentEvent data true]) =
        contents buffers ++ (items ++ [data]) := by
      rw [sentResults_append, sent, append_assoc]
      rfl
    cases flush with
    | false =>
      refine ⟨_, _, [], rfl, transfers.of_sends (by simp) ?_ rfl rfl rfl⟩
      rw [sent_more, append_nil, written]
      exact .filling done filled
    | true =>
      exact ⟨_, _, _, rfl, transfers.flush done written filled.gathered sent_more rfl rfl rfl⟩
  · refine ⟨_, _, _, rfl, transfers.flush done written gathered ?_ rfl rfl rfl⟩
    rw [sentResults_append, sent]
    exact append_nil _

theorem sendQueueNb_spec (carries : ∀ buffer ∈ buffers, buffer.Carries qs memory)
    (sends : Sends qs memory qc buffers sent written) (sending : qc.done = false) (limit : Nat) :
    ∃ bytes next, sendQueueNb memory limit qc = (bytes, next) ∧
      bytes = slice written (written + bytes.length) (stream buffers) ∧
      Sends qs memory next buffers sent (written + bytes.length) := by
  cases sends with
  | filling done => rw [done] at sending; cases sending
  | @sending earlier items done gathered within =>
    have length_eq := gathered.carries.length
    have last_at : (earlier ++ [⟨items, queueImage memory qc.queue⟩])[earlier.length]? =
        some ⟨items, queueImage memory qc.queue⟩ := by simp
    rw [sendQueueNb]
    by_cases unfinished : qc.pos < memory.size
    · rw [if_pos unfinished]
      have short : (((queueImage memory qc.queue).drop qc.pos).take limit).length ≤
          memory.size - qc.pos := by
        simp only [length_take, length_drop] at length_eq ⊢
        omega
      refine ⟨_, _, rfl, ?_, ?_⟩
      · rw [Nat.add_assoc, slice_stream carries last_at _ (by omega), slice, Buffer.packet,
          take_append_of_le_length (by simp only at length_eq ⊢; omega), drop_take]
        simp [take_eq_take_iff]
      · rw [Nat.add_assoc]
        exact @Sends.sending Data qs memory { qc with pos := _ } earlier items done gathered
          (by simp only; omega)
    · rw [if_neg unfinished]
      by_cases blocked : limit = 0
      · rw [if_pos blocked]
        exact ⟨[], qc, rfl, (slice_self _ _).symm, .sending done gathered within⟩
      · rw [if_neg blocked]
        have finished : qc.pos = memory.size := by omega
        have cleared := @Sends.filling Data qs memory
          { qc with done := true, queue := clearQueue qc.queue }
          (earlier ++ [⟨items, queueImage memory qc.queue⟩]) [] rfl
          (clearQueue_filling gathered)
        have places : (earlier.length + 1) * (memory.size + 1) =
            earlier.length * (memory.size + 1) + qc.pos + 1 := by
          rw [finished, Nat.succ_mul, Nat.add_assoc]
        rw [append_nil, contents_append, length_append, length_singleton, places] at cleared
        refine ⟨_, _, rfl, (slice_dummy carries last_at finished).symm, ?_⟩
        simpa [contents] using cleared

theorem sendResult_sending (transfers : Transfers qs memory buffers events s)
    (sending : s.sender.done = false) (data : Data) (flush : Bool) (limit : Nat) :
    ∃ emitted next, sendResult qs memory data flush limit s = (emitted, .ok next) ∧
      Transfers qs memory buffers (events ++ emitted) next := by
  obtain ⟨bytes, next, sent, bytes_eq, sends⟩ :=
    sendQueueNb_spec transfers.carries transfers.sends sending limit
  have behind := transfers.behind
  rw [sendResult, if_neg (by simp [sending]), sent]
  refine ⟨_, _, rfl, ?_⟩
  have written : bytesWritten (events ++ [.wrote bytes.length, .notSent data]) =
      bytesWritten events + bytes.length := by simp [bytesWritten]
  have read : bytesRead (events ++ [.wrote bytes.length, .notSent data]) =
      bytesRead events := by simp [bytesRead]
  constructor
  · exact transfers.carries
  · rw [written]
    simpa [sentResults] using sends
  · rw [read]
    simpa [receivedResults] using transfers.receives
  · rw [written, read]
    omega
  · have joined : slice (bytesRead events) (bytesWritten events) (stream buffers) ++ bytes =
        slice (bytesRead events) (bytesWritten events + bytes.length) (stream buffers) :=
      (congrArg _ bytes_eq).trans (slice_append behind (Nat.le_add_right _ _) _)
    simp only [written, read]
    rw [transfers.wire, joined]

theorem Transfers.flushed (transfers : Transfers qs memory buffers events s) :
    ∃ later, Transfers qs memory (buffers ++ later) events
      { s with sender := queueCommFlush s.sender } := by
  by_cases done : s.sender.done = true
  · obtain ⟨items, filling, sent, written⟩ := transfers.sends.filling_of_done done
    have flushed := @Transfers.flush Data qs memory buffers events [] s _ items transfers done
      written filling.gathered (by rw [append_nil, sent]) rfl rfl rfl
    rw [append_nil] at flushed
    exact ⟨_, flushed⟩
  · refine ⟨[], ?_⟩
    rw [queueCommFlush, if_neg done, append_nil]
    exact transfers

/-! ## The receiver -/

structure Reading (memory : QueueMemory) (buffers : List (Buffer Data)) (count written : Nat)
    (wire : List UInt8) (qc : QueueComm) : Prop where
  done : qc.done = false
  within : qc.pos ≤ memory.size
  image : qc.image = slice (count * (memory.size + 1)) (count * (memory.size + 1) + qc.pos)
    (stream buffers)
  behind : count * (memory.size + 1) + qc.pos ≤ written
  wire : wire = slice (count * (memory.size + 1) + qc.pos) written (stream buffers)

variable (qs) in
def Reads (memory : QueueMemory) (buffers : List (Buffer Data)) (count written pos : Nat)
    (result : Except TransFault (List UInt8 × QueueComm)) : Prop :=
  ∃ rest next read, result = .ok (rest, next) ∧ read ≤ written ∧
    count * (memory.size + 1) + pos ≤ read ∧ rest = slice read written (stream buffers) ∧
    Receives qs memory next buffers (contents (buffers.take count)) read

theorem Reading.reads (reading : Reading memory buffers count written wire qc) {pos : Nat}
    (later : pos ≤ qc.pos) : Reads qs memory buffers count written pos (.ok (wire, qc)) :=
  ⟨wire, qc, _, rfl, reading.behind, by omega, reading.wire,
    .reading count reading.done reading.within reading.image⟩

theorem readUpTo_reading (reading : Reading memory buffers count written wire qc)
    (written_le : written ≤ (stream buffers).length) {upTo : Nat} (upTo_le : upTo ≤ memory.size)
    (limit : Nat) : ∃ rest next, readUpTo upTo limit wire qc = (rest, next) ∧ qc.pos ≤ next.pos ∧
      Reading memory buffers count written rest next := by
  obtain ⟨done, within, image, behind, wire_eq⟩ := reading
  have length_eq : wire.length = written - (count * (memory.size + 1) + qc.pos) := by
    rw [wire_eq, length_slice written_le]
  have bytes_eq : wire.take (min limit (upTo - qc.pos)) = slice (count * (memory.size + 1) + qc.pos)
        (count * (memory.size + 1) + qc.pos +
          (wire.take (min limit (upTo - qc.pos))).length) (stream buffers) := by
    rw [length_take, length_eq]
    conv_lhs => rw [wire_eq, take_slice]
    congr 1
    omega
  have length_le : (wire.take (min limit (upTo - qc.pos))).length ≤ upTo - qc.pos := by
    rw [length_take]
    omega
  have length_le' : (wire.take (min limit (upTo - qc.pos))).length ≤ wire.length := by
    rw [length_take]
    omega
  refine ⟨_, _, rfl, Nat.le_add_right _ _, ⟨done, ?_, ?_, ?_, ?_⟩⟩
  · simp only
    omega
  · simp only
    rw [image]
    conv_lhs => rw [bytes_eq]
    rw [slice_append (by omega) (by omega), Nat.add_assoc]
  · simp only
    omega
  · simp only
    conv_lhs => rw [wire_eq]
    rw [drop_slice, ← wire_eq, Nat.add_assoc]

theorem Reading.buffer (reading : Reading memory buffers count written wire qc)
    (carries : ∀ buffer ∈ buffers, buffer.Carries qs memory)
    (written_le : written ≤ (stream buffers).length) (begun : 0 < qc.pos) :
    ∃ buffer, buffers[count]? = some buffer ∧ buffer.Carries qs memory ∧
      qc.image = buffer.image.take qc.pos := by
  have behind := reading.behind
  have within := reading.within
  have count_lt : count < buffers.length := by
    refine Nat.lt_of_mul_lt_mul_right (a := memory.size + 1) ?_
    rw [length_stream carries] at written_le
    omega
  have carried := carries _ (getElem_mem count_lt)
  have found : buffers[count]? = some buffers[count] := getElem?_eq_getElem count_lt
  refine ⟨_, found, carried, ?_⟩
  have image := slice_stream carries found 0 (Nat.le_succ_of_le within)
  rw [Nat.add_zero] at image
  rw [reading.image, image, slice, drop_zero, Buffer.packet,
    take_append_of_le_length (by rw [carried.length]; exact within)]

theorem imageWord_zero {bytes : List UInt8} (word : bytes.take 4 = Memory.wordBytes 4 memory.size) :
    imageWord bytes 0 = memory.size := by
  have addressed := memory.addressed
  have holds := Memory.holds_ofBytes bytes
  have split : Memory.wordBytes 4 memory.size ++ bytes.drop 4 = bytes := by
    rw [← word, take_append_drop]
  rw [← split, Memory.holds_append] at holds
  rw [split] at holds
  have read := Memory.readWord_of_holds holds.1
  rw [Nat.mod_eq_of_lt (by omega)] at read
  exact read

theorem readDummy_spec (carries : ∀ buffer ∈ buffers, buffer.Carries qs memory)
    (reading : Reading memory buffers count written wire qc)
    (written_le : written ≤ (stream buffers).length) (arrived : qc.pos = memory.size)
    (limit : Nat) : Reads qs memory buffers count written qc.pos (readDummy limit qc wire) := by
  have room := memory.room
  obtain ⟨buffer, found, carried, image⟩ := reading.buffer carries written_le (by omega)
  cases wire with
  | nil => exact reading.reads le_rfl
  | cons byte wire =>
    rw [readDummy]
    by_cases blocked : limit = 0
    · rw [if_pos blocked]
      exact reading.reads le_rfl
    · have more : count * (memory.size + 1) + qc.pos + 1 ≤ written := by
        have length_eq := congrArg List.length reading.wire
        rw [length_slice written_le, length_cons] at length_eq
        omega
      have split := slice_append (Nat.le_succ _) more (stream buffers)
      rw [slice_dummy carries found arrived, ← reading.wire] at split
      obtain ⟨rfl, rfl⟩ := List.cons.inj split
      obtain ⟨q, swizzled, stores⟩ := carried.opens
      have whole : qc.image = buffer.image := by
        rw [image, arrived, take_of_length_le (by rw [carried.length])]
      rw [if_neg blocked, if_neg (by simp), whole, swizzled]
      refine ⟨_, _, _, rfl, more, Nat.le_succ _, rfl, ?_⟩
      rw [arrived, Nat.add_assoc, ← Nat.succ_mul]
      exact .emptying (count + 1) rfl stores (contents_take_succ found).symm

theorem receiveQueueNb_spec (carries : ∀ buffer ∈ buffers, buffer.Carries qs memory)
    (reading : Reading memory buffers count written wire qc)
    (written_le : written ≤ (stream buffers).length) (limits : ReadLimits) :
    Reads qs memory buffers count written qc.pos (receiveQueueNb limits wire qc) := by
  have room := memory.room
  obtain ⟨wire₁, qc₁, sizeRead, later₁, reading₁⟩ := readUpTo_reading reading written_le
    (show 4 ≤ memory.size by simp only [sizeofQueue] at room; omega) limits.size
  rw [receiveQueueNb, sizeRead]
  by_cases short : qc₁.pos < 4
  · simp only [if_pos short]
    exact reading₁.reads later₁
  · obtain ⟨buffer, -, carried, image⟩ := reading₁.buffer carries written_le (by omega)
    have size_eq : imageWord qc₁.image 0 = memory.size := by
      refine imageWord_zero ?_
      rw [image, take_take, Nat.min_eq_left (by omega), carried.word]
    obtain ⟨wire₂, qc₂, bodyRead, later₂, reading₂⟩ :=
      readUpTo_reading reading₁ written_le (le_refl memory.size) limits.body
    simp only [if_neg short, size_eq, bodyRead]
    by_cases unfinished : qc₂.pos < memory.size
    · simp only [if_pos unfinished]
      exact reading₂.reads (later₁.trans later₂)
    · simp only [if_neg unfinished]
      have within := reading₂.within
      obtain ⟨rest, next, read, result, read_le, le_read, rest_eq, receives⟩ :=
        readDummy_spec carries reading₂ written_le (by omega) limits.dummy
      exact ⟨rest, next, read, result, read_le, by omega, rest_eq, receives⟩

theorem Receives.emptying_of_done (receives : Receives qs memory qc buffers received read)
    (done : qc.done = true) : ∃ count items, Stores qs qc.queue items ∧
      received ++ items = contents (buffers.take count) ∧ read = count * (memory.size + 1) := by
  cases receives with
  | emptying count _ stores some_left => exact ⟨count, _, stores, some_left, rfl⟩
  | reading count reading => rw [done] at reading; cases reading

theorem Receives.reading_of_not_done (receives : Receives qs memory qc buffers received read)
    (reading : qc.done = false) (behind : read ≤ written) :
    ∃ count, received = contents (buffers.take count) ∧ read = count * (memory.size + 1) + qc.pos ∧
      Reading memory buffers count written (slice read written (stream buffers)) qc := by
  cases receives with
  | emptying _ done => rw [done] at reading; cases reading
  | reading count done within image =>
    exact ⟨count, rfl, rfl, done, within, image, behind, rfl⟩

section

variable (transfers : Transfers qs memory buffers events s)
include transfers

theorem Transfers.of_receives (sent : sentResults emitted = []) (written : bytesWritten emitted = 0)
    (read_eq : bytesRead events + bytesRead emitted = read)
    (received_eq : receivedResults events ++ receivedResults emitted = received)
    (receives : Receives qs memory qc buffers received read) (behind : read ≤ bytesWritten events)
    (wire_eq : wire = slice read (bytesWritten events) (stream buffers)) :
    Transfers qs memory buffers (events ++ emitted) { s with receiver := qc, wire := wire } where
  carries := transfers.carries
  sends := by
    rw [sentResults_append, sent, append_nil, bytesWritten_append, written]
    exact transfers.sends
  receives := by rwa [receivedResults_append, bytesRead_append, read_eq, received_eq]
  behind := by rwa [bytesWritten_append, written, bytesRead_append, read_eq]
  wire := by rwa [bytesWritten_append, written, bytesRead_append, read_eq]

theorem recvResult_emptying (done : s.receiver.done = true) (limits : ReadLimits) :
    ∃ emitted next, recvResult qs limits s = (emitted, .ok next) ∧
      Transfers qs memory buffers (events ++ emitted) next := by
  obtain ⟨count, items, stores, some_left, read_eq⟩ := transfers.receives.emptying_of_done done
  obtain ⟨found, q, rest, dequeued, after, step⟩ := dequeueElt_spec stores
  rw [recvResult, if_pos done, dequeued]
  cases found with
  | some data =>
    have taken : items = data :: rest := by cases step; rfl
    refine ⟨_, _, rfl, transfers.of_receives rfl rfl rfl rfl ?_ transfers.behind transfers.wire⟩
    change Receives qs memory _ buffers (receivedResults events ++ [data]) (bytesRead events)
    rw [read_eq]
    refine .emptying count done after ?_
    rw [← some_left, taken, append_assoc]
    rfl
  | none =>
    have empty : items = [] := by cases step; rfl
    rw [empty] at some_left
    refine ⟨_, _, rfl,
      transfers.of_receives rfl rfl rfl some_left ?_ transfers.behind transfers.wire⟩
    change Receives qs memory _ buffers _ (bytesRead events)
    rw [read_eq, queueCommFlush, if_pos done]
    exact @Receives.reading Data qs memory
      { queue := q, pos := 0, image := [], done := false } buffers count rfl
      (Nat.zero_le _) (slice_self _ _).symm

theorem recvResult_reading (reading : s.receiver.done = false) (limits : ReadLimits) :
    ∃ emitted next, recvResult qs limits s = (emitted, .ok next) ∧
      Transfers qs memory buffers (events ++ emitted) next := by
  have written_le : bytesWritten events ≤ (stream buffers).length := by
    rw [length_stream transfers.carries]
    exact transfers.sends.written_le
  obtain ⟨count, received_eq, read_eq, reading⟩ :=
    transfers.receives.reading_of_not_done reading transfers.behind
  rw [← transfers.wire] at reading
  obtain ⟨rest, next, read, result, read_le, le_read, rest_eq, receives⟩ :=
    receiveQueueNb_spec transfers.carries reading written_le limits
  have lengths : s.wire.length - rest.length = read - bytesRead events := by
    rw [transfers.wire, rest_eq, length_slice written_le, length_slice written_le]
    omega
  rw [recvResult, if_neg (by simp [reading.done]), result]
  refine ⟨_, _, rfl, transfers.of_receives rfl rfl ?_ ?_ receives read_le rest_eq⟩
  · rw [lengths, bytesRead]
    simp only [bytesRead] at read_eq ⊢
    simp
    omega
  · rw [← received_eq]
    exact append_nil _

theorem recvResult_transfers (limits : ReadLimits) :
    ∃ emitted next, recvResult qs limits s = (emitted, .ok next) ∧
      Transfers qs memory buffers (events ++ emitted) next := by
  cases done : s.receiver.done with
  | true => exact recvResult_emptying transfers done limits
  | false => exact recvResult_reading transfers done limits

end

/-! ## Whole runs -/

theorem transStep_transfers (transfers : Transfers qs memory buffers events s) (op : TransOp Data) :
    ∃ emitted next later, transStep qs memory s op = (emitted, .ok next) ∧
      Transfers qs memory (buffers ++ later) (events ++ emitted) next := by
  cases op with
  | sendResult data flush limit =>
    cases done : s.sender.done with
    | true => exact sendResult_filling transfers done data flush limit
    | false =>
      obtain ⟨emitted, next, stepped, after⟩ := sendResult_sending transfers done data flush limit
      exact ⟨emitted, next, [], stepped, by rwa [append_nil]⟩
  | flush =>
    obtain ⟨later, after⟩ := transfers.flushed
    exact ⟨[], _, later, rfl, by rwa [append_nil]⟩
  | recvResult limits =>
    obtain ⟨emitted, next, stepped, after⟩ := recvResult_transfers transfers limits
    exact ⟨emitted, next, [], stepped, by rwa [append_nil]⟩

theorem run_transfers (transfers : Transfers qs memory buffers events s)
    (ops : List (TransOp Data)) :
    ∃ more next, (transMachine qs memory).run s ops = (more, .ok next) ∧
      ∃ later, Transfers qs memory (buffers ++ later) (events ++ more) next := by
  refine @Machine.run_always _ _ _ _ (transMachine qs memory)
    (fun _ more next => ∃ later, Transfers qs memory (buffers ++ later) (events ++ more) next)
    ?_ s ⟨[], by simpa using transfers⟩ ops
  rintro - op more current ⟨later, current_transfers⟩
  obtain ⟨emitted, next, last, stepped, after⟩ := transStep_transfers current_transfers op
  refine ⟨emitted, next, stepped, later ++ last, ?_⟩
  rwa [← append_assoc, ← append_assoc]

theorem newSocketTrans_transfers (other : QueueMemory) :
    Transfers qs memory [] [] (newSocketTrans memory other) where
  carries := by simp
  sends := by
    have filling := @Sends.filling Data qs memory (newQueueComm (emptyQueue memory)) [] [] rfl
      emptyQueue_filling
    rwa [length_nil, Nat.zero_mul] at filling
  receives := by
    have emptying := @Receives.emptying Data qs memory (newQueueComm (emptyQueue other)) [] [] []
      0 rfl (@emptyQueue_filling Data qs other).stores rfl
    rwa [Nat.zero_mul] at emptying
  behind := le_refl _
  wire := rfl

theorem Sends.contents_prefix (sends : Sends qs memory qc buffers sent written) :
    contents buffers <+: sent := by
  cases sends with
  | filling => exact prefix_append _ _
  | sending =>
    rw [contents_append]
    simp [contents]

theorem Transfers.received_prefix (transfers : Transfers qs memory buffers events s) :
    receivedResults events <+: sentResults events := by
  have taken : ∀ count, contents (buffers.take count) <+: sentResults events := by
    intro count
    refine List.IsPrefix.trans ?_ transfers.sends.contents_prefix
    exact ⟨contents (buffers.drop count), by rw [← contents_append, take_append_drop]⟩
  cases done : s.receiver.done with
  | true =>
    obtain ⟨count, items, -, some_left, -⟩ := transfers.receives.emptying_of_done done
    exact (some_left ▸ prefix_append _ _ : _ <+: contents (buffers.take count)).trans
      (taken count)
  | false =>
    obtain ⟨count, received, -, -⟩ := transfers.receives.reading_of_not_done done transfers.behind
    rw [received]
    exact taken count

/-! ## What has passed is handed on -/

theorem Transfers.covers (transfers : Transfers qs memory (early ++ later) events s)
    (passed : early.length * (memory.size + 1) ≤ bytesRead events) :
    contents early <+: receivedResults events ∨
      ∃ items, s.receiver.done = true ∧ Stores qs s.receiver.queue items ∧
        contents early <+: receivedResults events ++ items := by
  have taken : ∀ {count}, early.length ≤ count →
      contents early <+: contents ((early ++ later).take count) := by
    intro count le
    rw [take_append, take_of_length_le le, contents_append]
    exact prefix_append _ _
  cases done : s.receiver.done with
  | true =>
    obtain ⟨count, items, stores, some_left, read_eq⟩ := transfers.receives.emptying_of_done done
    have le : early.length ≤ count :=
      Nat.le_of_mul_le_mul_right (read_eq ▸ passed) (Nat.succ_pos memory.size)
    exact .inr ⟨items, rfl, stores, some_left ▸ taken le⟩
  | false =>
    obtain ⟨count, received, read_eq, reading⟩ :=
      transfers.receives.reading_of_not_done done transfers.behind
    have within := reading.within
    have lt : early.length * (memory.size + 1) < (count + 1) * (memory.size + 1) := by
      rw [Nat.add_mul]
      omega
    have le : early.length ≤ count := Nat.le_of_lt_succ (Nat.lt_of_mul_lt_mul_right lt)
    exact .inl (received ▸ taken le)

theorem recvResult_stored (done : s.receiver.done = true)
    (stores : Stores qs s.receiver.queue items) (some_stored : items ≠ []) (limits : ReadLimits) :
    ∃ data next, recvResult qs limits s = ([.received data], .ok next) := by
  obtain ⟨found, q, rest, dequeued, -, step⟩ := dequeueElt_spec stores
  rw [recvResult, if_pos done, dequeued]
  cases found with
  | some data => exact ⟨data, _, rfl⟩
  | none => cases step; exact absurd rfl some_stored

section

variable (transfers : Transfers qs memory (early ++ later) events s)
  (passed : early.length * (memory.size + 1) ≤ bytesRead events)
include transfers passed

theorem recvResult_grows (limits : ReadLimits) :
    ∃ emitted next, recvResult qs limits s = (emitted, .ok next) ∧
      Transfers qs memory (early ++ later) (events ++ emitted) next ∧
      min (contents early).length ((receivedResults events).length + 1) ≤
        (receivedResults (events ++ emitted)).length := by
  obtain ⟨emitted, next, received, after⟩ := recvResult_transfers transfers limits
  refine ⟨emitted, next, received, after, ?_⟩
  rw [receivedResults_append, length_append]
  rcases transfers.covers passed with all | ⟨items, done, stores, covered⟩
  · have := all.length_le
    omega
  · by_cases none_stored : items = []
    · rw [none_stored, append_nil] at covered
      have := covered.length_le
      omega
    · obtain ⟨data, next', taken⟩ := recvResult_stored done stores none_stored limits
      rw [received] at taken
      obtain ⟨rfl, -⟩ := Prod.mk.inj taken
      have one : (receivedResults [TransEvent.received data]).length = 1 := rfl
      omega

theorem run_receives (calls : List ReadLimits)
    (enough : (contents early).length ≤ (receivedResults events).length + calls.length) :
    ∃ final next, (transMachine qs memory).run s (calls.map .recvResult) = (final, .ok next) ∧
      contents early <+: receivedResults (events ++ final) := by
  induction calls generalizing events s with
  | nil =>
    refine ⟨[], s, rfl, ?_⟩
    rw [append_nil]
    rcases transfers.covers passed with all | ⟨items, -, -, covered⟩
    · exact all
    · exact prefix_of_prefix_length_le covered (prefix_append _ _) enough
  | cons limits calls ih =>
    obtain ⟨emitted, next, received, after, grown⟩ := recvResult_grows transfers passed limits
    have longer : (receivedResults events).length ≤
        (receivedResults (events ++ emitted)).length := by
      rw [receivedResults_append, length_append]
      omega
    rw [length_cons] at enough
    obtain ⟨final, last, ran, covered⟩ := ih after
      (by rw [bytesRead_append]; omega) (by omega)
    have stepped : (transMachine qs memory).step s (.recvResult limits) =
        (emitted, .ok next) := received
    refine ⟨emitted ++ final, last, ?_, by rwa [← append_assoc]⟩
    rw [map_cons, (transMachine qs memory).run_cons_ok stepped, ran]

end

theorem Sends.sending_of_not_done (sends : Sends qs memory qc buffers sent written)
    (sending : qc.done = false) : contents buffers = sent ∧
      buffers.length * (memory.size + 1) = written + (memory.size + 1 - qc.pos) := by
  cases sends with
  | filling done => rw [done] at sending; cases sending
  | sending _ gathered within =>
    constructor
    · rw [contents_append]
      simp [contents]
    · rw [length_append, length_singleton, Nat.add_mul]
      omega

theorem Transfers.delivers (transfers : Transfers qs memory buffers events s)
    (sending : s.sender.done = false) (ops : List (TransOp Data)) :
    ∃ more t, (transMachine qs memory).run s ops = (more, .ok t) ∧
      (bytesWritten events + (memory.size + 1 - s.sender.pos) ≤ bytesRead (events ++ more) →
        ∀ calls : List ReadLimits, (sentResults events).length ≤ calls.length → ∃ final u,
            (transMachine qs memory).run t (calls.map .recvResult) = (final, .ok u) ∧
            sentResults events <+: receivedResults (events ++ more ++ final)) := by
  obtain ⟨more, t, ran, later, after⟩ := run_transfers transfers ops
  obtain ⟨sent, remaining⟩ := transfers.sends.sending_of_not_done sending
  refine ⟨more, t, ran, fun passed calls enough => ?_⟩
  rw [← sent] at enough ⊢
  exact run_receives after (by omega) calls (by omega)

theorem flush_sends (s : SocketTrans)
    (stepped : transStep qs memory s .flush = (emitted, .ok next)) : next.sender.done = false := by
  cases stepped
  simp only [queueCommFlush]
  split
  · rfl
  · simp_all

theorem sendResult_flush_sends {data : Data} {limit : Nat}
    (accepted : TransEvent.sent data ∈ emitted)
    (stepped : transStep qs memory s (.sendResult data true limit) = (emitted, .ok next)) :
    next.sender.done = false := by
  rw [transStep, sendResult] at stepped
  by_cases done : s.sender.done = true
  · rw [if_pos done] at stepped
    split at stepped
    · cases stepped
    · cases stepped
      simp [queueCommFlush, done]
  · rw [if_neg done] at stepped
    cases stepped
    simp at accepted

/-- The results that the receiver gets are at every moment a prefix of the results that were
accepted.  When a queue has been given to the socket, as a flush does, all results accepted so far
are received once its remaining bytes have passed, whatever happens in between. -/
theorem results_delivered (memory other : QueueMemory) (ops : List (TransOp Result)) :
    ∃ events s,
      (transMachine resultSerializer memory).run (newSocketTrans memory other) ops =
        (events, .ok s) ∧
      receivedResults events <+: sentResults events ∧
      (∀ data limit emitted next, .sent data ∈ emitted →
        transStep resultSerializer memory s (.sendResult data true limit) = (emitted, .ok next) →
        next.sender.done = false) ∧
      (∀ emitted next, transStep resultSerializer memory s .flush = (emitted, .ok next) →
        next.sender.done = false) ∧
      (s.sender.done = false → ∀ passing : List (TransOp Result), ∃ more t,
        (transMachine resultSerializer memory).run s passing = (more, .ok t) ∧
        (bytesWritten events + (memory.size + 1 - s.sender.pos) ≤ bytesRead (events ++ more) →
          ∀ calls : List ReadLimits, (sentResults events).length ≤ calls.length →
            ∃ final u,
              (transMachine resultSerializer memory).run t (calls.map .recvResult) =
                (final, .ok u) ∧
              sentResults events <+: receivedResults (events ++ more ++ final))) := by
  obtain ⟨events, s, ran, buffers, transfers⟩ :=
    run_transfers (@newSocketTrans_transfers Result resultSerializer memory other) ops
  rw [nil_append, nil_append] at transfers
  exact ⟨events, s, ran, transfers.received_prefix,
    fun _ _ _ _ accepted stepped => sendResult_flush_sends accepted stepped,
    fun _ _ stepped => flush_sends s stepped, fun sending => transfers.delivers sending⟩

def smallMemory : QueueMemory where
  size := 100
  address := 4096
  lock := 8192
  statistics _ _ := 0
  room := by decide
  allocated := by decide
  addressed := by decide

example :
    receivedResults ((transMachine resultSerializer smallMemory).run
      (newSocketTrans smallMemory smallMemory)
      [.sendResult .fconssync true 0, .sendResult .pauseack false 60,
        .sendResult .pauseack false 60, .sendResult .pauseack false 1, .recvResult ⟨4, 96, 1⟩,
        .recvResult ⟨3, 96, 1⟩, .recvResult ⟨1, 40, 1⟩, .recvResult ⟨0, 96, 1⟩,
        .recvResult ⟨4, 96, 1⟩]).1 = [.fconssync] := by
  decide +kernel

end TelegraphCQ.Flux
