import InlaySql.Server.Handshake

/-!
# Packet framing

A message travels as packets, each a three-byte length, a sequence id and a payload. A
payload of `maxPayload` bytes is continued by the packet after it, so a message whose
length is a multiple of that ends with an empty packet. A reader fills its buffer or meets
the end of the stream: the stream is the bytes still to come.
-/

namespace InlaySql.Server

open List Lib

/-- The largest payload one packet can carry. -/
def maxPayload : Nat := 0xff_ff_ff

/-- The largest message put together from packets. -/
def maxMessage : Nat := 64 * 1024 * 1024

/-- How much of a payload is read at a time. -/
def readChunk : Nat := 64 * 1024

inductive IoErrorKind where
  | unexpectedEof
  | invalidData
  deriving DecidableEq, Repr

structure IoError where
  kind : IoErrorKind
  text : String
  deriving DecidableEq, Repr

def endedInHeader : IoError :=
  ⟨.unexpectedEof, "connection ended part-way through a packet header"⟩

def endedInPayload : IoError :=
  ⟨.unexpectedEof, "connection ended part-way through a packet payload"⟩

def tooLong : IoError := ⟨.invalidData, s!"message longer than the {maxMessage} byte limit"⟩

/-- One connection's framed byte stream: the bytes to come, those written, the id of the
next packet and the traffic counters. -/
structure Stream where
  incoming : Bytes
  written : Bytes
  sequence : UInt8
  received : Nat
  sent : Nat

/-- `read_payload`: the next `length` bytes onto the end of `payload`, a chunk at a time. -/
def readPayload (incoming payload : Bytes) (length : Nat) : Except IoError Unit × Bytes × Bytes :=
  if length = 0 then (.ok (), payload, incoming)
  else
    let wanted := min length readChunk
    let read := incoming.take wanted
    if read.length < wanted then (.error endedInPayload, payload ++ read, incoming.drop wanted)
    else readPayload (incoming.drop wanted) (payload ++ read) (length - wanted)
termination_by length
decreasing_by
  simp only [readChunk]
  omega

theorem readPayload_eq (incoming payload : Bytes) (length : Nat) :
    readPayload incoming payload length =
      if length ≤ incoming.length then
        (.ok (), payload ++ incoming.take length, incoming.drop length)
      else (.error endedInPayload, payload ++ incoming, []) := by
  fun_induction readPayload incoming payload length with
  | case1 incoming payload => simp
  | case2 incoming payload length some wanted read short =>
    have few : incoming.length < wanted := by
      simp only [read, length_take] at short
      omega
    have most : wanted ≤ length := min_le_left _ _
    have all : read = incoming := take_of_length_le few.le
    rw [if_neg (by omega), all, drop_eq_nil_of_le few.le]
  | case3 incoming payload length some wanted read long ih =>
    have enough : wanted ≤ incoming.length := by
      simp only [read, length_take] at long
      omega
    have most : wanted ≤ length := min_le_left _ _
    have split : length = wanted + (length - wanted) := by omega
    rw [ih, length_drop]
    by_cases whole : length ≤ incoming.length
    · rw [if_pos (by omega), if_pos whole, append_assoc, <- take_add, drop_drop, <- split]
    · rw [if_neg (by omega), if_neg whole, append_assoc, take_append_drop]

namespace Stream

/-- The loop of `read_message`; `payload` is what earlier packets of the message brought. -/
def readPackets (self : Stream) (payload : Bytes) : Except IoError (Option Bytes) × Stream :=
  match _ : self.incoming with
  | [] => (.ok none, self)
  | low :: middle :: high :: id :: incoming =>
    let length := ofLe [low, middle, high]
    let sequence := id + 1
    if maxMessage < payload.length + length then
      (.error tooLong, { self with incoming, sequence })
    else
      match _ : readPayload incoming payload length with
      | (.error error, _, incoming) => (.error error, { self with incoming, sequence })
      | (.ok (), payload, incoming) =>
        let self := { self with incoming, sequence, received := self.received + (4 + length) }
        if length < maxPayload then (.ok (some payload), self) else self.readPackets payload
  | _ => (.error endedInHeader, { self with incoming := [] })
termination_by self.incoming.length
decreasing_by
  rename_i header _ read _
  rw [readPayload_eq] at read
  split at read
  · cases read
    simp only [header, length_cons, length_drop]
    omega
  · cases read

/-- `read_message`: the next message, or `none` when the peer hung up. -/
def readMessage (self : Stream) : Except IoError (Option Bytes) × Stream := self.readPackets []

/-- `write_message`: a message as packets. -/
def writeMessage (self : Stream) (message : Bytes) : Stream :=
  let count := min message.length maxPayload
  let self := { self with
    written := self.written ++ (leBytes 3 count ++ self.sequence :: message.take count)
    sequence := self.sequence + 1
    sent := self.sent + (4 + count) }
  if count < maxPayload then self
  else if (message.drop count).isEmpty then
    { self with
      written := self.written ++ [0, 0, 0, self.sequence]
      sequence := self.sequence + 1
      sent := self.sent + 4 }
  else self.writeMessage (message.drop count)
termination_by message.length
decreasing_by
  simp only [maxPayload] at *
  simp only [length_drop]
  omega

end Stream

/-! ## What a message is on the wire -/

/-- One packet. -/
def packet (id : UInt8) (payload : Bytes) : Bytes := leBytes 3 payload.length ++ id :: payload

/-- A message as packets, numbered from an id. -/
def framed (id : UInt8) (message : Bytes) : Bytes :=
  if message.length < maxPayload then packet id message
  else packet id (message.take maxPayload) ++ framed (id + 1) (message.drop maxPayload)
termination_by message.length
decreasing_by
  simp only [maxPayload] at *
  simp only [length_drop]
  omega

/-- How many packets a message takes. -/
def packetCount (message : Bytes) : Nat := message.length / maxPayload + 1

/-- Packets as they follow one another in a stream, each with its id. -/
def packets (run : List (UInt8 × Bytes)) : Bytes := run.flatMap fun one => packet one.1 one.2

variable {id : UInt8} {message payload data rest : Bytes} {self : Stream}

theorem framed_short (short : message.length < maxPayload) :
    framed id message = packet id message := by
  rw [framed, if_pos short]

theorem framed_long (long : ¬message.length < maxPayload) : framed id message =
    packet id (message.take maxPayload) ++ framed (id + 1) (message.drop maxPayload) := by
  rw [framed, if_neg long]

theorem packetCount_short (short : message.length < maxPayload) : packetCount message = 1 := by
  rw [packetCount, Nat.div_eq_of_lt short]

theorem packetCount_long (long : ¬message.length < maxPayload) :
    packetCount message = packetCount (message.drop maxPayload) + 1 := by
  rw [packetCount, packetCount, length_drop, Nat.div_eq_sub_div (by decide) (by omega)]

theorem length_packet : (packet id payload).length = 4 + payload.length := by
  simp [packet]
  omega

theorem packet_header {low middle high : UInt8} (size : data.length = ofLe [low, middle, high]) :
    packet id data = low :: middle :: high :: id :: data := by
  have spelled : leBytes 3 data.length = [low, middle, high] := by
    rw [size]
    exact leBytes_ofLe [low, middle, high]
  rw [packet, spelled]
  rfl

theorem packets_cons {one : UInt8 × Bytes} {run : List (UInt8 × Bytes)} :
    packets (one :: run) = packet one.1 one.2 ++ packets run := rfl

theorem length_packets {run : List (UInt8 × Bytes)} :
    (packets run).length = (run.flatMap (·.2)).length + 4 * run.length := by
  induction run with
  | nil => rfl
  | cons one run ih =>
    rw [packets_cons, length_append, length_packet, ih, flatMap_cons, length_append, length_cons]
    omega

/-- A message takes as many packets as its payloads are. -/
theorem packetCount_packets {full : List (UInt8 × Bytes)} {last : UInt8 × Bytes}
    (each : ∀ one ∈ full, one.2.length = maxPayload) (less : last.2.length < maxPayload) :
    packetCount ((full ++ [last]).flatMap (·.2)) = full.length + 1 := by
  induction full with
  | nil => simpa using packetCount_short less
  | cons one full ih =>
    obtain ⟨size, rest⟩ := forall_mem_cons.mp each
    rw [cons_append, flatMap_cons, packetCount, length_append, size,
      Nat.add_div_left _ (by decide), <- packetCount, ih rest, length_cons]

namespace Stream

/-- A message is written as its packets. -/
theorem writeMessage_eq (self : Stream) (message : Bytes) : self.writeMessage message = { self with
      written := self.written ++ framed self.sequence message
      sequence := self.sequence + UInt8.ofNat (packetCount message)
      sent := self.sent + (framed self.sequence message).length } := by
  fun_induction writeMessage self message with
  | case1 self message count next short =>
    have whole : count = message.length := by omega
    rw [framed_short (by omega), packetCount_short (by omega), length_packet]
    simp [next, whole, packet]
  | case2 self message count next long ended =>
    have full : count = maxPayload := by omega
    have none : message.drop maxPayload = [] := by simpa [full] using ended
    have long : ¬message.length < maxPayload := by omega
    have last : packet (self.sequence + 1) [] = [0, 0, 0, self.sequence + 1] := rfl
    have two : UInt8.ofNat 2 = 1 + 1 := rfl
    rw [framed_long long, packetCount_long long, none, framed_short (by decide),
      packetCount_short (by decide), last]
    simp [next, full, packet, min_eq_left (not_lt.mp long), two, UInt8.add_assoc]
    omega
  | case3 self message count next long more ih =>
    have full : count = maxPayload := by omega
    have long : ¬message.length < maxPayload := by omega
    rw [ih, framed_long long, packetCount_long long, full]
    simp [next, full, packet, min_eq_left (not_lt.mp long), UInt8.ofNat_add, UInt8.add_assoc,
      UInt8.add_comm 1]
    omega

/-! ## Reading what was written -/

/-- One turn of the loop, from a whole header. -/
theorem readPackets_header {low middle high : UInt8} {incoming : Bytes}
    (header : self.incoming = low :: middle :: high :: id :: incoming) {length : Nat}
    (spelled : ofLe [low, middle, high] = length) :
    self.readPackets payload =
      if maxMessage < payload.length + length then
        (.error tooLong, { self with incoming, sequence := id + 1 })
      else if incoming.length < length then
        (.error endedInPayload, { self with incoming := [], sequence := id + 1 })
      else if length < maxPayload then
        (.ok (some (payload ++ incoming.take length)), { self with
          incoming := incoming.drop length, sequence := id + 1,
          received := self.received + (4 + length) })
      else readPackets { self with
        incoming := incoming.drop length, sequence := id + 1,
        received := self.received + (4 + length) } (payload ++ incoming.take length) := by
  subst spelled
  rw [readPackets]
  split
  · simp_all
  · rename_i first second third fourth later again
    rw [header] at again
    cases again
    by_cases large : maxMessage < payload.length + ofLe [low, middle, high]
    · rw [if_pos large, if_pos large]
    · rw [if_neg large, if_neg large]
      split
      · rename_i read
        rw [readPayload_eq] at read
        split at read
        · cases read
        · cases read
          rw [if_pos (by omega)]
      · rename_i read
        rw [readPayload_eq] at read
        split at read
        · cases read
          exact (if_neg (by omega)).symm
        · cases read
  · rename_i other
    exact (other _ _ _ _ _ header).elim

/-- Reading on from a whole packet. -/
theorem readPackets_packet (self : Stream) (id : UInt8) (rest : Bytes)
    (fits : data.length ≤ maxPayload) (room : payload.length + data.length ≤ maxMessage) :
    { self with incoming := packet id data ++ rest }.readPackets payload =
      if data.length < maxPayload then
        (.ok (some (payload ++ data)), { self with
          incoming := rest, sequence := id + 1, received := self.received + (4 + data.length) })
      else readPackets { self with
        incoming := rest, sequence := id + 1, received := self.received + (4 + data.length) }
          (payload ++ data) := by
  have spelled : ofLe (leBytes 3 data.length) = data.length :=
    ofLe_leBytes (Nat.lt_of_le_of_lt fits (by decide))
  have header : packet id data ++ rest =
      UInt8.ofNat data.length :: UInt8.ofNat (data.length / 256) ::
        UInt8.ofNat (data.length / 256 / 256) :: id :: (data ++ rest) := by simp [packet, leBytes]
  rw [readPackets_header header spelled, if_neg (by omega), if_neg (by simp), take_left, drop_left]

/-- A message comes back from its packets, whatever follows them. -/
theorem readPackets_framed (self : Stream) (id : UInt8) (payload message rest : Bytes)
    (room : payload.length + message.length ≤ maxMessage) :
    { self with incoming := framed id message ++ rest }.readPackets payload =
      (.ok (some (payload ++ message)), { self with
        incoming := rest
        sequence := id + UInt8.ofNat (packetCount message)
        received := self.received + (framed id message).length }) := by
  fun_induction framed id message generalizing self payload with
  | case1 id message short =>
    rw [readPackets_packet self id rest (by omega) room, if_pos short, packetCount_short short,
      length_packet]
    rfl
  | case2 id message long ih =>
    have full : (message.take maxPayload).length = maxPayload := by simp; omega
    have less : (payload ++ message.take maxPayload).length + (message.drop maxPayload).length ≤
        maxMessage := by
      rw [length_append, full, length_drop]
      omega
    rw [append_assoc, readPackets_packet self id _ full.le (by omega), if_neg (by omega), full]
    refine (ih { self with sequence := id + 1, received := self.received + (4 + maxPayload) } _
      less).trans ?_
    rw [append_assoc, take_append_drop, packetCount_long long, length_append, length_packet, full]
    simp [UInt8.ofNat_add, UInt8.add_assoc, UInt8.add_comm 1, Nat.add_assoc]

/-! ## A stream that ends early -/

/-- What a reader answers when the stream ends `count` bytes into a message. -/
def cutAnswer (count : Nat) : Except IoError (Option Bytes) :=
  if count % (4 + maxPayload) = 0 then .ok none
  else if count % (4 + maxPayload) < 4 then .error endedInHeader
  else .error endedInPayload

theorem readPackets_ended (few : self.incoming.length < 4) : (self.readPackets payload).1 =
      if self.incoming.length = 0 then .ok none else .error endedInHeader := by
  rw [readPackets]
  split
  · rename_i none
    rw [none]
    rfl
  · rename_i header
    simp [header] at few
    omega
  · rename_i some _
    exact (if_neg fun none => some (length_eq_zero_iff.mp none)).symm

/-- A stream that ends inside a packet. -/
theorem readPackets_inside (self : Stream) (id : UInt8) {count : Nat}
    (fits : data.length ≤ maxPayload) (room : payload.length + data.length ≤ maxMessage)
    (cut : count < 4 + data.length) :
    ({ self with incoming := (packet id data).take count }.readPackets payload).1 =
      cutAnswer count := by
  have inside : count % (4 + maxPayload) = count := Nat.mod_eq_of_lt (by omega)
  rw [cutAnswer, inside]
  by_cases few : count < 4
  · have length : ((packet id data).take count).length = count := by
      rw [length_take, length_packet]
      omega
    rw [readPackets_ended (by simpa [length] using few), length, if_pos few]
  · obtain ⟨more, rfl⟩ : ∃ more, count = more + 4 := ⟨count - 4, by omega⟩
    have spelled : ofLe (leBytes 3 data.length) = data.length :=
      ofLe_leBytes (Nat.lt_of_le_of_lt fits (by decide))
    have header : (packet id data).take (more + 4) =
        UInt8.ofNat data.length :: UInt8.ofNat (data.length / 256) ::
          UInt8.ofNat (data.length / 256 / 256) :: id :: data.take more := by
      simp [packet, leBytes]
    rw [readPackets_header header spelled, if_neg (by omega), if_pos (by simp; omega),
      if_neg (by omega), if_neg few]

/-- A stream that ends inside a message. -/
theorem readPackets_cut (self : Stream) (id : UInt8) (payload message : Bytes) {count : Nat}
    (room : payload.length + message.length ≤ maxMessage)
    (cut : count < (framed id message).length) :
    ({ self with incoming := (framed id message).take count }.readPackets payload).1 =
      cutAnswer count := by
  fun_induction framed id message generalizing self payload count with
  | case1 id message short =>
    rw [length_packet] at cut
    exact readPackets_inside self id short.le room cut
  | case2 id message long ih =>
    have full : (message.take maxPayload).length = maxPayload := by simp; omega
    have first : (packet id (message.take maxPayload)).length = 4 + maxPayload := by
      rw [length_packet, full]
    by_cases inside : count < 4 + maxPayload
    · rw [take_append_of_le_length (by omega)]
      exact readPackets_inside self id full.le (by omega) (by omega)
    · obtain ⟨more, rfl⟩ : ∃ more, count = 4 + maxPayload + more :=
        ⟨count - (4 + maxPayload), by omega⟩
      have less : (payload ++ message.take maxPayload).length + (message.drop maxPayload).length ≤
          maxMessage := by
        rw [length_append, full, length_drop]
        omega
      rw [length_append, first] at cut
      have same : cutAnswer (4 + maxPayload + more) = cutAnswer more := by
        rw [cutAnswer, Nat.add_mod_left, <- cutAnswer]
      rw [<- first, take_length_add_append, first, readPackets_packet self id _ full.le (by omega),
        if_neg (by omega), full, same]
      exact ih { self with sequence := id + 1, received := self.received + (4 + maxPayload) } _
        less (by omega)

/-! ## Whole conversations -/

/-- The answers of `count` calls of `read_message`. -/
def readMessages (self : Stream) : Nat -> List (Except IoError (Option Bytes)) × Stream
  | 0 => ([], self)
  | count + 1 =>
    let (answer, next) := self.readMessage
    let (answers, last) := next.readMessages count
    (answer :: answers, last)

/-- Whatever messages one side writes, the other reads them, whole and in order, and stands
where the writer does; a stream cut short gives the messages before the cut and then what
`cutAnswer` says of the cut. -/
theorem messages_arrive (writer reader : Stream) (messages : List Bytes) (last : Bytes)
    (fits : ∀ message ∈ last :: messages, message.length ≤ maxMessage) :
    ∃ bytes final : Bytes, (messages.foldl writeMessage writer).written = writer.written ++ bytes ∧
      (messages.foldl writeMessage writer).sent = writer.sent + bytes.length ∧
      ((messages.foldl writeMessage writer).writeMessage last).written =
        writer.written ++ bytes ++ final ∧
      (∀ rest, { reader with incoming := bytes ++ rest, sequence := writer.sequence }.readMessages
          messages.length =
        (messages.map (.ok <| some ·), { reader with
          incoming := rest
          sequence := (messages.foldl writeMessage writer).sequence
          received := reader.received + bytes.length })) ∧
      ∀ count < final.length, ({ reader with
            incoming := bytes ++ final.take count
            sequence := writer.sequence }.readMessages (messages.length + 1)).1 =
          messages.map (.ok <| some ·) ++ [cutAnswer count] := by
  induction messages generalizing writer reader with
  | nil =>
    refine ⟨[], framed writer.sequence last, by simp, rfl, ?_, fun rest => rfl, ?_⟩
    · simp [writeMessage_eq]
    · intro count cut
      exact congrArg (fun answer => [answer]) (readPackets_cut
        { reader with sequence := writer.sequence } writer.sequence [] last
        (by simpa using fits last mem_cons_self) cut)
  | cons message messages ih =>
    have wrote := writeMessage_eq writer message
    have read (rest : Bytes) : { reader with
        incoming := framed writer.sequence message ++ rest
        sequence := writer.sequence }.readMessage =
        (.ok (some message), { reader with
          incoming := rest
          sequence := (writer.writeMessage message).sequence
          received := reader.received + (framed writer.sequence message).length }) := by
      rw [wrote]
      exact readPackets_framed { reader with sequence := writer.sequence } writer.sequence []
        message rest (by simpa using fits message (by simp))
    obtain ⟨bytes, final, written, sent, ends, whole, cut⟩ := ih (writer.writeMessage message)
      { reader with received := reader.received + (framed writer.sequence message).length }
      fun other member => fits other (by simp at member ⊢; tauto)
    refine ⟨framed writer.sequence message ++ bytes, final, ?_, ?_, ?_, fun rest => ?_,
      fun count short => ?_⟩
    · rw [foldl_cons, written, wrote, append_assoc]
    · rw [foldl_cons, sent, wrote, length_append, Nat.add_assoc]
    · rw [foldl_cons, ends, wrote, append_assoc writer.written]
    · rw [append_assoc, length_cons, readMessages, read]
      simp only [whole, map_cons, foldl_cons, length_append, Nat.add_assoc]
    · rw [append_assoc, length_cons, readMessages, read]
      simp only [cut count short, map_cons, cons_append]

/-- A message that fills a packet is ended by an empty one whose id has wrapped; the stream then
ends in the third message. -/
theorem two_messages_arrive : ∃ bytes final : Bytes, readMessages ⟨bytes, [], 255, 0, 0⟩ 2 =
      ([.ok (some (replicate maxPayload 7)), .ok (some [1])], ⟨[], [], 2, bytes.length, 0⟩) ∧
    ∀ count < final.length, (readMessages ⟨bytes ++ final.take count, [], 255, 0, 0⟩ 3).1 =
      [.ok (some (replicate maxPayload 7)), .ok (some [1]), cutAnswer count] := by
  obtain ⟨filling, same⟩ : ∃ filling, filling = replicate maxPayload (7 : UInt8) := ⟨_, rfl⟩
  have full : filling.length = maxPayload := by rw [same, length_replicate]
  rw [<- same]
  obtain ⟨bytes, final, -, -, -, whole, cut⟩ :=
    messages_arrive ⟨[], [], 255, 0, 0⟩ ⟨[], [], 0, 0, 0⟩ [filling, [1]] [2, 3]
      (by simp only [forall_mem_cons, full]; simp [maxMessage, maxPayload])
  refine ⟨bytes, final, ?_, cut⟩
  have two : packetCount filling = 2 := by rw [packetCount, full, Nat.div_self (by decide)]
  have one : packetCount [1] = 1 := packetCount_short (by decide)
  simpa [writeMessage_eq, two, one] using whole []

/-- The packets a message is read from: every one full but the last, which is not. -/
theorem readPackets_packets {next : Stream}
    (read : self.readPackets payload = (.ok (some message), next)) :
    message.length ≤ maxMessage ∧ next.written = self.written ∧
    ∃ (full : List (UInt8 × Bytes)) (last : UInt8 × Bytes),
      (∀ one ∈ full, one.2.length = maxPayload) ∧ last.2.length < maxPayload ∧
      self.incoming = packets (full ++ [last]) ++ next.incoming ∧
      message = payload ++ (full ++ [last]).flatMap (·.2) ∧ next.sequence = last.1 + 1 ∧
      next.received = self.received + (packets (full ++ [last])).length := by
  fun_induction readPackets self payload with
  | case1 | case2 | case3 | case6 => cases read
  | case4 self before low middle high id incoming header length sequence room payload rest got after
      short =>
    obtain ⟨same, rfl⟩ : payload = message ∧ next = after := by simpa [eq_comm] using read
    subst same
    rw [readPayload_eq] at got
    split at got
    · cases got
      have size : (incoming.take length).length = length := by simp; omega
      refine ⟨by rw [length_append, size]; omega, rfl, [], (id, incoming.take length), by simp,
        size.trans_lt short, ?_, by simp, rfl, ?_⟩
      · simp [header, after, packets, packet_header size]
      · simp only [after, length_packets, nil_append, flatMap_cons, flatMap_nil, append_nil, size,
          length_singleton]
        omega
    · cases got
  | case5 self before low middle high id incoming header length sequence room payload rest got after
      long ih =>
    have small : length < 256 ^ 3 := ofLe_lt [low, middle, high]
    have whole : length = maxPayload := by
      simp only [maxPayload] at long ⊢
      omega
    rw [readPayload_eq] at got
    split at got
    · cases got
      have size : (incoming.take length).length = length := by simp; omega
      obtain ⟨bound, written, full, last, each, less, split, joined, numbered, received⟩ := ih read
      refine ⟨bound, written, (id, incoming.take length) :: full, last, ?_, less, ?_, ?_, numbered,
        ?_⟩
      · exact forall_mem_cons.mpr ⟨size.trans whole, each⟩
      · simp only [after] at split
        rw [cons_append, packets_cons, packet_header size, append_assoc, <- split]
        simp [header]
      · rw [joined, append_assoc, cons_append, flatMap_cons]
      · rw [received, cons_append, packets_cons, length_append, length_packet, size]
        simp only [after]
        omega
    · cases got

/-- Whatever bytes a peer sends, a message read is as long as the bound allows and is the payloads
of packets taken from the front of the stream, in their order; the bytes taken and counted are its
own and a header for each packet it needs. -/
theorem readPackets_accepts {next : Stream}
    (read : self.readPackets payload = (.ok (some message), next)) :
    message.length ≤ maxMessage ∧ next.written = self.written ∧
    ∃ (full : List (UInt8 × Bytes)) (last : UInt8 × Bytes) (taken body : Bytes),
      (∀ one ∈ full, one.2.length = maxPayload) ∧ last.2.length < maxPayload ∧
      taken = packets (full ++ [last]) ∧ body = (full ++ [last]).flatMap (·.2) ∧
      self.incoming = taken ++ next.incoming ∧ message = payload ++ body ∧
      taken.length = body.length + 4 * packetCount body ∧
      next.sequence = last.1 + 1 ∧ next.received = self.received + taken.length := by
  obtain ⟨bound, written, full, last, each, less, split, joined, numbered, received⟩ :=
    readPackets_packets read
  refine ⟨bound, written, full, last, _, _, each, less, rfl, rfl, split, joined, ?_, numbered,
    received⟩
  rw [length_packets, packetCount_packets each less, length_append, length_singleton]

/-- A message of two packets, the second of which is empty, is taken whole. -/
theorem full_packet_accepted : ∃ (full : List (UInt8 × Bytes)) (last : UInt8 × Bytes) (taken : Bytes),
    taken = packets (full ++ [last]) ∧ framed 255 (replicate maxPayload 7) ++ [9] = taken ++ [9] ∧
      replicate maxPayload 7 = [] ++ (full ++ [last]).flatMap (·.2) := by
  obtain ⟨filling, same⟩ : ∃ filling, filling = replicate maxPayload (7 : UInt8) := ⟨_, rfl⟩
  have size : filling.length = maxPayload := by rw [same, length_replicate]
  rw [<- same]
  obtain ⟨-, -, full, last, taken, body, -, -, packed, rfl, split, joined, -⟩ :=
    readPackets_accepts (readPackets_framed ⟨[], [], 0, 0, 0⟩ 255 [] filling [9]
      (by rw [length_nil, size]; decide))
  exact ⟨full, last, taken, packed, split, joined⟩

end Stream

end InlaySql.Server
