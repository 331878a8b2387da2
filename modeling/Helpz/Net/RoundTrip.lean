import Helpz.Net.Chunks

/-!
# What is packed is read back

The encoder `prepare_packet_to_send` and the decoder in `internal_process_message` choose their
branches by different conditions; here they are shown to agree.

* `MessageItem.meaning`: what a packet of the item says, in terms of its payload device;
* `parseContent_packBody`, `content_packItem`: the parser reads that back, compressed or not;
* `roundTrip_iff`: from the packet returned by the sender to the branch the receiver takes, and what stays in its
  buffer.
-/

namespace HelpzNet

open HelpzLib

/-- What the packet of an item says: a slice of a large payload, or at its end the fragment size the
sender would use, or the whole of a small payload. -/
def MessageItem.meaning (m : MessageItem) (d : Device) : Content :=
  if d.size > m.fragmentSize then
    if d.pos = d.size then .fragment m.answerId d.size d.pos m.fragmentSize []
    else .fragment m.answerId d.size d.pos 0 ((d.data.drop d.pos).take m.fragmentSize)
  else match m.answerId with
    | some a => .answer a d.data
    | none => .message d.data

/-- The flags `prepare_packet_to_send` sets itself are not set before. -/
structure MessageItem.PlainFlags (m : MessageItem) : Prop where
  compressed : hasFlag m.flags Flag.compressed = false
  answer : hasFlag m.flags Flag.answer = false
  fragment : hasFlag m.flags Flag.fragment = false

section Pack

variable {m : MessageItem} {d : Device}

theorem hasFlag_packFlags (m : MessageItem) (d : Device) (f : UInt8) :
    hasFlag (packFlags m d) f = (hasFlag m.flags f || (m.answerId.isSome && hasFlag Flag.answer f) ||
      (decide (d.size > m.fragmentSize) && hasFlag Flag.fragment f)) := by
  unfold packFlags
  split_ifs with h1 h2 h2 <;> simp [h1, h2]

theorem fragment_packFlags (h : m.PlainFlags) (d : Device) :
    hasFlag (packFlags m d) Flag.fragment = decide (d.size > m.fragmentSize) := by
  rw [hasFlag_packFlags, h.fragment, show hasFlag Flag.answer Flag.fragment = false by decide,
    show hasFlag Flag.fragment Flag.fragment = true by decide]
  simp

theorem answer_packFlags (h : m.PlainFlags) (d : Device) :
    hasFlag (packFlags m d) Flag.answer = m.answerId.isSome := by
  rw [hasFlag_packFlags, h.answer, show hasFlag Flag.answer Flag.answer = true by decide,
    show hasFlag Flag.fragment Flag.answer = false by decide]
  simp

theorem fragmentQuery_packFlags (m : MessageItem) (d : Device) :
    hasFlag (packFlags m d) Flag.fragmentQuery = hasFlag m.flags Flag.fragmentQuery := by
  rw [hasFlag_packFlags, show hasFlag Flag.answer Flag.fragmentQuery = false by decide,
    show hasFlag Flag.fragment Flag.fragmentQuery = false by decide]
  simp

theorem compressed_packFlags (h : m.PlainFlags) (d : Device) :
    hasFlag (packFlags m d) Flag.compressed = false := by
  rw [hasFlag_packFlags, h.compressed, show hasFlag Flag.answer Flag.compressed = false by decide,
    show hasFlag Flag.fragment Flag.compressed = false by decide]
  simp

theorem addRawData_fst (d : Device) {pos : ℕ} (max : ℕ) (hsize : d.size < 2 ^ 32) :
    (addRawData d pos max).1 = (d.data.drop pos).take max := by
  have hmod : (d.size - pos) % 2 ^ 32 = d.size - pos := Nat.mod_eq_of_lt (by omega)
  simp only [addRawData, hmod]
  rw [show d.size - pos = (d.data.drop pos).length by simp [Device.size], ← List.take_take,
    List.take_length]

theorem packBody_fst (m : MessageItem) (d : Device) (hsize : d.size < 2 ^ 32) :
    (packBody m d).1 = answerHead m.answerId ++
      if d.size > m.fragmentSize then
        toBE 4 d.size ++ (toBE 4 d.pos ++
          if d.pos = d.size then toBE 4 m.fragmentSize else (d.data.drop d.pos).take m.fragmentSize)
      else d.data := by
  have hpos : d.pos ≤ d.size := d.pos_le
  unfold packBody
  split_ifs with hbig hend hend' hend'
  · simp
  · exact absurd (Device.atEnd_eq_true.mp hend) hend'
  · exact absurd (Device.atEnd_eq_true.mpr hend') hend
  · simp only [addRawData_fst d _ hsize, Nat.mod_eq_of_lt (show d.pos < 2 ^ 32 by omega),
      List.append_assoc]
  · simp only [addRawData_fst d _ hsize, List.drop_zero]
    rw [List.take_of_length_le (show d.data.length ≤ m.fragmentSize from not_lt.mp hbig)]

theorem parseFragment_pack (a : Option UInt8) (m : MessageItem) (d : Device) (hsize : d.size < 2 ^ 32) :
    parseFragment a (toBE 4 d.size ++ (toBE 4 d.pos ++
        if d.pos = d.size then toBE 4 m.fragmentSize else (d.data.drop d.pos).take m.fragmentSize)) =
      some (if d.pos = d.size then .fragment a d.size d.pos m.fragmentSize []
        else .fragment a d.size d.pos 0 ((d.data.drop d.pos).take m.fragmentSize)) := by
  have hpos : d.pos ≤ d.size := d.pos_le
  have hs : d.size % 256 ^ 4 = d.size := Nat.mod_eq_of_lt (by omega)
  have hp : d.pos % 256 ^ 4 = d.pos := Nat.mod_eq_of_lt (by omega)
  have hf : m.fragmentSize % 256 ^ 4 = m.fragmentSize := by
    have := m.fragmentSize_mem.2
    unfold maxPacketDataSize maxUdpPacketSize at this
    exact Nat.mod_eq_of_lt (by omega)
  simp only [parseFragment, takeBE_append, hs, hp, Option.bind_eq_bind, Option.bind_some]
  by_cases hend : d.pos = d.size
  · rw [if_pos hend.symm, if_pos hend, if_pos hend, takeBE_toBE, hf]
    rfl
  · rw [if_neg (Ne.symm hend), if_neg hend, if_neg hend]
    rfl

/-- **The parser reads back what was packed.** -/
theorem parseContent_packBody (h : m.PlainFlags) (hq : hasFlag m.flags Flag.fragmentQuery = false)
    (hcmd : m.cmd ≠ Cmd.removeFragment) (hsize : d.size < 2 ^ 32) :
    parseContent m.cmd (packFlags m d) (packBody m d).1 = some (m.meaning d) := by
  unfold parseContent MessageItem.meaning
  rw [if_neg hcmd, fragmentQuery_packFlags, hq, answer_packFlags h, fragment_packFlags h,
    packBody_fst m d hsize]
  unfold answerHead
  cases m.answerId with
  | some a =>
      by_cases hbig : d.size > m.fragmentSize
      · simp only [hbig, if_true]
        exact parseFragment_pack (some a) m d hsize
      · simp [hbig]
  | none =>
      by_cases hbig : d.size > m.fragmentSize
      · simp only [hbig, if_true]
        exact parseFragment_pack none m d hsize
      · simp [hbig]

theorem length_addRawData (d : Device) (pos max : ℕ) :
    (addRawData d pos max).1.length = min max ((d.size - pos) % 2 ^ 32) := by
  have hle := Nat.mod_le (d.size - pos) (2 ^ 32)
  have hdata : d.data.length = d.size := rfl
  simp only [addRawData, List.length_take, List.length_drop, hdata]
  omega

theorem length_packBody (m : MessageItem) (d : Device) :
    (packBody m d).1.length = (answerHead m.answerId).length +
      if d.size > m.fragmentSize then
        8 + if d.atEnd then 4 else min m.fragmentSize ((d.size - d.pos % 2 ^ 32) % 2 ^ 32)
      else min m.fragmentSize (d.size % 2 ^ 32) := by
  unfold packBody
  split_ifs
  · simp only [List.length_append, length_toBE]
  · simp only [List.length_append, length_toBE, length_addRawData]
    omega
  · simp only [List.length_append, length_addRawData, Nat.sub_zero]

theorem length_answerHead_le (a : Option UInt8) : (answerHead a).length ≤ 1 := by
  unfold answerHead
  cases a <;> simp

theorem length_packBody_lt (m : MessageItem) (d : Device) : (packBody m d).1.length < 2 ^ 30 := by
  have hmax := m.fragmentSize_mem
  have hhead := length_answerHead_le m.answerId
  unfold maxPacketDataSize maxUdpPacketSize at hmax
  rw [length_packBody]
  split_ifs <;> omega

theorem qUncompress_packBody (qt : Qt)
    (hbig : (packBody m d).1.length % 2 ^ 32 > m.minCompressSize) :
    (packBody m d).1 ≠ [] ∧ qt.qUncompress (qt.qCompress (packBody m d).1) = (packBody m d).1 := by
  have hne : (packBody m d).1 ≠ [] := by
    intro he
    rw [he] at hbig
    exact absurd hbig (by simp)
  exact ⟨hne, qt.qUncompress_qCompress _ hne (length_packBody_lt m d)⟩

theorem parseContent_compressed (cmd flags : UInt8) (data : Bytes) :
    parseContent cmd (flags ||| Flag.compressed) data = parseContent cmd flags data := by
  have h : ∀ f, hasFlag Flag.compressed f = false → hasFlag (flags ||| Flag.compressed) f = hasFlag flags f :=
    fun f hf => by rw [hasFlag_or, hf, Bool.or_false]
  unfold parseContent
  rw [h _ (by decide), h _ (by decide), h _ (by decide)]

/-- **A packet says what was packed**, compressed or not. -/
theorem content_packItem (qt : Qt) (h : m.PlainFlags) (id : UInt8) :
    (Protocol.packItem qt m d id).content qt = parseContent m.cmd (packFlags m d) (packBody m d).1 := by
  unfold Packet.content uncompressBody Protocol.packItem compressBody
  split_ifs with hbig hcomp hempty hcomp
  all_goals simp only [hasFlag_or, compressed_packFlags h, Bool.false_or, Bool.false_eq_true] at *
  · obtain ⟨hne, hun⟩ := qUncompress_packBody qt hbig
    exact absurd (hun.symm.trans hempty) hne
  · rw [(qUncompress_packBody qt hbig).2, Option.bind_some, parseContent_compressed]
  · exact absurd (show hasFlag Flag.compressed Flag.compressed = true by decide) hcomp
  · rfl

/-- A packet with the COMPRESSED or the FRAGMENT flag has a body. -/
theorem body_packItem_ne_nil (qt : Qt) (h : m.PlainFlags) (hsize : d.size < 2 ^ 32) (id : UInt8)
    (hf : hasFlag (Protocol.packItem qt m d id).flags (Flag.compressed ||| Flag.fragment) = true) :
    (Protocol.packItem qt m d id).body ≠ [] := by
  unfold Protocol.packItem compressBody at *
  split_ifs at hf ⊢ with hbig
  · obtain ⟨hne, hun⟩ := qUncompress_packBody qt hbig
    intro he
    rw [show qt.qCompress (packBody m d).1 = [] from he, qt.qUncompress_nil] at hun
    exact hne hun.symm
  · rw [hasFlag_or_right, compressed_packFlags h, fragment_packFlags h, Bool.false_or,
      decide_eq_true_eq] at hf
    rw [packBody_fst m d hsize, if_pos hf]
    simp [toBE]

theorem length_packItem_body_le (qt : Qt) (m : MessageItem) (d : Device) (id : UInt8) :
    (Protocol.packItem qt m d id).body.length ≤ protocolMaxMessageSize := by
  have hlen := length_packBody_lt m d
  have hc := qt.size_qCompress (packBody m d).1
  unfold Protocol.packItem compressBody protocolMaxMessageSize
  split_ifs
  · exact le_of_lt hc
  · change (packBody m d).1.length ≤ _
    omega

end Pack

/-! ## From the sender to the receiver -/

section Single

variable {σ : Type} {qt : Qt} {deliver : σ → Packet → σ × Bool} {pkt : Packet} {raw : Bytes}

theorem processStream_single (h : Framed qt pkt raw) (s : σ) :
    processStream qt deliver s raw =
      ⟨(deliver s pkt).1, if (deliver s pkt).2 then .threw 0 pkt.body.length else .wait raw.length,
        [(raw.length, pkt)]⟩ := by
  have hlen := h.length_eq
  have hnext : nextPacket qt raw 0 = .packet pkt :=
    nextPacket_framed h (by rw [List.drop_zero]; exact (List.append_nil raw).symm)
  have hend : nextPacket qt raw raw.length = .stop (.wait raw.length) := by simp [nextPacket]
  rw [processStream, streamLoop, hnext]
  simp only [Nat.zero_add, ← hlen]
  split_ifs with ht
  · rfl
  · obtain ⟨k, hk⟩ : ∃ k, raw.length = k + 1 := ⟨raw.length - 1, by omega⟩
    have hstop : streamLoop qt deliver raw.length (deliver s pkt).1 raw raw.length =
        ⟨(deliver s pkt).1, .wait raw.length, []⟩ := by
      conv_lhs => rw [hk]
      rw [streamLoop, ← hk, hend]
    rw [hstop]

/-- **A single packet is consumed entirely**, unless its processing throws and it has no body: then the front of an
empty queue is taken. -/
theorem processChunk_single (h : Framed qt pkt raw) (s : σ) {f : Framing} (hbuf : f.buf = [])
    (hqueue : f.queue = []) :
    processChunk qt deliver s f raw = if (deliver s pkt).2 = false ∨ pkt.body ≠ [] then some ((deliver s pkt).1,
      ⟨[], [], f.removed + raw.length, f.calls ++ [(f.removed + raw.length, pkt)]⟩) else none := by
  have hlen := h.length_eq
  obtain ⟨buf, queue, removed, calls⟩ := f
  obtain rfl : buf = [] := hbuf
  obtain rfl : queue = [] := hqueue
  rw [processChunk, if_neg h.ne_nil]
  simp only [List.nil_append, List.length_nil, Nat.zero_add]
  rw [recoverLoop, processStream_single h]
  cases ht : (deliver s pkt).2 with
  | false =>
      simp [Stop.ok, Stop.pos, Framing.finish, Framing.addCalls, dropProcessed]
  | true =>
      by_cases hb : pkt.body = []
      · -- the device is behind the only chunk
        have hall : raw.length ≤ 0 + 9 := by rw [hlen, hb]; rfl
        simp [Stop.ok, Stop.pos, Framing.addCalls, dropProcessed, hall, hb]
      · have hpos : 0 < pkt.body.length := List.length_pos_iff.mpr hb
        have hlt : ¬ raw.length ≤ 0 + 9 := by omega
        simp only [if_true, Stop.ok, Stop.pos, Framing.addCalls, dropProcessed, Bool.false_or,
          List.isEmpty_cons, Bool.false_eq_true, if_false, if_neg hlt, recoverLoop, List.drop_length]
        simp [processStream, streamLoop, nextPacket, Framing.finish, dropProcessed, hb]

end Single

/-- The receiver after it accepted the packet it expects next. -/
def Protocol.expected (p : Protocol) (pkt : Packet) : Protocol :=
  { p.emit [.internalProcessMessage pkt] with nextRxMsgId := pkt.id + 1 }

theorem Protocol.acceptMessage_expected {p : Protocol} (now : TimePoint) {pkt : Packet}
    (hid : pkt.id = p.nextRxMsgId) (hrep : hasFlag pkt.flags Flag.repeated = false) :
    (p.emit [.internalProcessMessage pkt]).acceptMessage now pkt.id pkt.flags = (true, p.expected pkt) := by
  simp [acceptMessage, hrep, hid, Protocol.emit, Protocol.expected]

theorem repeated_packItem (qt : Qt) (m : MessageItem) (d : Device) (id : UInt8) :
    hasFlag (Protocol.packItem qt m d id).flags Flag.repeated = hasFlag m.flags Flag.repeated := by
  have hp : hasFlag (packFlags m d) Flag.repeated = hasFlag m.flags Flag.repeated := by
    rw [hasFlag_packFlags, show hasFlag Flag.answer Flag.repeated = false by decide,
      show hasFlag Flag.fragment Flag.repeated = false by decide]
    simp
  unfold Protocol.packItem compressBody
  split_ifs
  · rw [hasFlag_or, show hasFlag Flag.compressed Flag.repeated = false by decide, Bool.or_false, hp]
  · exact hp

/-- **The receiver takes the branch for what was packed.** -/
theorem internalProcessMessage_packItem (qt : Qt) {p : Protocol} (env : Env) {m : MessageItem}
    {d : Device} {id : UInt8} (hid : id = p.nextRxMsgId) (hflags : m.flags = 0)
    (hcmd : m.cmd ≠ Cmd.removeFragment) (hsize : d.size < 2 ^ 32) :
    p.internalProcessMessage qt env (Protocol.packItem qt m d id) =
      (p.expected (Protocol.packItem qt m d id)).dispatch env id m.cmd (m.meaning d) := by
  have hplain : m.PlainFlags := by
    constructor <;> rw [hflags, hasFlag_zero]
  have hrep : hasFlag (Protocol.packItem qt m d id).flags Flag.repeated = false := by
    rw [repeated_packItem, hflags, hasFlag_zero]
  have hcont : (Protocol.packItem qt m d id).content qt = some (m.meaning d) := by
    rw [content_packItem qt hplain,
      parseContent_packBody hplain (by rw [hflags, hasFlag_zero]) hcmd hsize]
  simp only [Protocol.internalProcessMessage, Protocol.acceptMessage_expected env.now₁ hid hrep, if_true]
  rw [Protocol.processAccepted,
    if_neg (fun h => body_packItem_ne_nil qt hplain hsize id h.2 h.1), hcont]
  rfl

/-- The packet passes the checksum, and the receiver gets out of it what the item says. -/
structure Decoded (qt : Qt) (oracle : List Event → Env) (m : MessageItem) (d : Device) (id : UInt8) (e : Endpoint)
    (pkt : Packet) : Prop where
  id_eq : pkt.id = id
  cmd_eq : pkt.cmd = m.cmd
  content_eq : pkt.content qt = some (m.meaning d)
  calls_eq : (processStream qt (Protocol.deliver qt oracle) e.protocol (pkt.encode qt)).calls =
    [((pkt.encode qt).length, pkt)]
  deliver_eq : e.protocol.deliver qt oracle pkt =
    (e.protocol.expected pkt).dispatch (oracle e.protocol.log) id m.cmd (m.meaning d)

/-- `process_bytes` passes the packet on, once, and leaves nothing of it. -/
def Consumed (qt : Qt) (oracle : List Event → Env) (e : Endpoint) (pkt : Packet) : Prop :=
  e.processBytes qt oracle (pkt.encode qt) = some ⟨(e.protocol.deliver qt oracle pkt).1,
    ⟨[], [], e.framing.removed + (pkt.encode qt).length,
      e.framing.calls ++ [(e.framing.removed + (pkt.encode qt).length, pkt)]⟩⟩

section Whole

variable {qt : Qt} {oracle : List Event → Env} {m : MessageItem} {d : Device} {id : UInt8} {e : Endpoint}

theorem decoded_packItem (hflags : m.flags = 0) (hcmd : m.cmd ≠ Cmd.removeFragment) (hsize : d.size < 2 ^ 32)
    (hid : id = e.protocol.nextRxMsgId) : Decoded qt oracle m d id e (Protocol.packItem qt m d id) := by
  have hplain : m.PlainFlags := by
    constructor <;> rw [hflags, hasFlag_zero]
  refine ⟨rfl, rfl, ?_, ?_, internalProcessMessage_packItem qt _ hid hflags hcmd hsize⟩
  · rw [content_packItem qt hplain, parseContent_packBody hplain (by rw [hflags, hasFlag_zero]) hcmd hsize]
  · rw [processStream_single (framed_encode qt (length_packItem_body_le qt m d id))]

theorem body_packItem_eq_nil (hsize : d.size < 2 ^ 32) :
    (Protocol.packItem qt m d id).body = [] ↔ m.answerId = none ∧ d.size = 0 := by
  have hmin := m.fragmentSize_mem.1
  have hpack : (packBody m d).1 = [] ↔ m.answerId = none ∧ d.size = 0 := by
    rw [← List.length_eq_zero_iff, length_packBody, answerHead, Nat.mod_eq_of_lt hsize]
    cases m.answerId with
    | some a => simp
    | none =>
        simp only [Option.toList_none, List.length_nil, Nat.zero_add, true_and]
        split_ifs
        · exact iff_of_false not_false (by omega)
        · omega
        · omega
  rw [← hpack]
  unfold Protocol.packItem compressBody
  split_ifs with hbig
  · obtain ⟨hne, hun⟩ := qUncompress_packBody qt hbig
    refine iff_of_false (fun he => hne ?_) hne
    rw [← hun, show qt.qCompress (packBody m d).1 = [] from he, qt.qUncompress_nil]
  · exact Iff.rfl

/-- The handler of an empty message is called, unless it is a ping. -/
theorem throws_empty (hdec : Decoded qt oracle m d id e (Protocol.packItem qt m d id)) (ha : m.answerId = none)
    (hsize : d.size = 0) : (e.protocol.deliver qt oracle (Protocol.packItem qt m d id)).2 = true ↔
      m.cmd ≠ Cmd.ping ∧ (oracle e.protocol.log).throws = true := by
  have hmean : m.meaning d = .message [] := by
    rw [MessageItem.meaning, if_neg (by omega), ha, List.length_eq_zero_iff.mp hsize]
  rw [hdec.deliver_eq, hmean]
  simp only [Protocol.dispatch, Protocol.processPlain]
  split_ifs with hping <;> simp [hping]

theorem consumed_packItem (hsize : d.size < 2 ^ 32) (hbuf : e.framing.buf = []) (hqueue : e.framing.queue = [])
    (hdec : Decoded qt oracle m d id e (Protocol.packItem qt m d id)) :
    Consumed qt oracle e (Protocol.packItem qt m d id) ↔
      m.answerId ≠ none ∨ d.size ≠ 0 ∨ m.cmd = Cmd.ping ∨ (oracle e.protocol.log).throws = false := by
  have hframed := framed_encode qt (length_packItem_body_le qt m d id)
  have hiff : Consumed qt oracle e (Protocol.packItem qt m d id) ↔
      (e.protocol.deliver qt oracle (Protocol.packItem qt m d id)).2 = false ∨
        (Protocol.packItem qt m d id).body ≠ [] := by
    rw [Consumed, Endpoint.processBytes, processChunk_single hframed e.protocol hbuf hqueue]
    split_ifs with hcall <;> simp [hcall]
  rw [hiff, ne_eq, body_packItem_eq_nil hsize, ← or_assoc, ← not_and_or]
  by_cases hempty : m.answerId = none ∧ d.size = 0
  · rw [← Bool.not_eq_true, throws_empty hdec hempty.1 hempty.2, not_and_or, not_not, Bool.not_eq_true]
    exact or_comm
  · exact iff_of_true (Or.inr hempty) (Or.inl hempty)

end Whole

/-- **Wire format round trip.** The packet of an item that was not sent before, given to a receiver that expects its
id, passes the checksum, and the receiver does what the item says. It is consumed entirely, unless it is the packet of
an empty message whose handler throws. -/
theorem roundTrip_iff (qt : Qt) (oracle : List Event → Env) (p : Protocol) (m : MessageItem) (d : Device)
    (now₁ now₂ : TimePoint) (hdev : m.dataDevice = some d) (hflags : m.flags = 0)
    (hcmd : m.cmd ≠ Cmd.removeFragment) (hsize : d.size < 2 ^ 31) (e : Endpoint)
    (hbuf : e.framing.buf = []) (hqueue : e.framing.queue = [])
    (hid : (p.assignId m).1 = e.protocol.nextRxMsgId) :
    ((∃ pkt, (p.preparePacketToSend qt m now₁ now₂).1 = some pkt ∧
        Decoded qt oracle m d (p.assignId m).1 e pkt ∧ Consumed qt oracle e pkt) ↔
      (m.answerId ≠ none ∨ d.size ≠ 0 ∨ m.cmd = Cmd.ping ∨ (oracle e.protocol.log).throws = false)) ∧
      ∃ pkt, (p.preparePacketToSend qt m now₁ now₂).1 = some pkt ∧ Decoded qt oracle m d (p.assignId m).1 e pkt := by
  have hsize' : d.size < 2 ^ 32 := by omega
  have hpkt : (p.preparePacketToSend qt m now₁ now₂).1 = some (Protocol.packItem qt m d (p.assignId m).1) := by
    simp only [Protocol.preparePacketToSend, hdev]
  have hdec : Decoded qt oracle m d (p.assignId m).1 e (Protocol.packItem qt m d (p.assignId m).1) :=
    decoded_packItem hflags hcmd hsize' hid
  rw [← consumed_packItem hsize' hbuf hqueue hdec]
  refine ⟨?_, _, hpkt, hdec⟩
  rw [hpkt]
  constructor
  · rintro ⟨pkt, he, _, hc⟩
    obtain rfl := Option.some.inj he
    exact hc
  · intro hc
    exact ⟨_, rfl, hdec, hc⟩

/-- An answer of 40 bytes, sent from position 8 on in fragments of 32 bytes and compressed. -/
theorem roundTrip_slice :
    let d : Device := ⟨List.replicate 40 7, 8, by decide⟩
    let m : MessageItem := { (MessageItem.new 0 16 (some 5)).setFragmentSize 32 with
      dataDevice := some d, minCompressSize := 0 }
    m.meaning d = .fragment (some 5) 40 8 0 (List.replicate 32 7) ∧
      ∃ pkt, (Protocol.fresh.preparePacketToSend Qt.storing m 0 0).1 = some pkt ∧
        Decoded Qt.storing (fun _ => Env.quiet) m d 0 Endpoint.fresh pkt ∧
          Consumed Qt.storing (fun _ => Env.quiet) Endpoint.fresh pkt := by
  intro d m
  exact ⟨by decide, (roundTrip_iff Qt.storing (fun _ => Env.quiet) Protocol.fresh m d 0 0 rfl rfl (by decide)
    (by decide) Endpoint.fresh rfl rfl rfl).1.mpr (Or.inl (by decide))⟩

/-- The packet of an empty message whose handler throws: the device is behind the only chunk, and the front of an
empty queue is taken. -/
theorem empty_throwing_not_consumed : ¬ ∀ (qt : Qt) (oracle : List Event → Env) (p : Protocol) (m : MessageItem)
    (d : Device) (now₁ now₂ : TimePoint), m.dataDevice = some d → m.flags = 0 → m.cmd ≠ Cmd.removeFragment →
    d.size < 2 ^ 31 → ∀ e : Endpoint, e.framing.buf = [] → e.framing.queue = [] →
    (p.assignId m).1 = e.protocol.nextRxMsgId →
      ∃ pkt, (p.preparePacketToSend qt m now₁ now₂).1 = some pkt ∧ Decoded qt oracle m d (p.assignId m).1 e pkt ∧
        Consumed qt oracle e pkt := by
  intro h
  let d : Device := ⟨[], 0, by decide⟩
  let m : MessageItem := { MessageItem.new 0 16 none with dataDevice := some d }
  obtain ⟨pkt, hpkt, _, hconsumed⟩ := h Qt.storing (fun _ => { Env.quiet with throws := true }) Protocol.fresh m d 0 0
    rfl rfl (by decide) (by decide) Endpoint.fresh rfl rfl rfl
  obtain rfl : Protocol.packItem Qt.storing m d 0 = pkt := Option.some.inj hpkt
  have hnone : (Endpoint.fresh.processBytes Qt.storing (fun _ => { Env.quiet with throws := true })
      ((Protocol.packItem Qt.storing m d 0).encode Qt.storing)).isSome = false := by decide
  rw [hconsumed] at hnone
  cases hnone

end HelpzNet
