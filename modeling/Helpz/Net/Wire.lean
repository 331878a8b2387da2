import Helpz.Net.Waiting

/-!
# Packets: what is sent and what is read back

`prepare_packet_to_send` with `add_raw_data_to_packet`, and the parsing half of
`internal_process_message`.

* `addRawData`, `packBody`, `compressBody`: the body of a packet, from the payload device;
* `Protocol.preparePacketToSend`: id assignment, the packet, and the item put on the waiting list;
* `Packet.encode`: the bytes on the wire;
* `Content` and `Packet.content`: what the receiver reads from the body; `none` is an exception.
-/

namespace HelpzNet

open HelpzLib

/-- `Protocol::add_raw_data_to_packet`: the bytes appended, and the device after the read. `pos` and
the sizes are 32-bit. -/
def addRawData (d : Device) (pos max : ℕ) : Bytes × Device :=
  let rawSize := min max ((d.size - pos) % 2 ^ 32)
  ((d.data.drop pos).take rawSize, d.seek (pos + rawSize))

/-- The bytes of the optional answer id. -/
def answerHead (answerId : Option UInt8) : Bytes := answerId.toList

/-- The body before compression, and the device after the read. A message larger than the fragment
size gets the fragment header; at the end of the device it announces the fragment size instead of
carrying data. -/
def packBody (m : MessageItem) (d : Device) : Bytes × Device :=
  if d.size > m.fragmentSize then
    let head := answerHead m.answerId ++ (toBE 4 d.size ++ toBE 4 d.pos)
    if d.atEnd then (head ++ toBE 4 m.fragmentSize, d)
    else
      let r := addRawData d (d.pos % 2 ^ 32) m.fragmentSize
      (head ++ r.1, r.2)
  else
    let r := addRawData d 0 m.fragmentSize
    (answerHead m.answerId ++ r.1, r.2)

/-- The flags added for the answer id and for a fragment. -/
def packFlags (m : MessageItem) (d : Device) : UInt8 :=
  m.flags ||| (if m.answerId.isSome then Flag.answer else 0) |||
    (if d.size > m.fragmentSize then Flag.fragment else 0)

/-- Compress the body when it is larger than the limit of the message. -/
def compressBody (qt : Qt) (minCompressSize : ℕ) (flags : UInt8) (body : Bytes) : UInt8 × Bytes :=
  if body.length % 2 ^ 32 > minCompressSize then (flags ||| Flag.compressed, qt.qCompress body)
  else (flags, body)

namespace Protocol

/-- The time point under which a written item waits: the next resend, or its deadline. -/
def waitPoint (m : MessageItem) (now : TimePoint) : TimePoint :=
  if m.resendTimeout < m.endTime - now then now + m.resendTimeout else m.endTime

/-- The item as it is after its packet was built: id, position of the device, deadline. -/
def packedItem (m : MessageItem) (d : Device) (id : UInt8) (now₁ : TimePoint) : MessageItem :=
  { m with
    id := some id
    dataDevice := some (packBody m d).2
    endTime := if d.size > m.fragmentSize then now₁ + seconds 10 else m.endTime }

/-- The packet of an item with id `id`. -/
def packItem (qt : Qt) (m : MessageItem) (d : Device) (id : UInt8) : Packet :=
  let r := compressBody qt m.minCompressSize (packFlags m d) (packBody m d).1
  ⟨id, m.cmd, r.1, r.2⟩

/-- Give the item its id: `next_tx_msg_id_++` when it has none. -/
def assignId (p : Protocol) (m : MessageItem) : UInt8 × Protocol :=
  match m.id with
  | some id => (id, p)
  | none => (p.nextTxMsgId, { p with
      nextTxMsgId := p.nextTxMsgId + 1, log := p.log ++ [.assigned p.nextTxMsgId m.payload] })

@[simp] theorem waitingMessages_assignId (p : Protocol) (m : MessageItem) :
    (p.assignId m).2.waitingMessages = p.waitingMessages := by
  unfold assignId
  split <;> rfl

theorem assignId_posted (p : Protocol) (l : List MessageItem) (m : MessageItem) :
    { p with posted := l }.assignId m = ((p.assignId m).1, { (p.assignId m).2 with posted := l }) := by
  unfold assignId
  cases m.id <;> rfl

/-- `Protocol::prepare_packet_to_send`. An item that does not wait dies with the call. -/
def preparePacketToSend (qt : Qt) (p : Protocol) (m : MessageItem) (now₁ now₂ : TimePoint) :
    Option Packet × Protocol :=
  match m.dataDevice with
  | none => (none, p.emit (m.destroy .rejected))
  | some d =>
      let a := p.assignId m
      let pkt := packItem qt m d a.1
      let m' := packedItem m d a.1 now₁
      let q := { a.2.emit [.transmitted m.uid pkt now₂] with lastMsgSendTime := now₂ }
      (some pkt,
        if m'.endTime > now₂ then
          (q.addToWaiting (waitPoint m' now₂) m').addTimeoutAt (waitPoint m' now₂) .null
        else q.emit (m'.destroy .unwaited))

theorem preparePacketToSend_fst (qt : Qt) (p : Protocol) {m : MessageItem} {d : Device}
    (hd : m.dataDevice = some d) (now₁ now₂ : TimePoint) :
    (preparePacketToSend qt p m now₁ now₂).1 = some (packItem qt m d (p.assignId m).1) := by
  unfold preparePacketToSend
  simp only [hd]

/-- The object when an item has got its id and its packet is built. -/
def afterSent (qt : Qt) (p : Protocol) (m : MessageItem) (d : Device) (now : TimePoint) : Protocol :=
  { (p.assignId m).2.emit [.transmitted m.uid (packItem qt m d (p.assignId m).1) now] with
    lastMsgSendTime := now }

theorem preparePacketToSend_some (qt : Qt) (p : Protocol) {m : MessageItem} {d : Device}
    (hd : m.dataDevice = some d) (now₁ now₂ : TimePoint) :
    (preparePacketToSend qt p m now₁ now₂).2 =
      if (packedItem m d (p.assignId m).1 now₁).endTime > now₂ then
        ((p.afterSent qt m d now₂).addToWaiting (waitPoint (packedItem m d (p.assignId m).1 now₁) now₂)
          (packedItem m d (p.assignId m).1 now₁)).addTimeoutAt
            (waitPoint (packedItem m d (p.assignId m).1 now₁) now₂) .null
      else (p.afterSent qt m d now₂).emit ((packedItem m d (p.assignId m).1 now₁).destroy .unwaited) := by
  unfold preparePacketToSend
  simp only [hd]
  rfl

end Protocol

/-- The header after the checksum: id, command, flags and the length of the body. -/
def Packet.header (pkt : Packet) : Bytes :=
  pkt.id :: pkt.cmd :: pkt.flags :: toBE 4 pkt.body.length

/-- The bytes of a packet on the wire. -/
def Packet.encode (qt : Qt) (pkt : Packet) : Bytes :=
  toBE 2 (qt.qChecksum pkt.header) ++ (pkt.header ++ pkt.body)

/-- What the receiver reads from the body of a packet. -/
inductive Content
  | removeFragment (fragmentId : UInt8)
  | fragmentQuery (msgId : UInt8) (pos size : ℕ)
  | fragment (answerId : Option UInt8) (fullSize pos maxFragmentSize : ℕ) (data : Bytes)
  | answer (answerId : UInt8) (data : Bytes)
  | message (data : Bytes)
  deriving DecidableEq, Repr

/-- The fragment header and what follows it. -/
def parseFragment (answerId : Option UInt8) (data : Bytes) : Option Content := do
  let (fullSize, r) ← takeBE 4 data
  let (pos, r) ← takeBE 4 r
  if fullSize = pos then
    let (maxFragmentSize, r) ← takeBE 4 r
    return .fragment answerId fullSize pos maxFragmentSize r
  else return .fragment answerId fullSize pos 0 r

/-- The arguments of `process_fragment_query`. -/
def parseFragmentQuery (data : Bytes) : Option Content := do
  let (msgId, r) ← takeBE 1 data
  let (pos, r) ← takeBE 4 r
  let (size, _) ← takeBE 4 r
  return .fragmentQuery (UInt8.ofNat msgId) pos size

/-- The parsing of `internal_process_message` after the body was uncompressed. -/
def parseContent (cmd flags : UInt8) (data : Bytes) : Option Content :=
  if cmd = Cmd.removeFragment then data.head?.map .removeFragment
  else if hasFlag flags Flag.fragmentQuery then parseFragmentQuery data
  else if hasFlag flags Flag.answer then
    match data with
    | [] => none
    | a :: r => if hasFlag flags Flag.fragment then parseFragment (some a) r else some (.answer a r)
  else if hasFlag flags Flag.fragment then parseFragment none data
  else some (.message data)

/-- The body after `qUncompress`; an empty result is an exception. -/
def uncompressBody (qt : Qt) (pkt : Packet) : Option Bytes :=
  if hasFlag pkt.flags Flag.compressed then
    if qt.qUncompress pkt.body = [] then none else some (qt.qUncompress pkt.body)
  else some pkt.body

/-- What `internal_process_message` reads from an accepted packet. -/
def Packet.content (qt : Qt) (pkt : Packet) : Option Content :=
  (uncompressBody qt pkt).bind (parseContent pkt.cmd pkt.flags)

end HelpzNet
