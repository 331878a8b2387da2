import Helpz.Net.Integrity
import Helpz.Net.Missing
import Helpz.Lib.Run

/-!
# Messages that are too large

The sender writes the size of a device and the position in it as 32-bit numbers, and the receiver compares
what it reads with `HELPZ_PROTOCOL_MAX_MESSAGE_SIZE`.

* `Refused`: the sizes for which this check, or the empty list of parts it leads to, keeps the message out;
* `Content.Hopeless`: what the packets of such a message say, whatever the position of the device;
* `Protocol.Refusing`: nothing is handed over under an id, and its transfer, if there is one, never ends;
  kept by such packets (`Refusing.step`), and in runs of two endpoints (`oversized_not_delivered`);
* a size just above a multiple of `2 ^ 32` passes the check, and the receiver is given the first bytes
  (`truncated_delivered`).
-/

namespace HelpzNet

open HelpzLib FragmentedMessage

/-- A size that is too large, also when it is written with 32 bits, or then nothing at all. -/
def Refused (size : ℕ) : Prop := 2 ^ 31 ≤ size ∧ (size % 2 ^ 32 = 0 ∨ 2 ^ 31 ≤ size % 2 ^ 32)

/-- The content cannot lead to a handover: a fragment of too large a message, or of an empty one without data
at its start. -/
def Content.Hopeless : Content → Prop
  | .fragment _ fullSize pos _ data =>
      protocolMaxMessageSize ≤ fullSize ∨ fullSize = 0 ∧ (data = [] ∨ 0 < pos)
  | .answer _ _ => False
  | .message _ => False
  | _ => True

/-- The packet is hopeless, if it is one of message `i`. -/
def Packet.Hopeless (qt : Qt) (i : UInt8) (pkt : Packet) : Prop :=
  pkt.id = i → ∀ c, pkt.content qt = some c → c.Hopeless

/-- The message is one that protocol objects send each other. -/
def MessageItem.Own (m : MessageItem) : Prop :=
  m.cmd = Cmd.removeFragment ∨ hasFlag m.flags Flag.fragmentQuery = true

/-! ## What is sent -/

section Pack

variable {m : MessageItem} {d : Device}

theorem packBody_fragment (hbig : d.size > m.fragmentSize) :
    (packBody m d).1 = answerHead m.answerId ++ (toBE 4 d.size ++ (toBE 4 d.pos ++
      if d.atEnd then toBE 4 m.fragmentSize else (addRawData d (d.pos % 2 ^ 32) m.fragmentSize).1)) := by
  unfold packBody
  rw [if_pos hbig]
  split_ifs with hend
  · simp only [List.append_assoc]
  · simp only [List.append_assoc]

theorem parseContent_fragment (h : m.PlainFlags) (hown : ¬ m.Own) (hbig : d.size > m.fragmentSize)
    (body : Bytes) :
    parseContent m.cmd (packFlags m d) (answerHead m.answerId ++ body) = parseFragment m.answerId body := by
  have hcmd : m.cmd ≠ Cmd.removeFragment := fun hc => hown (Or.inl hc)
  have hquery : hasFlag m.flags Flag.fragmentQuery = false := Bool.eq_false_iff.mpr fun hq => hown (Or.inr hq)
  unfold parseContent answerHead
  rw [if_neg hcmd, fragmentQuery_packFlags, hquery, answer_packFlags h, fragment_packFlags h, decide_eq_true hbig]
  cases m.answerId <;> rfl

theorem hopeless_parseFragment (a : Option UInt8) {rest : Bytes} {c : Content} (hsize : Refused d.size)
    (hrest : d.size % 2 ^ 32 = 0 → d.pos % 2 ^ 32 = 0 → rest = [] ∨ ∃ n, rest = toBE 4 n)
    (hc : parseFragment a (toBE 4 d.size ++ (toBE 4 d.pos ++ rest)) = some c) : c.Hopeless := by
  have hmod : (256 : ℕ) ^ 4 = 2 ^ 32 := rfl
  simp only [parseFragment, takeBE_append, hmod, Option.bind_eq_bind, Option.bind_some] at hc
  by_cases hzero : d.size % 2 ^ 32 = 0
  · by_cases hpos : d.pos % 2 ^ 32 = 0
    · rw [if_pos (hzero.trans hpos.symm)] at hc
      rcases hrest hzero hpos with rfl | ⟨n, rfl⟩
      · -- no room for the fragment size: the packet cannot be read
        cases hc
      · rw [takeBE_toBE] at hc
        obtain rfl := Option.some.inj hc
        exact Or.inr ⟨hzero, Or.inl rfl⟩
    · rw [if_neg fun he => hpos (he.symm.trans hzero)] at hc
      obtain rfl := Option.some.inj hc
      exact Or.inr ⟨hzero, Or.inr (Nat.pos_of_ne_zero hpos)⟩
  · have hlarge := hsize.2.resolve_left hzero
    split_ifs at hc
    · obtain ⟨r, _, hr⟩ := Option.bind_eq_some_iff.mp hc
      obtain rfl := Option.some.inj hr
      exact Or.inl hlarge
    · obtain rfl := Option.some.inj hc
      exact Or.inl hlarge

/-- **The packets of a refused message are hopeless**, wherever its device stands. -/
theorem hopeless_packItem (qt : Qt) (h : m.PlainFlags) (hm : m.Own ∨ Refused d.size) (id : UInt8) {c : Content}
    (hc : (Protocol.packItem qt m d id).content qt = some c) : c.Hopeless := by
  rw [content_packItem qt h] at hc
  by_cases hown : m.Own
  · unfold parseContent at hc
    split_ifs at hc with hcmd hquery
    · obtain ⟨x, _, rfl⟩ := Option.map_eq_some_iff.mp hc
      exact trivial
    · simp only [parseFragmentQuery, Option.bind_eq_bind, Option.bind_eq_some_iff] at hc
      obtain ⟨_, _, _, _, _, _, hc⟩ := hc
      obtain rfl := Option.some.inj hc
      exact trivial
    all_goals exact absurd hown fun ho => ho.elim hcmd fun hq => hquery (by rwa [fragmentQuery_packFlags])
  · have hsize := hm.resolve_left hown
    have hbig : d.size > m.fragmentSize := by
      have hmax := m.fragmentSize_mem.2
      have hlarge := hsize.1
      unfold maxPacketDataSize maxUdpPacketSize at hmax
      omega
    rw [packBody_fragment hbig, parseContent_fragment h hown hbig] at hc
    refine hopeless_parseFragment m.answerId hsize (fun hzero hpos => ?_) hc
    split_ifs
    · exact Or.inr ⟨_, rfl⟩
    · refine Or.inl (List.eq_nil_of_length_eq_zero ?_)
      rw [length_addRawData, hpos, Nat.sub_zero, hzero, Nat.min_zero]

end Pack

/-! ## What the receiver does -/

namespace Protocol

/-- Nothing was handed over under the id, and its transfer, if there is one, waits for the one empty part. -/
def Refusing (i : UInt8) (p : Protocol) : Prop :=
  p.Tracks i (fun m => m.partVect = [(0, 0)]) fun _ => False

variable {qt : Qt} {i : UInt8} {p : Protocol}

/-- A transfer of nothing is made with that part, and data behind its start leaves it. -/
theorem suits_of_hopeless {c : Content} (hc : c.Hopeless) :
    c.Suits (fun m => m.partVect = [(0, 0)]) fun _ => False := by
  cases c with
  | fragment a fullSize pos mx data =>
      intro hsize
      obtain ⟨rfl, hdata⟩ := hc.resolve_left (not_le.mpr hsize)
      refine ⟨fun _ _ _ => rfl, fun m hm => ?_⟩
      unfold addFragment
      split_ifs with hnil
      · exact hm
      · simp only [FragmentedMessage.addData, hm]
        refine removeFromPartVect_of_behind (fun part hpart => ?_) _
        rw [List.mem_singleton.mp hpart]
        exact hdata.resolve_left hnil
  | answer a data => exact hc
  | message data => exact hc
  | _ => exact trivial

/-- **No packet of a refused message leads to a handover under its id.** -/
theorem Refusing.run (h : p.Refusing i) {acts : List Action} (hpkt : ∀ pkt ∈ arrivals acts, pkt.Hopeless qt i) :
    (p.run qt acts).Refusing i := by
  refine Tracks.run h (fun _ _ _ hp hm => hp.trans hm) (fun m hm he => ?_)
    fun pkt hp hid c hc => suits_of_hopeless (hpkt pkt hp hid c hc)
  rw [isPartsEmpty, hm] at he
  cases he

theorem refusing_fresh (i : UInt8) : fresh.Refusing i := ⟨fun _ hm => (nomatch hm), fun _ hd => (nomatch hd)⟩

end Protocol

/-! ## A long message -/

/-- A message of command 20 with the data `D`, to be sent in fragments of 32 bytes. -/
def longItem (D : Bytes) : MessageItem :=
  { (MessageItem.new 0 20 none).setFragmentSize 32 with dataDevice := some (Device.full D) }

/-- The object that has posted it. -/
def longPosted (D : Bytes) : Protocol :=
  { Protocol.fresh with alloc := 1, log := [.created (longItem D)], posted := [longItem D] }

theorem Device.seek_full (D : Bytes) : (Device.full D).seek D.length = Device.full D := dif_pos le_rfl

theorem step_sendLong (qt : Qt) (D : Bytes) :
    (Protocol.fresh.step qt (.send 20 none [.setDataDevice (Device.full D) 32])).1 = longPosted D := by
  have hseek : (longItem D).seek (longItem D).payload.length = longItem D := by
    change { longItem D with dataDevice := some ((Device.full D).seek D.length) } = longItem D
    rw [Device.seek_full]
    rfl
  change { longPosted D with posted := [(longItem D).seek (longItem D).payload.length] } = longPosted D
  rw [hseek]
  rfl

/-! ## Both ends -/

namespace System

/-- If end `s` writes a message under id `i`, then one of the protocol's own, or one of such a size. -/
def WritesUnder (sizes : ℕ → Prop) (s : Side) (i : UInt8) (y : System) : Move → Prop
  | .own t (.write k _ _) => t = s → ∀ m, (y.node s).posted[k]? = some m → ((y.node s).assignId m).1 = i →
      m.Own ∨ sizes m.payload.length
  | _ => True

variable {qt : Qt} {s : Side} {i : UInt8}

theorem hopeless_of_sent {moves : List Move} {mv : Move}
    (hw : (fresh.run qt moves).WritesUnder Refused s i mv) {pkt : Packet}
    (h : pkt ∈ ((fresh.run qt moves).node s).sent qt ((fresh.run qt moves).action s mv)) :
    pkt.Hopeless qt i := by
  cases mv with
  | own t a =>
      cases a with
      | write k now₁ now₂ =>
          rw [action_own] at h
          · split_ifs at h with hs
            · rw [Protocol.sent_singleton] at h
              obtain ⟨m, d, hm, hd, rfl⟩ := Protocol.mem_write h
              have hplain : m.PlainFlags := by
                rw [node_run_fresh] at hm
                exact Protocol.plainFlags_of_held (List.mem_of_getElem? hm)
              have hpayload : m.payload.length = d.size := by simp [MessageItem.payload, hd, Device.size]
              intro hid c hc
              exact hopeless_packItem qt hplain (hpayload ▸ hw hs m hm hid) _ hc
            · exact absurd h List.not_mem_nil
          · intro pkt' env he
            cases he
      | receive pkt' env => exact absurd h List.not_mem_nil
      | _ =>
          rw [action_own] at h
          · split_ifs at h <;> exact absurd h List.not_mem_nil
          · intro pkt' env he
            cases he
  | deliver t k keep env =>
      rw [action] at h
      split_ifs at h
      · cases hk : ((fresh.run qt moves).flight t)[k]? with
        | none =>
            rw [hk] at h
            exact absurd h List.not_mem_nil
        | some pkt' =>
            rw [hk] at h
            exact absurd h List.not_mem_nil
      · exact absurd h List.not_mem_nil

/-- **Oversized messages are not delivered** if their size, as written with 32 bits, is still too large, or
`0`: in a run in which only such messages are written under an id, nothing is handed over under it. -/
theorem oversized_not_delivered (qt : Qt) (s : Side) (i : UInt8) (moves : List Move)
    (h : Along (fun y mv => some (y.step qt mv)) (WritesUnder Refused s.other i) fresh moves) :
    ∀ data, (i, data) ∉ handovers ((fresh.run qt moves).node s).log := by
  have hinv : ((fresh.run qt moves).node s).Refusing i ∧
      ∀ pkt ∈ (fresh.run qt moves).flight s, pkt.Hopeless qt i := by
    induction moves using List.reverseRecOn with
    | nil => exact ⟨Protocol.refusing_fresh i, fun _ hp => absurd hp List.not_mem_nil⟩
    | append_singleton moves mv ih =>
        obtain ⟨hpast, hmv, _⟩ := along_append.mp h
        obtain ⟨hnode, hflight⟩ := ih hpast
        rw [run_append]
        refine ⟨?_, fun pkt hpkt => ?_⟩
        · change (((fresh.run qt moves).step qt mv).node s).Refusing i
          rw [node_step]
          exact hnode.run fun pkt hp => hflight pkt (mem_flight_of_arrival hp)
        · rcases mem_flight_step hpkt with hp | hp
          · exact hflight pkt hp
          · exact hopeless_of_sent hmv hp
  exact fun data hd => hinv.1.handed data hd

/-- A message of `2 ^ 31` bytes is announced. -/
theorem oversized_not_delivered_announced : ∃ D : Bytes, D.length = 2 ^ 31 ∧
    ∀ data, (0, data) ∉ handovers ((fresh.run Qt.storing
      [.own .left (.send 20 none [.setDataDevice (Device.full D) 32]), .own .left (.write 0 0 0),
        .deliver .right 0 false .quiet]).node .right).log := by
  obtain ⟨D, hD⟩ : ∃ D : Bytes, D.length = 2 ^ 31 := ⟨List.replicate (2 ^ 31) 0, List.length_replicate⟩
  refine ⟨D, hD, oversized_not_delivered Qt.storing .right 0 _ ?_⟩
  simp only [Along, Option.some.injEq, forall_eq']
  refine ⟨trivial, fun _ m hm _ => ?_, trivial, trivial⟩
  change (Protocol.fresh.step Qt.storing (.send 20 none [.setDataDevice (Device.full D) 32])).1.posted[0]? =
    some m at hm
  rw [step_sendLong] at hm
  obtain rfl : longItem D = m := Option.some.inj hm
  refine Or.inr ?_
  change Refused D.length
  rw [hD]
  exact ⟨le_rfl, Or.inr (by decide)⟩

end System

/-! ## A size that is not refused -/

namespace Protocol

variable {qt : Qt} {p : Protocol} {m : MessageItem} {d : Device} {now : TimePoint}

theorem addToWaiting_of_empty (h : p.waitingMessages = ∅) (time : TimePoint) (m : MessageItem) :
    p.addToWaiting time m =
      { p with waitingMessages := SortedMap.emplace ∅ time m, log := p.log ++ [.waiting m.uid time] } := by
  cases p
  cases h
  rfl

theorem write_first (hm : p.posted = [m]) (hwait : p.waitingMessages = ∅) (hd : m.dataDevice = some d)
    (h : (packedItem m d (p.assignId m).1 now).endTime > now) :
    (p.write qt 0 now now).1.waitingMessages.items =
        [(waitPoint (packedItem m d (p.assignId m).1 now) now, packedItem m d (p.assignId m).1 now)] ∧
      (p.write qt 0 now now).1.posted = [] ∧ (p.write qt 0 now now).1.hasWriter = p.hasWriter := by
  let q : Protocol := { p with posted := [] }
  have hid : (q.assignId m).1 = (p.assignId m).1 := by rw [assignId_posted]
  have hsent : (q.afterSent qt m d now).waitingMessages = ∅ := (waitingMessages_assignId q m).trans hwait
  have hrest : (q.assignId m).2.posted = [] ∧ (q.assignId m).2.hasWriter = p.hasWriter := by
    rw [assignId_posted]
    refine ⟨rfl, ?_⟩
    unfold assignId
    split <;> rfl
  have hw : (p.write qt 0 now now).1 = (preparePacketToSend qt q m now now).2 := by
    rw [write_of_posted (by rw [hm]; rfl), hm]
    rfl
  rw [hw, preparePacketToSend_some qt q hd, hid, if_pos h, addToWaiting_of_empty hsent]
  unfold addTimeoutAt
  split_ifs
  · exact ⟨rfl, hrest⟩
  · exact ⟨rfl, hrest⟩

theorem posted_of_query {pkt : Packet} {env : Env} {id : UInt8} {pos size : ℕ} {t : TimePoint}
    (hid : pkt.id = p.nextRxMsgId) (ho : pkt.Original) (hc : pkt.content qt = some (.fragmentQuery id pos size))
    (hwait : p.waitingMessages.items = [(t, m)]) (hm : m.id = some id) (hd : m.dataDevice = some d)
    (hpos : pos < d.size) (hw : p.hasWriter = true) (hposted : p.posted = []) :
    (p.step qt (.receive pkt env)).1.posted = [(m.setFragmentSize size).seek pos] := by
  have htest := acceptMessage_expected (p := p) env.now₁ hid ho
  have hread : (p.expected pkt).processAccepted qt env pkt =
      (p.expected pkt).dispatch env pkt.id pkt.cmd (.fragmentQuery id pos size) :=
    processAccepted_content hc (by simp)
  have hpop : ((p.expected pkt).popWaitingFragment id).1 = some m := by
    simp [popWaitingFragment, popWaitingMessage, SortedMap.extract, expected, emit, hwait, hm]
  simp only [step, internalProcessMessage, htest, if_true, hread, dispatch, processFragmentQuery, hpop, hd]
  simp [hpos, sendMessage, MessageItem.seek, MessageItem.setFragmentSize, hd, popWaitingFragment,
    popWaitingMessage, expected, emit, hw, hposted]

end Protocol

/-- What is sent of it: its size, as written with 32 bits, and its first bytes. -/
def firstPacket : Packet := ⟨0, 20, Flag.fragment, toBE 4 5 ++ (toBE 4 5 ++ toBE 4 32)⟩
def firstBytes : Packet := ⟨0, 20, Flag.fragment, toBE 4 5 ++ (toBE 4 0 ++ [0, 0, 0, 0, 0])⟩
def firstQuery : Packet := ⟨0, 20, Flag.fragmentQuery, Protocol.queryData 0 (0, 5)⟩

theorem packItem_fragment {m : MessageItem} {d : Device} {body : Bytes} (hbig : d.size > m.fragmentSize)
    (hf : m.flags = 0) (ha : m.answerId = none) (hbody : (packBody m d).1 = body)
    (hs : body.length ≤ m.minCompressSize) (qt : Qt) (id : UInt8) :
    Protocol.packItem qt m d id = ⟨id, m.cmd, Flag.fragment, body⟩ := by
  have hflags : packFlags m d = Flag.fragment := by
    rw [packFlags, if_pos hbig, hf, ha]
    rfl
  have hmod := Nat.mod_le body.length (2 ^ 32)
  rw [Protocol.packItem, hbody, hflags, compressBody, if_neg (by omega)]

namespace Protocol

variable {D : Bytes}

theorem size_gt_of_length (hD : D.length = 2 ^ 32 + 5) {m : MessageItem} {d : Device} (hm : m.fragmentSize = 32)
    (hd : d.data = D) : d.size > m.fragmentSize := by
  rw [hm, Device.size, hd, hD]
  decide

theorem packItem_firstPacket (qt : Qt) (hD : D.length = 2 ^ 32 + 5) :
    packItem qt (longItem D) (Device.full D) 0 = firstPacket := by
  have hbig : (Device.full D).size > (longItem D).fragmentSize := size_gt_of_length hD rfl rfl
  have hsize : (Device.full D).size = 2 ^ 32 + 5 := hD
  have hpos : (Device.full D).pos = 2 ^ 32 + 5 := hD
  have hfs : (longItem D).fragmentSize = 32 := rfl
  have hbody : (packBody (longItem D) (Device.full D)).1 = toBE 4 5 ++ (toBE 4 5 ++ toBE 4 32) := by
    rw [packBody_fragment hbig, Device.atEnd_eq_true.mpr rfl, if_pos rfl, hsize, hpos, hfs]
    rfl
  exact packItem_fragment hbig rfl rfl hbody (by change _ ≤ 512; decide) qt 0

/-- The item as it waits for the query. -/
def longWaiting (D : Bytes) : MessageItem := { longItem D with id := some 0, endTime := seconds 10 }

theorem packItem_firstBytes (qt : Qt) (hD : D.length = 2 ^ 32 + 5) (h0 : D.take 5 = [0, 0, 0, 0, 0]) :
    packItem qt (((longWaiting D).setFragmentSize 5).seek 0) ((Device.full D).seek 0) 0 = firstBytes := by
  have hdata : ((Device.full D).seek 0).data = D := Device.data_seek _ _
  have hsize : ((Device.full D).seek 0).size = 2 ^ 32 + 5 := by rw [Device.size, hdata, hD]
  have hpos : ((Device.full D).seek 0).pos = 0 := by rw [Device.seek, dif_pos (Nat.zero_le _)]
  have hfs : (((longWaiting D).setFragmentSize 5).seek 0).fragmentSize = 32 := rfl
  have hbig : ((Device.full D).seek 0).size > (((longWaiting D).setFragmentSize 5).seek 0).fragmentSize :=
    size_gt_of_length hD hfs hdata
  have hend : ((Device.full D).seek 0).atEnd = false := by
    rw [Bool.eq_false_iff, Ne, Device.atEnd_eq_true, hpos, hdata, hD]
    decide
  have hraw : (addRawData ((Device.full D).seek 0) 0 32).1 = [0, 0, 0, 0, 0] := by
    have hmin : min 32 ((2 ^ 32 + 5 - 0) % 2 ^ 32) = 5 := by decide
    simp only [addRawData, hdata, hsize, hmin, List.drop_zero, h0]
  have hbody : (packBody (((longWaiting D).setFragmentSize 5).seek 0) ((Device.full D).seek 0)).1 =
      toBE 4 5 ++ (toBE 4 0 ++ [0, 0, 0, 0, 0]) := by
    rw [packBody_fragment hbig, hend, if_neg Bool.false_ne_true, hsize, hpos, hfs, Nat.zero_mod, hraw]
    rfl
  exact packItem_fragment hbig rfl rfl hbody (by change _ ≤ 512; decide) qt 0

theorem posted_answered (qt : Qt) (hD : D.length = 2 ^ 32 + 5) :
    let p := ((longPosted D).write qt 0 0 0).1
    (p.step qt (.receive firstQuery .quiet)).1.posted = [((longWaiting D).setFragmentSize 5).seek 0] := by
  intro p
  have hbig : (Device.full D).size > (longItem D).fragmentSize := size_gt_of_length hD rfl rfl
  have hitem : packedItem (longItem D) (Device.full D) 0 0 = longWaiting D := by
    have hd : (packBody (longItem D) (Device.full D)).2 = Device.full D := by
      rw [packBody, if_pos hbig, if_pos (Device.atEnd_eq_true.mpr rfl)]
    rw [packedItem, hd, if_pos hbig]
    rfl
  have hw : p.waitingMessages.items = [(waitPoint (longWaiting D) 0, longWaiting D)] ∧ p.posted = [] ∧
      p.hasWriter = true := by
    have hlate : (packedItem (longItem D) (Device.full D) 0 0).endTime > 0 := by
      rw [hitem]
      change seconds 10 > 0
      decide
    rw [← hitem]
    exact write_first rfl rfl rfl hlate
  have hrx : p.nextRxMsgId = 0 := (sameRx_write qt _ 0 0 0).next
  have hq : firstQuery.content qt = some (.fragmentQuery 0 0 5) := rfl
  refine posted_of_query hrx.symm (by decide) hq hw.1 rfl rfl ?_ hw.2.2 hw.2.1
  rw [Device.size]
  change 0 < D.length
  omega

theorem write_longPosted (qt : Qt) (hD : D.length = 2 ^ 32 + 5) :
    ((longPosted D).write qt 0 0 0).2 = [firstPacket] := by
  have hd : (longItem D).dataDevice = some (Device.full D) := rfl
  rw [write_snd rfl hd]
  exact congrArg (fun x => [x]) (packItem_firstPacket qt hD)

theorem write_answered (qt : Qt) (hD : D.length = 2 ^ 32 + 5) (h0 : D.take 5 = [0, 0, 0, 0, 0]) {p : Protocol}
    (hp : p.posted = [((longWaiting D).setFragmentSize 5).seek 0]) : (p.write qt 0 0 0).2 = [firstBytes] := by
  have hd : (((longWaiting D).setFragmentSize 5).seek 0).dataDevice = some ((Device.full D).seek 0) := rfl
  rw [write_snd (by rw [hp]; rfl) hd]
  exact congrArg (fun x => [x]) (packItem_firstBytes qt hD h0)

theorem length_payload_answered (hD : D.length = 2 ^ 32 + 5) :
    (((longWaiting D).setFragmentSize 5).seek 0).payload.length = 2 ^ 32 + 5 := by
  change ((Device.full D).seek 0).data.length = 2 ^ 32 + 5
  rw [Device.data_seek]
  exact hD

end Protocol

namespace System

/-- A connection, from the objects and the packets in flight at its ends. -/
def both (l r : Protocol) (fl fr : List Packet) : System where
  node | .left => l | .right => r
  flight | .left => fl | .right => fr

variable {qt : Qt} {l r : Protocol} {fl fr : List Packet}

theorem eq_both {y : System} (h₁ : y.node .left = l) (h₂ : y.node .right = r) (h₃ : y.flight .left = fl)
    (h₄ : y.flight .right = fr) : y = both l r fl fr := by
  obtain ⟨node, flight⟩ := y
  unfold both
  congr 1
  · funext s
    cases s
    · exact h₁
    · exact h₂
  · funext s
    cases s
    · exact h₃
    · exact h₄

theorem act_left (a : Action) :
    (both l r fl fr).act qt .left a = both (l.step qt a).1 r fl (fr ++ (l.step qt a).2) :=
  eq_both rfl rfl rfl rfl

theorem act_right (a : Action) :
    (both l r fl fr).act qt .right a = both l (r.step qt a).1 (fl ++ (r.step qt a).2) fr :=
  eq_both rfl rfl rfl rfl

theorem deliver_left (pkt : Packet) (env : Env) :
    (both l r [pkt] fr).step qt (.deliver .left 0 false env) = both (l.step qt (.receive pkt env)).1 r [] fr :=
  eq_both rfl rfl rfl (List.append_nil fr)

theorem deliver_right (pkt : Packet) (env : Env) :
    (both l r fl [pkt]).step qt (.deliver .right 0 false env) = both l (r.step qt (.receive pkt env)).1 fl [] :=
  eq_both rfl rfl (List.append_nil fl) rfl

/-- The announcement, the query for the first part, and the fragment. -/
def longRun (D : Bytes) : List Move :=
  [.own .left (.send 20 none [.setDataDevice (Device.full D) 32]),
    .own .left (.write 0 0 0), .deliver .right 0 false .quiet,
    .own .right (.write 0 0 0), .deliver .left 0 false .quiet,
    .own .left (.write 0 0 0), .deliver .right 0 false .quiet]

open Protocol in
/-- **A size just above `2 ^ 32` passes the check**, and the first five bytes are handed over. -/
theorem truncated_delivered : ¬ ∀ (qt : Qt) (s : Side) (i : UInt8) (moves : List Move),
    Along (fun y mv => some (y.step qt mv)) (WritesUnder (fun size => 2 ^ 31 ≤ size) s.other i) fresh moves →
      ∀ data, (i, data) ∉ handovers ((fresh.run qt moves).node s).log := by
  intro h
  obtain ⟨D, hD, hzeros⟩ : ∃ D : Bytes, D.length = 2 ^ 32 + 5 ∧ D.take 5 = [0, 0, 0, 0, 0] :=
    ⟨List.replicate (2 ^ 32 + 5) 0, List.length_replicate, by rw [List.take_replicate]; decide⟩
  let L₂ := ((longPosted D).write Qt.storing 0 0 0).1
  let L₃ := (L₂.step Qt.storing (.receive firstQuery .quiet)).1
  let L₄ := (L₃.write Qt.storing 0 0 0).1
  let R₁ := (Protocol.fresh.step Qt.storing (.receive firstPacket .quiet)).1
  let R₂ := (R₁.write Qt.storing 0 0 0).1
  let R₃ := (R₂.step Qt.storing (.receive firstBytes .quiet)).1
  have h₁ : (both .fresh .fresh [] []).step Qt.storing
      (.own .left (.send 20 none [.setDataDevice (Device.full D) 32])) = both (longPosted D) .fresh [] [] := by
    rw [← step_sendLong Qt.storing D]
    exact act_left _
  have h₂ : (both (longPosted D) .fresh [] []).step Qt.storing (.own .left (.write 0 0 0)) =
      both L₂ .fresh [] [firstPacket] := by
    rw [← write_longPosted Qt.storing hD]
    exact act_left _
  have h₃ : (both L₂ .fresh [] [firstPacket]).step Qt.storing (.deliver .right 0 false .quiet) =
      both L₂ R₁ [] [] := deliver_right _ _
  have h₄ : (both L₂ R₁ [] []).step Qt.storing (.own .right (.write 0 0 0)) = both L₂ R₂ [firstQuery] [] := by
    have hsent : (R₁.write Qt.storing 0 0 0).2 = [firstQuery] := by decide
    rw [← hsent]
    exact act_right _
  have h₅ : (both L₂ R₂ [firstQuery] []).step Qt.storing (.deliver .left 0 false .quiet) =
      both L₃ R₂ [] [] := deliver_left _ _
  have hposted : L₃.posted = [((longWaiting D).setFragmentSize 5).seek 0] := posted_answered Qt.storing hD
  have h₆ : (both L₃ R₂ [] []).step Qt.storing (.own .left (.write 0 0 0)) = both L₄ R₂ [] [firstBytes] := by
    rw [← write_answered Qt.storing hD hzeros hposted]
    exact act_left _
  have h₇ : (both L₄ R₂ [] [firstBytes]).step Qt.storing (.deliver .right 0 false .quiet) =
      both L₄ R₃ [] [] := deliver_right _ _
  have hrun : fresh.run Qt.storing (longRun D) = both L₄ R₃ [] [] := by
    rw [longRun, show fresh = both .fresh .fresh [] [] from eq_both rfl rfl rfl rfl]
    simp only [run, List.foldl_cons, List.foldl_nil, h₁, h₂, h₃, h₄, h₅, h₆, h₇]
  have hwrites : Along (fun y mv => some (y.step Qt.storing mv))
      (WritesUnder (fun size => 2 ^ 31 ≤ size) .left 0) fresh (longRun D) := by
    rw [longRun, show fresh = both .fresh .fresh [] [] from eq_both rfl rfl rfl rfl]
    simp only [Along, Option.some.injEq, forall_eq', h₁, h₂, h₃, h₄, h₅, h₆]
    refine ⟨trivial, ?_, trivial, ?_, trivial, ?_, trivial, trivial⟩
    · intro _ m hm _
      obtain rfl : longItem D = m := Option.some.inj hm
      refine Or.inr ?_
      change 2 ^ 31 ≤ D.length
      rw [hD]
      decide
    · intro hs
      cases hs
    · intro _ m hm _
      change L₃.posted[0]? = some m at hm
      rw [hposted] at hm
      obtain rfl : ((longWaiting D).setFragmentSize 5).seek 0 = m := Option.some.inj hm
      refine Or.inr ?_
      change 2 ^ 31 ≤ _
      rw [length_payload_answered hD]
      decide
  refine h Qt.storing .right 0 (longRun D) hwrites [0, 0, 0, 0, 0] ?_
  rw [hrun]
  change (0, [0, 0, 0, 0, 0]) ∈ handovers R₃.log
  decide

end System

end HelpzNet
