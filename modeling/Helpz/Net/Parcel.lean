import Helpz.Net.Oversized
import Helpz.Net.Completion

/-!
# The two ends of a transfer

A message that is sent in parts, and what a packet of it, or about it, does to an end that has nothing else to do.

* `Parcel`: the message; `Offering`, `Offers`, `Withdrawn`: the sender before and after it has sent a packet of it,
  and when it has let go of it; `write_offering`, `step_query`, `step_report`;
* `brief`: what the ends send each other about it;
* `Gathers`, `Asks`, `Obtained`, `Reports`: the receiver while parts are missing, and when none is; `step_first`,
  `step_part`.
-/

namespace HelpzNet

open HelpzLib FragmentedMessage MessageItem

/-- A message that is sent in parts under an id. -/
structure Parcel where
  id : UInt8
  cmd : UInt8
  answerId : Option UInt8
  uid : ℕ
  answerFunc : Bool
  data : Bytes
  cmd_ne : cmd ≠ Cmd.removeFragment
  size_lt : data.length < 2 ^ 31

/-- The item holds the message. -/
structure MessageItem.Holds (m : MessageItem) (x : Parcel) : Prop where
  cmd : m.cmd = x.cmd
  answerId : m.answerId = x.answerId
  uid : m.uid = x.uid
  answerFunc : m.answerFunc = x.answerFunc
  flags : m.flags = 0
  device : ∃ d, m.dataDevice = some d ∧ d.data = x.data

/-- Where the device of the item stands. -/
def MessageItem.At (m : MessageItem) (pos : ℕ) : Prop := ∀ d, m.dataDevice = some d → d.pos = pos

namespace Protocol

variable {qt : Qt} {p : Protocol} {x : Parcel} {m : MessageItem} {pos size : ℕ} {now : TimePoint} {env : Env}
  {pkt : Packet} {data : Bytes}

/-! ## The sender -/

/-- The message waits alone for the queries. -/
structure Offers (p : Protocol) (x : Parcel) : Prop where
  waits : ∃ t m, p.waitingMessages.items = [(t, m)] ∧ m.Holds x ∧ m.id = some x.id
  posted : p.posted = []
  writer : p.hasWriter = true
  next : p.nextTxMsgId = x.id + 1

/-- The message is posted. -/
structure Offering (p : Protocol) (x : Parcel) (pos size : ℕ) : Prop where
  posted : ∃ m, p.posted = [m] ∧ m.Holds x ∧ m.At pos ∧ m.fragmentSize = size ∧
    (m.id = some x.id ∧ p.nextTxMsgId = x.id + 1 ∨ m.id = none ∧ p.nextTxMsgId = x.id)
  waits : p.waitingMessages = ∅
  writer : p.hasWriter = true

/-- The message was wholly received; it stays only to be answered. -/
structure Withdrawn (p : Protocol) (x : Parcel) : Prop where
  kept : x.answerFunc = true → ∃ t m, p.waitingMessages.items = [(t, m)] ∧ m.Holds x
  gone : x.answerFunc = false → p.waitingMessages = ∅ ∧ .destroyed x.uid .completed ∈ p.log
  writer : p.hasWriter = true

theorem nextTx_write (hm : p.posted = [m]) {d : Device} (hd : m.dataDevice = some d) (now₁ now₂ : TimePoint) :
    (p.write qt 0 now₁ now₂).1.nextTxMsgId = (p.assignId m).2.nextTxMsgId := by
  have hw := write_of_posted (show p.posted[0]? = some m by rw [hm]; rfl) qt now₁ now₂
  have heff := effects_prepare (C := fun _ => True) (fun _ _ => trivial) qt
    { p with posted := p.posted.eraseIdx 0 } hd now₁ now₂
  rw [hw, heff.nextTx, afterSent, assignId_posted]
  rfl

theorem Offering.sized (h : p.Offering x pos size) : 32 ≤ size ∧ size ≤ maxPacketDataSize := by
  obtain ⟨m, _, _, _, rfl, _⟩ := h.posted
  exact m.fragmentSize_mem

/-- **A posted message is sent**, and waits to be asked. -/
theorem write_offering (qt : Qt) (now : TimePoint) (h : p.Offering x pos size) (hsize : size < x.data.length) :
    (p.write qt 0 now now).1.Offers x ∧ ∃ pkt, (p.write qt 0 now now).2 = [pkt] ∧ pkt.id = x.id ∧
      pkt.cmd = x.cmd ∧ pkt.Original ∧ pkt.content qt = some (if pos = x.data.length
        then .fragment x.answerId x.data.length pos size []
        else .fragment x.answerId x.data.length pos 0 ((x.data.drop pos).take size)) := by
  obtain ⟨m, hposted, hm, hat, rfl, hid⟩ := h.posted
  obtain ⟨d, hd, hdata⟩ := hm.device
  obtain rfl := hat d hd
  have hlen : d.size = x.data.length := congrArg List.length hdata
  have hbig : d.size > m.fragmentSize := hlen ▸ hsize
  have hplain : m.PlainFlags := by
    constructor <;> rw [hm.flags, hasFlag_zero]
  have hassign : (p.assignId m).1 = x.id ∧ (p.assignId m).2.nextTxMsgId = x.id + 1 := by
    unfold assignId
    rcases hid with ⟨hid, hnext⟩ | ⟨hid, hnext⟩
    · simp only [hid, hnext, and_self]
    · simp only [hid, hnext, and_self]
  have hlate : (packedItem m d (p.assignId m).1 now).endTime > now := by
    rw [packedItem, if_pos hbig]
    exact lt_add_of_pos_right now (by decide)
  obtain ⟨hitems, hnone, hw⟩ := @write_first qt p m d now hposted h.waits hd hlate
  refine ⟨⟨⟨_, _, hitems, ?_, congrArg some hassign.1⟩, hnone, hw.trans h.writer, ?_⟩, ?_⟩
  · exact ⟨hm.cmd, hm.answerId, hm.uid, hm.answerFunc, hm.flags, _, rfl, (data_packBody m d).trans hdata⟩
  · rw [nextTx_write hposted hd, hassign.2]
  · refine ⟨_, write_snd (by rw [hposted]; rfl) hd now now, hassign.1, hm.cmd, ?_, ?_⟩
    · rw [Packet.Original, repeated_packItem, hm.flags, hasFlag_zero]
    · rw [content_packItem qt hplain, parseContent_packBody hplain (by rw [hm.flags, hasFlag_zero])
        (hm.cmd ▸ x.cmd_ne) (by rw [hlen]; exact x.size_lt.trans (by decide)), meaning, if_pos hbig, hlen, hdata,
        hm.answerId]

theorem step_expected {c : Content} (env : Env) (hid : pkt.id = p.nextRxMsgId) (ho : pkt.Original)
    (hc : pkt.content qt = some c) (hne : c ≠ .message []) :
    (p.step qt (.receive pkt env)).1 = ((p.expected pkt).dispatch env pkt.id pkt.cmd c).1 := by
  have htest := acceptMessage_expected (p := p) env.now₁ hid ho
  simp only [step, internalProcessMessage, htest, if_true, processAccepted_content hc hne]

theorem pop_offers (h : p.Offers x) : ∃ t m, p.waitingMessages.items = [(t, m)] ∧ m.Holds x ∧ m.id = some x.id ∧
    (p.popWaitingFragment x.id).1 = some m ∧ (p.popWaitingFragment x.id).2 = { p with waitingMessages := ∅ } := by
  obtain ⟨t, m, hitems, hm, hid⟩ := h.waits
  refine ⟨t, m, hitems, hm, hid, ?_, ?_⟩
  · simp [popWaitingFragment, popWaitingMessage, SortedMap.extract, hitems, hid]
  · simp only [popWaitingFragment, popWaitingMessage, SortedMap.extract, hitems]
    congr 1
    simp [hid]
    rfl


theorem Offers.expected (h : p.Offers x) (pkt : Packet) : (p.expected pkt).Offers x :=
  ⟨h.waits, h.posted, h.writer, h.next⟩

theorem at_seek (hm : m.Holds x) (h : pos ≤ x.data.length) : (m.seek pos).At pos := by
  obtain ⟨d, hd, hdata⟩ := hm.device
  intro d' hd'
  simp only [MessageItem.seek, hd, Option.map_some, Option.some.injEq] at hd'
  rw [← hd', Device.seek, dif_pos (by rwa [hdata])]

theorem holds_queried (hm : m.Holds x) (pos size : ℕ) : ((m.setFragmentSize size).seek pos).Holds x := by
  obtain ⟨d, hd, hdata⟩ := hm.device
  refine ⟨hm.cmd, hm.answerId, hm.uid, hm.answerFunc, hm.flags, d.seek pos, ?_, (Device.data_seek d pos).trans hdata⟩
  simp only [MessageItem.seek, MessageItem.setFragmentSize, hd, Option.map_some]

/-- **A query for a part posts the message again.** -/
theorem step_query (env : Env) (h : p.Offers x) (hid : pkt.id = p.nextRxMsgId) (ho : pkt.Original)
    (hc : pkt.content qt = some (.fragmentQuery x.id pos size)) (hpos : pos < x.data.length) :
    (p.step qt (.receive pkt env)).1.Offering x pos (clampFragmentSize size) ∧
      (p.step qt (.receive pkt env)).1.nextRxMsgId = pkt.id + 1 := by
  obtain ⟨t, m, _, hm, hmid, hfound, hrest⟩ := pop_offers (h.expected pkt)
  obtain ⟨d, hd, hdata⟩ := hm.device
  have hin : m.dataDevice.any (fun d => decide (pos < d.size)) = true := by
    rw [hd, Option.any_some, decide_eq_true_eq, Device.size, hdata]
    exact hpos
  have hq := holds_queried hm pos size
  obtain ⟨d', hd', _⟩ := hq.device
  have hsend : ((m.setFragmentSize size).seek pos).dataDevice.isSome = true := by
    rw [hd']
    rfl
  have hmsg : ((p.expected pkt).processFragmentQuery x.id pos size) =
      { p.expected pkt with waitingMessages := ∅, posted := [(m.setFragmentSize size).seek pos] } := by
    simp only [processFragmentQuery, hfound, hrest, hin, if_true, sendMessage, hsend, (h.expected pkt).writer,
      Bool.and_self, (h.expected pkt).posted, List.nil_append]
  rw [step_expected env hid ho hc (by simp), dispatch, hmsg]
  refine ⟨⟨⟨_, rfl, hq, ?_, rfl, Or.inl ⟨hmid, h.next⟩⟩, rfl, h.writer⟩, rfl⟩
  have hm' : (m.setFragmentSize size).Holds x := ⟨hm.cmd, hm.answerId, hm.uid, hm.answerFunc, hm.flags, hm.device⟩
  exact at_seek hm' (le_of_lt hpos)

/-! ## Messages of the protocol itself -/

/-- A message without an answer id or a deadline, as the protocol sends it. -/
def brief (uid : ℕ) (cmd flags : UInt8) (data : Bytes) : MessageItem :=
  { MessageItem.new uid cmd none with flags := flags, dataDevice := some (Device.full data) }

theorem send_brief (hw : p.hasWriter = true) (cmd flags : UInt8) (data : Bytes) :
    p.send cmd none flags data =
      { p with
        alloc := p.alloc + 1
        log := p.log ++ [.created (brief p.alloc cmd flags data)]
        posted := p.posted ++ [brief p.alloc cmd flags data] } := by
  have hseek : (brief p.alloc cmd flags data).seek (brief p.alloc cmd flags data).payload.length =
      brief p.alloc cmd flags data := by
    change { brief p.alloc cmd flags data with dataDevice := some ((Device.full data).seek data.length) } =
      brief p.alloc cmd flags data
    rw [Device.seek_full]
    rfl
  change p.sendItem (brief p.alloc cmd flags data) = _
  simp only [sendItem, hw, if_true, hseek, sendMessage]
  rfl

theorem write_brief (qt : Qt) {uid : ℕ} {cmd flags : UInt8} (hposted : p.posted = [brief uid cmd flags data])
    (hd : data.length ≤ 32) (hnow : 0 ≤ now) : (p.write qt 0 now now).1.posted = [] ∧
      (p.write qt 0 now now).1.waitingMessages = p.waitingMessages ∧
      (p.write qt 0 now now).1.hasWriter = p.hasWriter ∧
      (p.write qt 0 now now).1.nextTxMsgId = p.nextTxMsgId + 1 ∧ p.log <+: (p.write qt 0 now now).1.log ∧
      (p.write qt 0 now now).2 = [packItem qt (brief uid cmd flags data) (Device.full data) p.nextTxMsgId] := by
  have hdev : (brief uid cmd flags data).dataDevice = some (Device.full data) := rfl
  have hsmall : ¬ (Device.full data).size > (brief uid cmd flags data).fragmentSize := by
    change ¬ data.length > maxMessageDataSize
    unfold maxMessageDataSize maxPacketDataSize maxUdpPacketSize
    omega
  have hw := write_of_posted (show p.posted[0]? = some (brief uid cmd flags data) by rw [hposted]; rfl) qt now now
  have hdead : ¬ (packedItem (brief uid cmd flags data) (Device.full data) p.nextTxMsgId now).endTime > now := by
    rw [packedItem, if_neg hsmall]
    exact not_lt.mpr hnow
  rw [hw, preparePacketToSend_some qt _ hdev]
  simp only [assignId, show (brief uid cmd flags data).id = none from rfl, if_neg hdead, hposted]
  refine ⟨rfl, rfl, rfl, rfl, ?_, write_snd (by rw [hposted]; rfl) hdev now now⟩
  simp only [afterSent, assignId, emit, show (brief uid cmd flags data).id = none from rfl, List.append_assoc]
  exact List.prefix_append _ _

theorem content_brief (qt : Qt) (uid : ℕ) (cmd : UInt8) {flags : UInt8} (hd : data.length ≤ 32)
    (hf : flags = 0 ∨ flags = Flag.fragmentQuery) (id : UInt8) :
    (packItem qt (brief uid cmd flags data) (Device.full data) id).content qt = parseContent cmd flags data ∧
      (packItem qt (brief uid cmd flags data) (Device.full data) id).Original := by
  have hplain : (brief uid cmd flags data).PlainFlags := by
    constructor <;> change hasFlag flags _ = false <;> rcases hf with rfl | rfl <;> decide
  have hsmall : ¬ (Device.full data).size > (brief uid cmd flags data).fragmentSize := by
    change ¬ data.length > maxMessageDataSize
    unfold maxMessageDataSize maxPacketDataSize maxUdpPacketSize
    omega
  have hsize : (Device.full data).size < 2 ^ 32 := lt_of_le_of_lt hd (by decide)
  have hbody : (packBody (brief uid cmd flags data) (Device.full data)).1 = data := by
    rw [packBody_fst _ _ hsize, if_neg hsmall]
    rfl
  have hflags : packFlags (brief uid cmd flags data) (Device.full data) = flags := by
    rw [packFlags, if_neg hsmall]
    change flags ||| 0 ||| 0 = flags
    rw [UInt8.or_zero, UInt8.or_zero]
  refine ⟨?_, ?_⟩
  · rw [content_packItem qt hplain, hbody, hflags]
    rfl
  · rw [Packet.Original, repeated_packItem]
    change hasFlag flags Flag.repeated = false
    rcases hf with rfl | rfl <;> decide

/-- **The query for the end of the message** makes the sender let go of it. -/
theorem step_report (env : Env) (h : p.Offers x) (hid : pkt.id = p.nextRxMsgId) (ho : pkt.Original)
    (hc : pkt.content qt = some (.fragmentQuery x.id x.data.length size)) :
    (p.step qt (.receive pkt env)).1.Withdrawn x ∧
      (∃ uid, (p.step qt (.receive pkt env)).1.posted = [brief uid Cmd.removeFragment 0 [x.id]]) ∧
      (p.step qt (.receive pkt env)).1.nextTxMsgId = x.id + 1 := by
  have he := h.expected pkt
  obtain ⟨t, m, _, hm, hmid, hfound, hrest⟩ := pop_offers he
  obtain ⟨d, hd, hdata⟩ := hm.device
  have hout : m.dataDevice.any (fun d => decide (x.data.length < d.size)) = false := by
    rw [hd, Option.any_some, decide_eq_false_iff_not, Device.size, hdata]
    exact lt_irrefl _
  rw [step_expected env hid ho hc (by simp), dispatch]
  simp only [processFragmentQuery, hfound, hrest, hout, Bool.false_eq_true, if_false, refuseFragmentQuery]
  by_cases ha : m.answerFunc = true
  · have hxa : x.answerFunc = true := hm.answerFunc.symm.trans ha
    rw [if_pos ha, addToWaiting_of_empty rfl, send_brief (by exact he.writer)]
    refine ⟨⟨fun _ => ⟨m.endTime, m, rfl, hm⟩, fun hf => ?_, he.writer⟩, ⟨(p.expected pkt).alloc, ?_⟩, he.next⟩
    · rw [hxa] at hf
      cases hf
    · simp only [he.posted, List.nil_append]
  · have hxa : x.answerFunc = false := hm.answerFunc.symm.trans (Bool.not_eq_true _ ▸ ha)
    rw [if_neg ha, send_brief (by exact he.writer)]
    refine ⟨⟨fun hf => ?_, fun _ => ⟨rfl, ?_⟩, he.writer⟩, ⟨(p.expected pkt).alloc, ?_⟩, he.next⟩
    · rw [hxa] at hf
      cases hf
    · rw [← hm.uid]
      exact List.mem_append_right _ List.mem_cons_self
    · simp only [emit, he.posted, List.nil_append]

theorem Withdrawn.congr {q : Protocol} (h : p.Withdrawn x) (hwait : q.waitingMessages = p.waitingMessages)
    (hlog : p.log <+: q.log) (hw : q.hasWriter = p.hasWriter) : q.Withdrawn x := by
  refine ⟨fun ha => ?_, fun ha => ?_, hw.trans h.writer⟩
  · rw [hwait]
    exact h.kept ha
  · rw [hwait]
    exact (h.gone ha).imp_right fun hmem => hlog.subset hmem

theorem write_withdrawn (qt : Qt) {uid : ℕ} (h : p.Withdrawn x)
    (hposted : p.posted = [brief uid Cmd.removeFragment 0 [x.id]]) (hnow : 0 ≤ now) :
    (p.write qt 0 now now).1.Withdrawn x ∧ (p.write qt 0 now now).1.posted = [] ∧
      ∃ pkt, (p.write qt 0 now now).2 = [pkt] ∧ pkt.id = p.nextTxMsgId ∧ pkt.Original ∧
        pkt.content qt = some (.removeFragment x.id) := by
  have hlen : [x.id].length ≤ 32 := Nat.le_add_left 1 31
  obtain ⟨hnil, hwait, hw, _, hlog, hpkts⟩ := write_brief qt hposted hlen hnow
  obtain ⟨hc, ho⟩ := content_brief qt uid Cmd.removeFragment hlen (Or.inl rfl) p.nextTxMsgId
  exact ⟨h.congr hwait hlog hw, hnil, _, hpkts, rfl, ho, hc⟩

/-! ## The receiver -/

/-- The first `pos` bytes have come, the last of them at time `t`. -/
structure Gathers (p : Protocol) (x : Parcel) (pos size : ℕ) (t : TimePoint) : Prop where
  entry : ∃ e, p.fragmentedMessages x.id = some e ∧ Collects x.data e ∧ e.partVect = [(pos, x.data.length)] ∧
    e.maxFragmentSize = size ∧ e.isOpen = false
  pos_lt : pos < x.data.length
  lost : p.lostMsgList x.id = some t
  next : p.nextRxMsgId = x.id + 1
  writer : p.hasWriter = true

/-- The part behind them is asked for. -/
structure Asks (p : Protocol) (x : Parcel) (pos size : ℕ) (t : TimePoint) : Prop extends
    p.Gathers x pos size t where
  posted : ∃ uid, p.posted = [brief uid x.cmd Flag.fragmentQuery (queryData x.id (pos, min size (x.data.length - pos)))]

/-- The message was handed over. -/
structure Obtained (p : Protocol) (x : Parcel) : Prop where
  entry : p.fragmentedMessages x.id = none
  next : p.nextRxMsgId = x.id + 1
  writer : p.hasWriter = true

/-- This is reported. -/
structure Reports (p : Protocol) (x : Parcel) : Prop extends p.Obtained x where
  posted : ∃ uid size, p.posted = [brief uid x.cmd Flag.fragmentQuery (queryData x.id (x.data.length, size))]

theorem accepts_again (ho : pkt.Original) (h : p.nextRxMsgId = pkt.id + 1)
    (hlost : ∀ t, p.lostMsgList pkt.id = some t → env.now₁ ≤ t + seconds 10) :
    p.accepts pkt env = true ∧ (p.afterTest pkt env).nextRxMsgId = pkt.id + 1 ∧
      (p.afterTest pkt env).fragmentedMessages pkt.id = p.fragmentedMessages pkt.id := by
  have hrep : hasFlag pkt.flags Flag.repeated = false := ho
  unfold accepts afterTest
  set q := p.emit [.internalProcessMessage pkt] with hq
  by_cases hold : q.MaybeLost pkt.id pkt.flags
  · rw [acceptMessage_lost env.now₁ hold, hrep, isLostMessage]
    cases q.lostMsgList pkt.id with
    | none => exact ⟨rfl, h, rfl⟩
    | some t => exact ⟨Bool.or_true (decide (env.now₁ - t < seconds 10)), h, rfl⟩
  · -- only the last id is not below the next one
    have hgap : q.Gap pkt.id := by
      have hnext : q.nextRxMsgId = pkt.id + 1 := h
      have hlt := pkt.id.toNat_lt
      unfold MaybeLost at hold
      unfold Gap
      rw [hrep, hnext, UInt8.toNat_add] at hold
      rw [hnext, UInt8.toNat_add]
      have h1 : (1 : UInt8).toNat = 1 := rfl
      simp only [Bool.false_eq_true, false_or, h1] at hold ⊢
      omega
    rw [acceptMessage_gap env.now₁ hold hgap]
    refine ⟨rfl, rfl, ?_⟩
    have hkeep : (q.lostMsgList pkt.id).any (isStale env.now₁ pkt.id pkt.id) = false := by
      cases hl : q.lostMsgList pkt.id with
      | none => rfl
      | some t =>
          have htime : ¬ env.now₁ - seconds 10 > t := not_lt.mpr (Int.sub_right_le_of_le_add (hlost t hl))
          simp only [Option.any_some, isStale, decide_eq_false htime, gt_iff_lt, lt_self_iff_false, decide_false,
            Bool.and_false, Bool.or_false]
    change (if (q.lostMsgList pkt.id).any (isStale env.now₁ pkt.id pkt.id) = true then none
      else q.fragmentedMessages pkt.id) = _
    rw [hkeep]
    rfl

theorem getNextPart_single {e : FragmentedMessage} {stop : ℕ} (h : e.partVect = [(pos, stop)]) :
    e.getNextPart = (pos, min e.maxFragmentSize (stop - pos)) := by
  simp only [FragmentedMessage.getNextPart, h]
  split_ifs with hgt
  · rw [min_eq_left (le_of_lt hgt)]
  · rw [min_eq_right (not_lt.mp hgt)]

theorem asks_continueFragment {e : FragmentedMessage} (now : TimePoint) (hw : p.hasWriter = true)
    (hposted : p.posted = []) (hnext : p.nextRxMsgId = x.id + 1) (he : Collects x.data e)
    (hparts : e.partVect = [(pos, x.data.length)])
    (hpos : pos < x.data.length) :
    (p.continueFragment now x.id x.cmd e).Asks x pos (growFragmentSize e.maxFragmentSize) now := by
  have hpart : (nextEntry e now).getNextPart = (pos, min (growFragmentSize e.maxFragmentSize) (x.data.length - pos)) :=
    getNextPart_single hparts
  set q : Protocol := { p.setFragment x.id (nextEntry e now) with
    lostMsgList := Function.update p.lostMsgList x.id (some now) } with hq
  have hsent : p.continueFragment now x.id x.cmd e =
      (q.emit [.addTimeoutAt (now + milliseconds 1505) .fragment]).send x.cmd none Flag.fragmentQuery
        (queryData x.id (pos, min (growFragmentSize e.maxFragmentSize) (x.data.length - pos))) := by
    rw [← hpart, hq]
    exact congrArg (fun r : Protocol => r.send x.cmd none Flag.fragmentQuery _) (if_pos hw)
  rw [hsent, send_brief (by exact hw)]
  refine ⟨⟨⟨nextEntry e now, Function.update_self _ _ _, ⟨he.parts, he.bound, he.agrees⟩, hparts, rfl, rfl⟩, hpos,
    Function.update_self _ _ _, hnext, hw⟩, ⟨p.alloc, ?_⟩⟩
  change p.posted ++ _ = _
  rw [hposted]
  rfl

theorem posted_deliverFragmented (p : Protocol) (msgId cmd : UInt8) (a : Option UInt8) (data : Bytes) (throws : Bool) :
    (p.deliverFragmented msgId cmd a data throws).posted = p.posted := by
  cases a with
  | none => rfl
  | some a =>
      simp only [deliverFragmented]
      split
      · rfl
      · split_ifs <;> rfl

theorem reports_completeFragment {e : FragmentedMessage} (hw : p.hasWriter = true)
    (hposted : p.posted = []) (hnext : p.nextRxMsgId = x.id + 1) (hreturns : env.throws = false) :
    (p.completeFragment env x.id x.cmd x.answerId x.data.length e).1.Reports x ∧
      handovers (p.completeFragment env x.id x.cmd x.answerId x.data.length e).1.log =
        handovers p.log ++ [(x.id, e.data)] := by
  have hrx := p.completeFragment_rx env x.id x.cmd x.answerId x.data.length e
  set q := (p.setFragment x.id e).deliverFragmented x.id x.cmd x.answerId e.data env.throws with hq
  have hqw : q.hasWriter = true :=
    (effects_deliverFragmented (C := fun _ => True) (fun _ _ => trivial) _ _ _ _ _ _).hasWriter.trans hw
  have hqp : q.posted = [] := (posted_deliverFragmented _ _ _ _ _ _).trans hposted
  have hsent : (p.completeFragment env x.id x.cmd x.answerId x.data.length e).1 =
      (q.eraseFragment x.id).send x.cmd none Flag.fragmentQuery
        (queryData x.id (x.data.length, e.maxFragmentSize)) := by
    simp only [completeFragment, hreturns, Bool.false_eq_true, if_false, hq]
  refine ⟨⟨⟨?_, hrx.next.trans hnext, ?_⟩, ⟨q.alloc, e.maxFragmentSize, ?_⟩⟩, hrx.handed⟩
  · rw [hrx.frag, hreturns]
    exact Function.update_self _ _ _
  · rw [hsent, send_brief (by exact hqw)]
    exact hqw
  · rw [hsent, send_brief (by exact hqw)]
    change q.posted ++ _ = _
    rw [hqp]
    rfl

theorem step_again {c : Content} (ho : pkt.Original) (h : p.nextRxMsgId = pkt.id + 1)
    (hlost : ∀ t, p.lostMsgList pkt.id = some t → env.now₁ ≤ t + seconds 10) (hc : pkt.content qt = some c)
    (hne : c ≠ .message []) :
    (p.step qt (.receive pkt env)).1 = ((p.afterTest pkt env).dispatch env pkt.id pkt.cmd c).1 := by
  rw [step_receive, if_pos (accepts_again ho h hlost).1, processAccepted_content hc hne]

/-- **The first packet starts the transfer.** -/
theorem step_first (hw : p.hasWriter = true) (hposted : p.posted = [])
    (hnone : p.fragmentedMessages x.id = none) (hid : pkt.id = x.id) (hnext : p.nextRxMsgId = x.id)
    (hcmd : pkt.cmd = x.cmd) (ho : pkt.Original) (hopens : env.openFails = false) (hpos : 0 < x.data.length)
    (hsize : 1 ≤ size ∧ size ≤ maxPacketDataSize)
    (hc : pkt.content qt = some (.fragment x.answerId x.data.length x.data.length size [])) :
    (p.step qt (.receive pkt env)).1.Asks x 0 (growFragmentSize size) env.now₂ ∧
      handovers (p.step qt (.receive pkt env)).1.log = handovers p.log := by
  have hentry : (p.expected pkt).fragmentEntry x.id x.cmd size x.data.length =
      FragmentedMessage.new x.id x.cmd size x.data.length := by
    unfold fragmentEntry
    rw [show (p.expected pkt).fragmentedMessages x.id = none from hnone, Option.getD_none, if_neg (by omega)]
  have hfull : ¬ x.data.length ≥ protocolMaxMessageSize := not_le.mpr x.size_lt
  have hne : x.data ≠ [] := List.length_pos_iff.mp hpos
  set e := { FragmentedMessage.new x.id x.cmd size x.data.length with isOpen := true } with he
  have hsent : ((p.expected pkt).processFragment env x.id x.cmd x.answerId x.data.length x.data.length size []).1 =
      (p.expected pkt).continueFragment env.now₂ x.id x.cmd e := by
    simp only [processFragment, if_neg hfull, hentry, hopens, FragmentedMessage.new, Bool.and_false, Bool.or_self,
      Bool.false_eq_true, if_false, addFragment, if_true, isPartsEmpty, List.isEmpty_cons, he]
  have hcol : Collects x.data e := by
    have hnew := collects_new x.id x.cmd size hne
    exact ⟨hnew.parts, hnew.bound, hnew.agrees⟩
  rw [step_expected env (hid.trans hnext.symm) ho hc (by simp), hid, hcmd, dispatch, hsent]
  have hrx := (p.expected pkt).continueFragment_rx env.now₂ x.id x.cmd e
  refine ⟨asks_continueFragment env.now₂ hw hposted (congrArg (· + 1) hid) hcol rfl hpos, hrx.handed.trans ?_⟩
  simp [expected, emit, setFragment, handovers, Event.handover]

theorem partVect_addData {e : FragmentedMessage} {n : ℕ} (h : e.partVect = [(pos, x.data.length)])
    (hpos : pos < x.data.length) (hn : 0 < n) (hle : pos + n ≤ x.data.length) :
    (e.addData pos ((x.data.drop pos).take n)).partVect =
      if pos + n < x.data.length then [(pos + n, x.data.length)] else [] := by
  have hlen : ((x.data.drop pos).take n).length = n := by
    rw [List.length_take, List.length_drop]
    omega
  have hmod : (pos + n) % 2 ^ 32 = pos + n := Nat.mod_eq_of_lt (by have := x.size_lt; omega)
  simp only [FragmentedMessage.addData, hlen, hmod, h, removeFromPartVect]
  split_ifs <;> first | omega | rfl

/-- **Each part brings the transfer further**, and the last one completes it. -/
theorem step_part {t : TimePoint} (h : p.Gathers x pos size t) (hposted : p.posted = [])
    (hid : pkt.id = x.id) (hcmd : pkt.cmd = x.cmd) (ho : pkt.Original) (hopens : env.openFails = false)
    (hreturns : env.throws = false) (htime : env.now₁ ≤ t + seconds 10) (hsize : 0 < size)
    (hc : pkt.content qt = some (.fragment x.answerId x.data.length pos 0
      ((x.data.drop pos).take (min size (x.data.length - pos))))) :
    (pos + size < x.data.length →
      (p.step qt (.receive pkt env)).1.Asks x (pos + size) (growFragmentSize size) env.now₂ ∧
      handovers (p.step qt (.receive pkt env)).1.log = handovers p.log) ∧
    (x.data.length ≤ pos + size → (p.step qt (.receive pkt env)).1.Reports x ∧
      handovers (p.step qt (.receive pkt env)).1.log = handovers p.log ++ [(x.id, x.data)]) := by
  obtain ⟨e, hentry, hcol, hparts, hmax, hclosed⟩ := h.entry
  have hpos := h.pos_lt
  have hnext : p.nextRxMsgId = pkt.id + 1 := hid ▸ h.next
  have hlost : ∀ t', p.lostMsgList pkt.id = some t' → env.now₁ ≤ t' + seconds 10 := by
    intro t' ht'
    rw [hid, h.lost] at ht'
    exact Option.some.inj ht' ▸ htime
  obtain ⟨_, hafter, hkept⟩ := accepts_again ho hnext hlost
  have heff := effects_afterTest (C := fun _ => True) (fun _ _ => trivial) p pkt env trivial
  set q := p.afterTest pkt env with hq
  have hqposted : q.posted = [] := by
    obtain ⟨_, _, _, _, hframe, _⟩ :=
      (p.emit [.internalProcessMessage pkt]).acceptMessage_frame env.now₁ pkt.id pkt.flags
    rw [hq, afterTest, hframe]
    exact hposted
  have hqw : q.hasWriter = true := heff.hasWriter.trans h.writer
  have hqnext : q.nextRxMsgId = x.id + 1 := hafter.trans (congrArg (· + 1) hid)
  set n := min size (x.data.length - pos) with hn
  have hnpos : 0 < n := lt_min hsize (by omega)
  have hle : pos + n ≤ x.data.length := by omega
  have hdata : (x.data.drop pos).take n ≠ [] := by
    rw [← List.length_pos_iff, List.length_take, List.length_drop]
    omega
  have hqentry : q.fragmentEntry x.id x.cmd 0 x.data.length = e := by
    rw [fragmentEntry, ← hid, hkept, hid, hentry, Option.getD_some]
  set e' := { e with isOpen := true }.addData pos ((x.data.drop pos).take n) with he'
  have hcol' : Collects x.data e' :=
    Collects.addData (m := { e with isOpen := true }) ⟨hcol.parts, hcol.bound, hcol.agrees⟩ hnpos hle
      (x.size_lt.trans (by decide))
  have hparts' : e'.partVect = if pos + n < x.data.length then [(pos + n, x.data.length)] else [] :=
    partVect_addData (e := { e with isOpen := true }) hparts hpos hnpos hle
  have hfull : ¬ x.data.length ≥ protocolMaxMessageSize := not_le.mpr x.size_lt
  have hadd : addFragment e pos ((x.data.drop pos).take n) = e' := if_neg hdata
  have hsent : q.processFragment env x.id x.cmd x.answerId x.data.length pos 0 ((x.data.drop pos).take n) =
      if e'.isPartsEmpty then q.completeFragment env x.id x.cmd x.answerId x.data.length e'
      else (q.continueFragment env.now₂ x.id x.cmd e', false) := by
    simp only [processFragment, if_neg hfull, hqentry, hopens, hclosed, Bool.and_false, Bool.or_self,
      Bool.false_eq_true, if_false, hadd]
  have hstep : (p.step qt (.receive pkt env)).1 =
      (q.processFragment env x.id x.cmd x.answerId x.data.length pos 0 ((x.data.drop pos).take n)).1 := by
    rw [step_again ho hnext hlost hc (by simp), hid, hcmd, dispatch]
  have hhanded : handovers q.log = handovers p.log := handovers_afterTest p pkt env
  rw [hstep, hsent]
  refine ⟨fun hlt => ?_, fun hge => ?_⟩
  · have hns : n = size := by omega
    have hparts'' : e'.partVect = [(pos + size, x.data.length)] := by
      rw [hparts', hns, if_pos hlt]
    have hmiss : e'.isPartsEmpty = false := by
      rw [isPartsEmpty, hparts'']
      rfl
    rw [hmiss, if_neg Bool.false_ne_true]
    have hrx := q.continueFragment_rx env.now₂ x.id x.cmd e'
    refine ⟨?_, hrx.handed.trans hhanded⟩
    have hasks := asks_continueFragment env.now₂ hqw hqposted hqnext hcol' hparts'' hlt
    rwa [show e'.maxFragmentSize = size from hmax] at hasks
  · have hempty : e'.isPartsEmpty = true := by
      rw [isPartsEmpty, hparts', if_neg (by omega)]
      rfl
    rw [if_pos hempty]
    have hrep := reports_completeFragment (e := e') hqw hqposted hqnext hreturns
    rwa [hcol'.eq hempty, hhanded] at hrep

theorem write_query (qt : Qt) {uid : ℕ}
    (hposted : p.posted = [brief uid x.cmd Flag.fragmentQuery (queryData x.id (pos, size))]) (hnow : 0 ≤ now) :
    (p.write qt 0 now now).1.posted = [] ∧
      (p.write qt 0 now now).1.hasWriter = p.hasWriter ∧
      (p.write qt 0 now now).1.nextTxMsgId = p.nextTxMsgId + 1 ∧
      ∃ pkt, (p.write qt 0 now now).2 = [pkt] ∧ pkt.id = p.nextTxMsgId ∧ pkt.Original ∧
        pkt.content qt = some (.fragmentQuery x.id (pos % 2 ^ 32) (size % 2 ^ 32)) := by
  have hlen : (queryData x.id (pos, size)).length ≤ 32 := by
    rw [queryData, List.length_cons, List.length_append, length_toBE, length_toBE]
    decide
  obtain ⟨hnil, _, hw, hnext, _, hpkts⟩ := write_brief qt hposted hlen hnow
  obtain ⟨hc, ho⟩ := content_brief qt uid x.cmd hlen (Or.inr rfl) p.nextTxMsgId
  refine ⟨hnil, hw, hnext, _, hpkts, rfl, ho, hc.trans ?_⟩
  unfold parseContent
  rw [if_neg x.cmd_ne, if_pos (by decide), parseFragmentQuery_queryData]

theorem take_clamp (hsize : 32 ≤ size ∧ size ≤ maxPacketDataSize) :
    (data.drop pos).take (clampFragmentSize (min size (data.length - pos))) =
      (data.drop pos).take (min size (data.length - pos)) := by
  have hlen : (data.drop pos).length = data.length - pos := List.length_drop
  by_cases h : 32 ≤ min size (data.length - pos)
  · have hmax : ¬ min size (data.length - pos) > maxPacketDataSize := by omega
    rw [clampFragmentSize, if_neg (not_lt.mpr h), if_neg hmax]
  · rw [clampFragmentSize, if_pos (not_le.mp h), List.take_of_length_le (by omega), List.take_of_length_le (by omega)]

end Protocol

end HelpzNet
