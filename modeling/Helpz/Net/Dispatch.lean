import Helpz.Net.Wire

/-!
# Processing a packet

`internal_process_message`: the acceptance test, the parsing and what is done with each content.
The result is the state afterwards and whether the call ends in an exception, which
`process_stream` catches: what was done before stays done.
-/

namespace HelpzNet

open HelpzLib

namespace Protocol

/-- Call the answer function of an item taken from the waiting list; the item dies afterwards, with
its answer function reset unless it threw. -/
def callAnswerFunc (p : Protocol) (m : MessageItem) (msgId cmd : UInt8) (data : Bytes)
    (throws : Bool) : Protocol :=
  p.emit (.answerFunc m.uid msgId cmd data throws ::
    MessageItem.destroy { m with answerFunc := throws } .answered)

/-- The handler of a complete message. An answer goes to the item that waits for it, or else to
`process_answer_message`; an item without an answer function is dropped there. -/
def deliverFragmented (p : Protocol) (msgId cmd : UInt8) (answerId : Option UInt8) (data : Bytes)
    (throws : Bool) : Protocol :=
  match answerId with
  | none => p.emit [.processMessage msgId cmd data throws]
  | some a =>
      let r := p.popWaitingAnswer a cmd
      match r.1 with
      | none => r.2.emit [.processAnswerMessage msgId cmd data throws]
      | some m =>
          if m.answerFunc then r.2.callAnswerFunc m msgId cmd data throws
          else r.2.emit (.processAnswerMessage msgId cmd data throws :: m.destroy .answered)

/-- The branch of a fragment that leaves no part missing. The query that reports completion is sent
when the sender goes out of scope, also when the handler throws; the entry stays in that case. -/
def completeFragment (p : Protocol) (env : Env) (msgId cmd : UInt8) (answerId : Option UInt8)
    (fullSize : ℕ) (m : FragmentedMessage) : Protocol × Bool :=
  let q := (p.setFragment msgId m).deliverFragmented msgId cmd answerId m.data env.throws
  let q := if env.throws then q else q.eraseFragment msgId
  (q.send cmd none Flag.fragmentQuery (queryData msgId (fullSize, m.maxFragmentSize)), env.throws)

/-- The fragment size asked for next: a fifth more, up to the limit. -/
def growFragmentSize (size : ℕ) : ℕ :=
  if size < maxMessageDataSize then min (size + size / 5) maxMessageDataSize else size

/-- The branch of a fragment after which parts are still missing: ask for the next one. -/
def continueFragment (p : Protocol) (now : TimePoint) (msgId cmd : UInt8) (m : FragmentedMessage) :
    Protocol :=
  let m := { m with
    isOpen := false, lastPartTime := now, maxFragmentSize := growFragmentSize m.maxFragmentSize }
  let q := { p.setFragment msgId m with lostMsgList := Function.update p.lostMsgList msgId (some now) }
  (q.addTimeoutAt (now + milliseconds 1505) .fragment).send cmd none Flag.fragmentQuery
    (queryData msgId m.getNextPart)

/-- The entry a fragment belongs to; it is made when there is none. -/
def fragmentEntry (p : Protocol) (msgId cmd : UInt8) (maxFragmentSize fullSize : ℕ) :
    FragmentedMessage :=
  (p.fragmentedMessages msgId).getD (FragmentedMessage.new msgId cmd
    (if maxFragmentSize = 0 ∨ maxFragmentSize > maxPacketDataSize then maxMessageDataSize
      else maxFragmentSize) fullSize)

/-- The entry after the data of a fragment was added. -/
def addFragment (m : FragmentedMessage) (pos : ℕ) (data : Bytes) : FragmentedMessage :=
  if data = [] then { m with isOpen := true } else { m with isOpen := true }.addData pos data

/-- The FRAGMENT branch. A file that is open already cannot be opened again. -/
def processFragment (p : Protocol) (env : Env) (msgId cmd : UInt8) (answerId : Option UInt8)
    (fullSize pos maxFragmentSize : ℕ) (data : Bytes) : Protocol × Bool :=
  if fullSize ≥ protocolMaxMessageSize then (p.eraseFragment msgId, false)
  else
    let m := p.fragmentEntry msgId cmd maxFragmentSize fullSize
    if env.openFails || (m.isFile && m.isOpen) then (p.eraseFragment msgId, false)
    else
      let m := addFragment m pos data
      if m.isPartsEmpty then p.completeFragment env msgId cmd answerId fullSize m
      else (p.continueFragment env.now₂ msgId cmd m, false)

/-- The ANSWER branch without FRAGMENT: no waiting item, no handler. -/
def processAnswer (p : Protocol) (env : Env) (msgId cmd answerId : UInt8) (data : Bytes) :
    Protocol × Bool :=
  let r := p.popWaitingAnswer answerId cmd
  match r.1 with
  | none => (r.2, false)
  | some m =>
      if m.answerFunc then (r.2.callAnswerFunc m msgId cmd data env.throws, env.throws)
      else (r.2.emit (m.destroy .answered), false)

/-- The plain branch: a ping is answered, anything else goes to `process_message`. -/
def processPlain (p : Protocol) (env : Env) (msgId cmd : UInt8) (data : Bytes) : Protocol × Bool :=
  if cmd = Cmd.ping then (p.send cmd (some msgId) 0 [], false)
  else (p.emit [.processMessage msgId cmd data env.throws], env.throws)

/-- What is done with the content of an accepted packet. -/
def dispatch (p : Protocol) (env : Env) (msgId cmd : UInt8) : Content → Protocol × Bool
  | .removeFragment id => (p.eraseFragment id, false)
  | .fragmentQuery id pos size => (p.processFragmentQuery id pos size, false)
  | .fragment answerId fullSize pos maxFragmentSize data =>
      p.processFragment env msgId cmd answerId fullSize pos maxFragmentSize data
  | .answer answerId data => p.processAnswer env msgId cmd answerId data
  | .message data => p.processPlain env msgId cmd data

/-- The part of `internal_process_message` after the acceptance test. A packet that says COMPRESSED
or FRAGMENT must have a body; a body that cannot be read is an exception. -/
def processAccepted (qt : Qt) (p : Protocol) (env : Env) (pkt : Packet) : Protocol × Bool :=
  if pkt.body = [] ∧ hasFlag pkt.flags (Flag.compressed ||| Flag.fragment) = true then (p, false)
  else match pkt.content qt with
    | none => (p, true)
    | some c => p.dispatch env pkt.id pkt.cmd c

/-- `Protocol::internal_process_message`. -/
def internalProcessMessage (qt : Qt) (p : Protocol) (env : Env) (pkt : Packet) : Protocol × Bool :=
  let r := (p.emit [.internalProcessMessage pkt]).acceptMessage env.now₁ pkt.id pkt.flags
  if r.1 then r.2.processAccepted qt env pkt else (r.2, false)

end Protocol

/-! ## Exceptions -/

/-- The body can be read as the command and the flags ask for; a packet that says COMPRESSED or
FRAGMENT without a body is not read at all. -/
def Packet.Readable (qt : Qt) (pkt : Packet) : Prop :=
  (pkt.body = [] ∧ hasFlag pkt.flags (Flag.compressed ||| Flag.fragment) = true) ∨
    (pkt.content qt).isSome = true

instance (qt : Qt) (pkt : Packet) : Decidable (pkt.Readable qt) := by
  unfold Packet.Readable
  infer_instance

theorem Packet.content_of_body_nil {qt : Qt} {pkt : Packet} {c : Content} (hbody : pkt.body = [])
    (hc : pkt.content qt = some c) : c = .message [] := by
  obtain ⟨body, hu, hb⟩ := Option.bind_eq_some_iff.mp hc
  have hnil : body = [] := by
    unfold uncompressBody at hu
    rw [hbody, qt.qUncompress_nil] at hu
    split_ifs at hu
    · exact absurd rfl ‹_›
    · exact (Option.some.inj hu).symm
  subst hnil
  unfold parseContent at hb
  split_ifs at hb
  all_goals cases hb
  rfl

theorem Protocol.processAccepted_content {qt : Qt} {p : Protocol} {env : Env} {pkt : Packet} {c : Content}
    (hc : pkt.content qt = some c) (hne : c ≠ .message []) :
    p.processAccepted qt env pkt = p.dispatch env pkt.id pkt.cmd c := by
  rw [processAccepted, if_neg fun hb => hne (pkt.content_of_body_nil hb.1 hc), hc]

theorem Protocol.dispatch_throws (p : Protocol) (env : Env) (msgId cmd : UInt8) (c : Content)
    (h : env.throws = false) : (p.dispatch env msgId cmd c).2 = false := by
  cases c with
  | removeFragment id => rfl
  | fragmentQuery id pos size => rfl
  | fragment a full pos mx data =>
      simp only [dispatch, processFragment]
      split_ifs
      · rfl
      · rfl
      · exact h
      · rfl
  | answer a data =>
      simp only [dispatch, processAnswer]
      split
      · rfl
      · split_ifs
        · exact h
        · rfl
  | message data =>
      simp only [dispatch, processPlain]
      split_ifs
      · rfl
      · exact h

/-- **Only a handler or a body that cannot be read throws.** -/
theorem Protocol.internalProcessMessage_throws (qt : Qt) (p : Protocol) (env : Env) (pkt : Packet)
    (h : env.throws = false) (hr : pkt.Readable qt) :
    (p.internalProcessMessage qt env pkt).2 = false := by
  simp only [internalProcessMessage]
  split_ifs with hacc
  · rw [processAccepted]
    split_ifs with hbody
    · rfl
    · rcases hr with hr | hr
      · exact absurd hr hbody
      · obtain ⟨c, hc⟩ := Option.isSome_iff_exists.mp hr
        rw [hc]
        exact dispatch_throws _ _ _ _ _ h
  · rfl

end HelpzNet
