import Helpz.Net.Message
import Helpz.Net.Fragment
import Helpz.Lib.SortedMap
import Mathlib.Logic.Function.Basic

/-!
# The state of a protocol object

`Protocol` (`net_protocol.h`) without the receive buffer, which belongs to the framing layer, and
with the writer it posts to.

* `Event`: what the object does to the outside, in order: calls of handlers and callbacks, the life
  of its message items, timers it asks for. `Protocol.log` records it.
* `Env`: what one call of `internal_process_message` takes from the outside: the clock readings, and
  whether the handler it calls throws and the data device can be opened.
* `Protocol`: the fields. `std::map`s keyed by an id are functions on ids; `waiting_messages_` keeps
  the order of its keys. `posted` holds the messages handed to the writer that it has not executed
  yet; a message is created with `alloc` as its identity.
* `sendMessage`, `send`: `Protocol::send_message`, and a `Protocol_Sender` made by the protocol
  itself and destroyed at once.
-/

namespace HelpzNet

open HelpzLib

/-- What the data pointer of a protocol timer says. -/
inductive TimerData
  | null
  | fragment
  deriving DecidableEq, Repr

/-- Why a message item is destroyed. -/
inductive Release
  /-- an answer took it out of the waiting list -/
  | answered
  /-- the timer found it past its deadline -/
  | timedOut
  /-- a fragment query asked for a position past its end -/
  | completed
  /-- another item with its id was added to the waiting list -/
  | evicted
  /-- its time point in the waiting list was taken -/
  | collided
  /-- it was written without a deadline, or after it -/
  | unwaited
  /-- there is no writer or no data device -/
  | rejected
  deriving DecidableEq, Repr

/-- What a protocol object does to the outside. -/
inductive Event
  | internalProcessMessage (pkt : Packet)
  | lostMsgDetected (msgId expected : UInt8)
  | processMessage (msgId cmd : UInt8) (data : Bytes) (threw : Bool)
  | processAnswerMessage (msgId cmd : UInt8) (data : Bytes) (threw : Bool)
  | answerFunc (uid : ℕ) (msgId cmd : UInt8) (data : Bytes) (threw : Bool)
  | timeoutFunc (uid : ℕ) (now : TimePoint)
  | finallyFunc (uid : ℕ) (ok : Bool)
  | created (item : MessageItem)
  | assigned (id : UInt8) (data : Bytes)
  | transmitted (uid : ℕ) (pkt : Packet) (now : TimePoint)
  | waiting (uid : ℕ) (time : TimePoint)
  | destroyed (uid : ℕ) (why : Release)
  | addTimeoutAt (time : TimePoint) (data : TimerData)
  deriving DecidableEq, Repr

/-- What a call of `internal_process_message` finds outside: the clock at its two readings, whether
the handler it calls throws, and whether opening the data device fails. -/
structure Env where
  now₁ : TimePoint
  now₂ : TimePoint
  throws : Bool
  openFails : Bool
  deriving DecidableEq, Repr

/-- What a handler that returns, and a device that opens, look like at time `0`. -/
def Env.quiet : Env := ⟨0, 0, false, false⟩

/-- `Protocol`, with the messages posted to its writer. -/
structure Protocol where
  nextRxMsgId : UInt8
  nextTxMsgId : UInt8
  lostMsgList : UInt8 → Option TimePoint
  fragmentedMessages : UInt8 → Option FragmentedMessage
  waitingMessages : SortedMap TimePoint MessageItem
  lastMsgSendTime : TimePoint
  hasWriter : Bool
  posted : List MessageItem
  alloc : ℕ
  log : List Event

/-- A fresh object, attached to a writer. -/
def Protocol.fresh : Protocol where
  nextRxMsgId := 0
  nextTxMsgId := 0
  lostMsgList := fun _ => none
  fragmentedMessages := fun _ => none
  waitingMessages := ∅
  lastMsgSendTime := 0
  hasWriter := true
  posted := []
  alloc := 0
  log := []

namespace Protocol

/-- Record what happens. -/
def emit (p : Protocol) (evs : List Event) : Protocol := { p with log := p.log ++ evs }

end Protocol

/-- `Message_Item::~Message_Item`. -/
def MessageItem.destroy (m : MessageItem) (why : Release) : List Event :=
  .destroyed m.uid why :: if m.finallyFunc then [.finallyFunc m.uid (!m.answerFunc)] else []

namespace Protocol

/-- `Protocol::send_message`: hand the item to the writer. -/
def sendMessage (p : Protocol) (m : MessageItem) : Protocol :=
  if m.dataDevice.isSome && p.hasWriter then { p with posted := p.posted ++ [m] }
  else p.emit (m.destroy .rejected)

/-- `Protocol_Sender::~Protocol_Sender` for an item built with identity `alloc`: without a writer
the sender holds no protocol and the item dies with it. -/
def sendItem (p : Protocol) (m : MessageItem) : Protocol :=
  let q : Protocol := { p with alloc := p.alloc + 1, log := p.log ++ [.created m] }
  if p.hasWriter then q.sendMessage (m.seek m.payload.length) else q.emit (m.destroy .rejected)

/-- A message the protocol itself sends: command, answer id, flags and payload. -/
def send (p : Protocol) (cmd : UInt8) (answerId : Option UInt8) (flags : UInt8) (data : Bytes) :
    Protocol :=
  p.sendItem { MessageItem.new p.alloc cmd answerId with
    flags := flags, dataDevice := some (Device.full data) }

/-- `fragmented_messages_.erase`. -/
def eraseFragment (p : Protocol) (id : UInt8) : Protocol :=
  { p with fragmentedMessages := Function.update p.fragmentedMessages id none }

/-- Store an entry of `fragmented_messages_`. -/
def setFragment (p : Protocol) (id : UInt8) (m : FragmentedMessage) : Protocol :=
  { p with fragmentedMessages := Function.update p.fragmentedMessages id (some m) }

/-- `writer_ptr->add_timeout_at`, when there is a writer. -/
def addTimeoutAt (p : Protocol) (time : TimePoint) (data : TimerData) : Protocol :=
  if p.hasWriter then p.emit [.addTimeoutAt time data] else p

end Protocol

end HelpzNet
