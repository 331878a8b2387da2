import Helpz.Net.Defs
import Helpz.Lib.Store

/-!
# Messages and the sender that builds them

`Message_Item` (`net_message_item.cpp`) and the builder calls of `Protocol_Sender`
(`net_protocol_sender.cpp`).

* `Device`: the `QIODevice` a message reads its payload from, a byte string and a position in it;
* `MessageItem`: the fields the protocol reads. The three callbacks are recorded as set or not; the
  object itself is named by `uid`, which stands for the identity of the shared pointer. The bounds
  that `set_fragment_size` enforces are a field, so every item has them.
* `SenderCall` and `MessageItem.apply`: the calls made on a `Protocol_Sender` before it is
  destroyed.
-/

namespace HelpzNet

open HelpzLib

/-- A random-access device open for reading: its content and the current position. -/
structure Device where
  data : Bytes
  pos : ℕ
  pos_le : pos ≤ data.length
  deriving DecidableEq, Repr

namespace Device

/-- `QIODevice::size`. -/
def size (d : Device) : ℕ := d.data.length

/-- `QIODevice::atEnd`. -/
def atEnd (d : Device) : Bool := decide (d.pos = d.data.length)

/-- `QIODevice::seek`; a position past the end of a device that is only read is refused. -/
def seek (d : Device) (pos : ℕ) : Device :=
  if h : pos ≤ d.data.length then { d with pos := pos, pos_le := h } else d

/-- `QIODevice::write`: overwrite from the current position on. -/
def write (d : Device) (bytes : Bytes) : Device where
  data := writeAt 0 d.data d.pos bytes
  pos := d.pos + bytes.length
  pos_le := by rw [length_writeAt]; exact le_max_right _ _

/-- A device holding `data`, positioned at its end. -/
def full (data : Bytes) : Device := ⟨data, data.length, le_rfl⟩

@[simp] theorem data_seek (d : Device) (pos : ℕ) : (d.seek pos).data = d.data := by
  unfold seek
  split_ifs <;> rfl

theorem atEnd_eq_true {d : Device} : d.atEnd = true ↔ d.pos = d.data.length := by simp [atEnd]

end Device

/-- `Message_Item`. -/
structure MessageItem where
  uid : ℕ
  id : Option UInt8
  answerId : Option UInt8
  resendTimeout : TimePoint
  endTime : TimePoint
  dataDevice : Option Device
  answerFunc : Bool
  timeoutFunc : Bool
  finallyFunc : Bool
  cmd : UInt8
  flags : UInt8
  fragmentSize : ℕ
  minCompressSize : ℕ
  fragmentSize_mem : 32 ≤ fragmentSize ∧ fragmentSize ≤ maxPacketDataSize
  deriving DecidableEq, Repr

namespace MessageItem

/-- The constructor, called by `Protocol_Sender` with an empty `QBuffer`. -/
def new (uid : ℕ) (cmd : UInt8) (answerId : Option UInt8) : MessageItem where
  uid := uid
  id := none
  answerId := answerId
  resendTimeout := milliseconds 3000
  endTime := 0
  dataDevice := some (Device.full [])
  answerFunc := false
  timeoutFunc := false
  finallyFunc := false
  cmd := cmd
  flags := 0
  fragmentSize := maxMessageDataSize
  minCompressSize := 512
  fragmentSize_mem := by decide

/-- The value `set_fragment_size` stores. -/
def clampFragmentSize (size : ℕ) : ℕ :=
  if size < 32 then 32 else if size > maxPacketDataSize then maxPacketDataSize else size

theorem clampFragmentSize_mem (size : ℕ) :
    32 ≤ clampFragmentSize size ∧ clampFragmentSize size ≤ maxPacketDataSize := by
  have h : 32 ≤ maxPacketDataSize := by decide
  unfold clampFragmentSize
  split_ifs <;> omega

/-- `Message_Item::set_fragment_size`. -/
def setFragmentSize (m : MessageItem) (size : ℕ) : MessageItem :=
  { m with fragmentSize := clampFragmentSize size, fragmentSize_mem := clampFragmentSize_mem size }

/-- `Message_Item::set_flags`. -/
def setFlags (m : MessageItem) (flags : UInt8) : MessageItem := { m with flags := flags }

/-- Move the payload device to `pos`. -/
def seek (m : MessageItem) (pos : ℕ) : MessageItem :=
  { m with dataDevice := m.dataDevice.map (·.seek pos) }

/-- The payload, empty when there is no device. -/
def payload (m : MessageItem) : Bytes := (m.dataDevice.map (·.data)).getD []

end MessageItem

/-- The calls made on a `Protocol_Sender`. `answer` and `timeout` read the clock; `func` tells
whether the function object they are given is non-empty. `write` is a `<<` on the device. -/
inductive SenderCall
  | setFragmentSize (size : ℕ)
  | setMinCompressSize (size : ℕ)
  | setDataDevice (device : Device) (fragmentSize : ℕ)
  | write (bytes : Bytes)
  | answer (func : Bool) (now : TimePoint)
  | timeout (func : Bool) (now duration resend : TimePoint)
  | finally (func : Bool)
  deriving DecidableEq, Repr

/-- One call on the sender. -/
def MessageItem.apply (m : MessageItem) : SenderCall → MessageItem
  | .setFragmentSize size => m.setFragmentSize size
  | .setMinCompressSize size => { m with minCompressSize := size }
  | .setDataDevice device size => { m.setFragmentSize size with dataDevice := some device }
  | .write bytes => { m with dataDevice := m.dataDevice.map (·.write bytes) }
  | .answer func now =>
      { m with answerFunc := func, endTime := if m.endTime < now then now + seconds 10 else m.endTime }
  | .timeout func now duration resend =>
      { m with timeoutFunc := func, endTime := now + duration, resendTimeout := resend }
  | .finally func => { m with finallyFunc := func }

/-- What a chain of sender calls leaves alone: the item is still unsent, and has a device. -/
structure MessageItem.Unsent (m : MessageItem) : Prop where
  id_eq : m.id = none
  flags_eq : m.flags = 0
  device : ∃ d, m.dataDevice = some d

theorem MessageItem.unsent_new (uid : ℕ) (cmd : UInt8) (a : Option UInt8) :
    (MessageItem.new uid cmd a).Unsent := ⟨rfl, rfl, _, rfl⟩

theorem MessageItem.Unsent.apply {m : MessageItem} (h : m.Unsent) (c : SenderCall) :
    (m.apply c).Unsent := by
  obtain ⟨h1, h2, h3⟩ := h
  cases c with
  | setDataDevice device size => exact ⟨h1, h2, _, rfl⟩
  | write bytes =>
      obtain ⟨d, hd⟩ := h3
      exact ⟨h1, h2, d.write bytes, by simp [MessageItem.apply, hd]⟩
  | _ => exact ⟨h1, h2, h3⟩

/-- The item a `Protocol_Sender` holds when it is destroyed. -/
def buildItem (uid : ℕ) (cmd : UInt8) (answerId : Option UInt8) (calls : List SenderCall) :
    MessageItem := calls.foldl MessageItem.apply (MessageItem.new uid cmd answerId)

theorem unsent_foldl {m : MessageItem} (h : m.Unsent) (calls : List SenderCall) :
    (calls.foldl MessageItem.apply m).Unsent := by
  induction calls generalizing m with
  | nil => exact h
  | cons c calls ih => exact ih (h.apply c)

theorem unsent_buildItem (uid : ℕ) (cmd : UInt8) (a : Option UInt8) (calls : List SenderCall) :
    (buildItem uid cmd a calls).Unsent :=
  unsent_foldl (MessageItem.unsent_new uid cmd a) calls

theorem uid_foldl (m : MessageItem) (calls : List SenderCall) :
    (calls.foldl MessageItem.apply m).uid = m.uid := by
  induction calls generalizing m with
  | nil => rfl
  | cons c calls ih => rw [List.foldl_cons, ih]; cases c <;> rfl

@[simp] theorem uid_buildItem (uid : ℕ) (cmd : UInt8) (a : Option UInt8) (calls : List SenderCall) :
    (buildItem uid cmd a calls).uid = uid := uid_foldl _ calls

end HelpzNet
