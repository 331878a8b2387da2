import Helpz.Lib.Codec
import Helpz.Net.Delivery

/-!
# Messages as calls of functions

`apply_parse` reads the arguments of a function from a `QDataStream`, one after the other, and calls it. On the other
side the arguments were written with `<<` on a `Protocol_Sender`.

* `Format`, `Args`: the types of the arguments, with their `<<` and `>>`, and the arguments;
* `parseOut`, `applyParse`: what is read, and the text of the exception;
* `applyParse_write`, `applyParse_short`: all of the arguments arrive, or the function is not called;
* `calls_received`, `calls_delivered`: the same over the wire, for a message in one packet and in many.
-/

namespace HelpzBase

open HelpzLib HelpzNet

/-- `QDataStream::Status` after a read that failed. -/
inductive StreamStatus
  | readPastEnd
  | readCorruptData
  deriving DecidableEq

/-- A type with `<<` and `>>`, and its `typeid(T).name()`. -/
structure StreamType (α : Type) where
  codec : Codec StreamStatus α
  name : String

/-! ## Types of `QDataStream` -/

def quint8 : StreamType UInt8 := ⟨(Codec.nat 1 .readPastEnd).map UInt8.ofNat UInt8.toNat, "h"⟩

def quint16 : StreamType UInt16 := ⟨(Codec.nat 2 .readPastEnd).map UInt16.ofNat UInt16.toNat, "t"⟩

def quint32 : StreamType UInt32 := ⟨(Codec.nat 4 .readPastEnd).map UInt32.ofNat UInt32.toNat, "j"⟩

def quint64 : StreamType UInt64 := ⟨(Codec.nat 8 .readPastEnd).map UInt64.ofNat UInt64.toNat, "y"⟩

/-- `QVector`: the number of the elements, and these. -/
def qVector {α : Type} (t : StreamType α) : StreamType (List α) :=
  ⟨t.codec.list 4 .readPastEnd, "7QVectorI" ++ t.name ++ "E"⟩

theorem lawful_quint8 : quint8.codec.Lawful :=
  (Codec.lawful_nat 1 StreamStatus.readPastEnd).map fun _ _ => UInt8.ofNat_toNat

theorem lawful_quint16 : quint16.codec.Lawful :=
  (Codec.lawful_nat 2 StreamStatus.readPastEnd).map fun _ _ => UInt16.ofNat_toNat

theorem lawful_quint32 : quint32.codec.Lawful :=
  (Codec.lawful_nat 4 StreamStatus.readPastEnd).map fun _ _ => UInt32.ofNat_toNat

theorem lawful_quint64 : quint64.codec.Lawful :=
  (Codec.lawful_nat 8 StreamStatus.readPastEnd).map fun _ _ => UInt64.ofNat_toNat

theorem lawful_qVector {α : Type} {t : StreamType α} (ht : t.codec.Lawful) : (qVector t).codec.Lawful :=
  ht.list 4 StreamStatus.readPastEnd

/-! ## The arguments of a function -/

/-- The types of arguments. -/
inductive Format : List Type → Type 1
  | nil : Format []
  | cons {α : Type} {ts : List Type} (t : StreamType α) (f : Format ts) : Format (α :: ts)

/-- The arguments. -/
def Args : List Type → Type
  | [] => Unit
  | α :: ts => α × Args ts

/-- No arguments. -/
def Args.none : Args [] := ()

def Args.append {us : List Type} : {ts : List Type} → Args ts → Args us → Args (ts ++ us)
  | [], _, ys => ys
  | _ :: _, xs, ys => (xs.1, Args.append xs.2 ys)

namespace Format

variable {ts us : List Type} {β : Type}

/-- All that is written. -/
def codec : {ts : List Type} → Format ts → Codec StreamStatus (Args ts)
  | _, .nil => Codec.unit
  | _, .cons t f => t.codec.pair f.codec

/-- Each of the types is read back as it was written. -/
def Lawful : {ts : List Type} → Format ts → Prop
  | _, .nil => True
  | _, .cons t f => t.codec.Lawful ∧ f.Lawful

theorem Lawful.codec : {ts : List Type} → {f : Format ts} → f.Lawful → f.codec.Lawful
  | _, .nil, _ => Codec.lawful_unit
  | _, .cons _ _, h => h.1.pair h.2.codec

/-- The text of the exception of `parse_out`. -/
def errorText (name : String) (size : ℕ) (status : StreamStatus) : String :=
  "QDataStream parse failed for type: " ++ name ++ " size: " ++ toString size ++
    match status with
    | .readCorruptData => " corrupt data"
    | .readPastEnd => " read past end"

/-- `parse_out` on a stream whose device has `size` bytes. -/
def parseOut (size : ℕ) : {ts : List Type} → Format ts → Bytes → Except String (Args ts × Bytes)
  | _, .nil, ds => .ok ((), ds)
  | _, .cons t f, ds =>
      match t.codec.read ds with
      | .error status => .error (errorText t.name size status)
      | .ok (x, ds) =>
          match f.parseOut size ds with
          | .error e => .error e
          | .ok (xs, ds) => .ok ((x, xs), ds)

/-- `apply_parse` of a function: it is called with what was read and with the arguments that are given. -/
def applyParse (f : Format ts) (fn : Args (ts ++ us) → β) (given : Args us) (size : ℕ) (ds : Bytes) :
    Except String (β × Bytes) :=
  match f.parseOut size ds with
  | .error e => .error e
  | .ok (xs, ds) => .ok (fn (xs.append given), ds)

/-- The `<<` of the arguments on a `Protocol_Sender`. -/
def calls : {ts : List Type} → Format ts → Args ts → List SenderCall
  | _, .nil, _ => []
  | _, .cons t f, xs => .write (t.codec.write xs.1) :: f.calls xs.2

/-! ## What is read -/

theorem parseOut_eq {f : Format ts} (size : ℕ) (ds : Bytes) :
    (∃ r, f.codec.read ds = .ok r ∧ f.parseOut size ds = .ok r) ∨
      ∃ status e, f.codec.read ds = .error status ∧ f.parseOut size ds = .error e := by
  induction f generalizing ds with
  | nil => exact .inl ⟨_, rfl, rfl⟩
  | cons t f ih =>
      simp only [codec, parseOut, Codec.pair]
      cases t.codec.read ds with
      | error status => exact .inr ⟨status, _, rfl, rfl⟩
      | ok r =>
          rcases ih r.2 with ⟨r', hread, hparse⟩ | ⟨status, e, hread, hparse⟩
          · refine .inl ⟨((r.1, r'.1), r'.2), ?_, by simp only [hparse]⟩
            simp only [hread]
            rfl
          · refine .inr ⟨status, e, ?_, by simp only [hparse]⟩
            simp only [hread]
            rfl

/-- **The function gets the arguments that were written**, whatever follows them, and the stream is left behind them. -/
theorem applyParse_write {f : Format ts} (hf : f.Lawful) (fn : Args (ts ++ us) → β) (given : Args us) (size : ℕ)
    {xs : Args ts} (hxs : f.codec.Fits xs) (rest : Bytes) :
    f.applyParse fn given size (f.codec.write xs ++ rest) = .ok (fn (xs.append given), rest) := by
  have hread := hf.codec.read_write xs rest hxs
  rcases parseOut_eq (f := f) size (f.codec.write xs ++ rest) with ⟨r, hr, hparse⟩ | ⟨status, e, he, _⟩
  · obtain rfl := Except.ok.inj (hr.symm.trans hread)
    rw [applyParse, hparse]
  · cases he.symm.trans hread

/-- **The function is not called with arguments that were cut off**: there is an exception, which does not depend on
the function. -/
theorem applyParse_short {f : Format ts} (hf : f.Lawful) {xs : Args ts} (hxs : f.codec.Fits xs) {p : Bytes}
    (hp : p <+: f.codec.write xs) (hne : p ≠ f.codec.write xs) (size : ℕ) :
    ∃ e, ∀ (us : List Type) (β : Type) (fn : Args (ts ++ us) → β) (given : Args us),
      f.applyParse fn given size p = .error e := by
  obtain ⟨status, hread⟩ := hf.codec.short xs p hxs hp hne
  rcases parseOut_eq (f := f) size p with ⟨r, hr, _⟩ | ⟨_, e, _, hparse⟩
  · cases hr.symm.trans hread
  · refine ⟨e, fun us β fn given => ?_⟩
    rw [applyParse, hparse]

/-- A number, and a list whose end is missing. -/
theorem applyParse_short_list : ∃ e, ∀ (fn : Args ([UInt16, List UInt8] ++ []) → ℕ),
    (cons quint16 (cons (qVector quint8) nil)).applyParse fn Args.none 6 [1, 2, 0, 0, 0, 2] = .error e := by
  have hf : (cons quint16 (cons (qVector quint8) nil)).Lawful :=
    ⟨lawful_quint16, lawful_qVector lawful_quint8, trivial⟩
  have hxs : (cons quint16 (cons (qVector quint8) nil)).codec.Fits (258, [7, 8], ()) :=
    ⟨UInt16.toNat_lt _, ⟨(by decide : 2 < 256 ^ 4), fun x _ => x.toNat_lt⟩, trivial⟩
  obtain ⟨e, he⟩ := applyParse_short hf hxs (p := [1, 2, 0, 0, 0, 2]) (by decide) (by decide) 6
  exact ⟨e, fun fn => he [] ℕ fn Args.none⟩

/-! ## Over the wire -/

theorem data_write_full (bytes more : Bytes) : (Device.full bytes).write more = Device.full (bytes ++ more) := by
  have hdata : writeAt 0 bytes bytes.length more = bytes ++ more := by
    simp [writeAt]
  simp only [Device.write, Device.full, hdata, List.length_append]

theorem foldl_calls (f : Format ts) (xs : Args ts) {m : MessageItem} {bytes : Bytes}
    (hm : m.dataDevice = some (Device.full bytes)) :
    (f.calls xs).foldl MessageItem.apply m =
      { m with dataDevice := some (Device.full (bytes ++ f.codec.write xs)) } := by
  induction f generalizing m bytes with
  | nil => simp [calls, codec, Codec.unit, ← hm]
  | cons t f ih =>
      have hnext : (m.apply (.write (t.codec.write xs.1))).dataDevice =
          some (Device.full (bytes ++ t.codec.write xs.1)) := by
        simp only [MessageItem.apply, hm, Option.map_some, data_write_full]
      rw [calls, List.foldl_cons, ih xs.2 hnext]
      simp [MessageItem.apply, codec, Codec.pair]

/-- The item of a call, as `~Protocol_Sender` leaves it. -/
def item (f : Format ts) (xs : Args ts) (uid : ℕ) (cmd : UInt8) : MessageItem :=
  (buildItem uid cmd none (f.calls xs)).seek (f.codec.write xs).length

theorem item_eq (f : Format ts) (xs : Args ts) (uid : ℕ) (cmd : UInt8) :
    f.item xs uid cmd = { MessageItem.new uid cmd none with
      dataDevice := some (Device.full (f.codec.write xs)) } := by
  have hnew : (MessageItem.new uid cmd none).dataDevice = some (Device.full []) := rfl
  have hbuild := foldl_calls f xs hnew
  unfold item buildItem
  rw [hbuild]
  simp [MessageItem.seek, Device.seek, Device.full]

/-- **A message is a call of a function on the other side**: `send(cmd) << x₁ << ⋯ << xₙ`, if it fits into one packet,
is read from the wire as one packet, `process_message` is called with its bytes and nothing else is done, and
`apply_parse` calls its function with `x₁, …, xₙ`. -/
theorem calls_received {f : Format ts} (hf : f.Lawful) {xs : Args ts} (hxs : f.codec.Fits xs) (qt : Qt)
    (oracle : List Event → Env) (p r : Protocol) (cmd : UInt8) (now₁ now₂ : TimePoint)
    (hsmall : (f.codec.write xs).length ≤ maxMessageDataSize) (hping : cmd ≠ Cmd.ping)
    (hremove : cmd ≠ Cmd.removeFragment) (hid : p.nextTxMsgId = r.nextRxMsgId) :
    ∃ pkt, (p.preparePacketToSend qt (f.item xs p.alloc cmd) now₁ now₂).1 = some pkt ∧
      (processStream qt (Protocol.deliver qt oracle) r (pkt.encode qt)).calls = [((pkt.encode qt).length, pkt)] ∧
      (r.deliver qt oracle pkt).1.log = r.log ++ [.internalProcessMessage pkt,
        .processMessage r.nextRxMsgId cmd (f.codec.write xs) (oracle r.log).throws] ∧
      ∀ (us : List Type) (β : Type) (fn : Args (ts ++ us) → β) (given : Args us),
        f.applyParse fn given (f.codec.write xs).length (f.codec.write xs) = .ok (fn (xs.append given), []) := by
  have hitem := item_eq f xs p.alloc cmd
  set m := f.item xs p.alloc cmd
  set d := Device.full (f.codec.write xs) with hd
  have hsize : d.size < 2 ^ 32 := lt_of_le_of_lt hsmall (by decide)
  have hassign : (p.assignId m).1 = r.nextRxMsgId := by
    rw [hitem]
    exact hid
  have hdev : m.dataDevice = some d := by rw [hitem]
  have hflags : m.flags = 0 := by rw [hitem]; rfl
  have hcmd : m.cmd = cmd := by rw [hitem]; rfl
  have hmeaning : m.meaning d = .message (f.codec.write xs) := by
    have hnot : ¬ d.size > m.fragmentSize := by
      rw [hitem]
      exact not_lt.mpr hsmall
    rw [MessageItem.meaning, if_neg hnot, hitem]
    rfl
  have hframed := framed_encode qt (length_packItem_body_le qt m d (p.assignId m).1)
  refine ⟨Protocol.packItem qt m d (p.assignId m).1, ?_, ?_, ?_, fun us β fn given => ?_⟩
  · simp only [Protocol.preparePacketToSend, hdev]
  · rw [processStream_single hframed]
  · have hdispatch := internalProcessMessage_packItem qt (oracle r.log) hassign hflags (hcmd ▸ hremove) hsize
    rw [hmeaning] at hdispatch
    rw [Protocol.deliver, hdispatch, hassign, hcmd]
    simp only [Protocol.dispatch, Protocol.processPlain, if_neg hping, Protocol.emit, Protocol.expected]
    rw [List.append_assoc]
    rfl
  · have hall := applyParse_write hf fn given (f.codec.write xs).length hxs []
    rwa [List.append_nil] at hall

/-- A command with a number and a list of numbers. -/
theorem calls_received_two : ∃ pkt : Packet, ∀ fn : Args [UInt16, List UInt8] → ℕ,
    (Protocol.fresh.deliver Qt.storing (fun _ => Env.quiet) pkt).1.log =
        [.internalProcessMessage pkt, .processMessage 0 20 [1, 2, 0, 0, 0, 1, 7] false] ∧
      (cons quint16 (cons (qVector quint8) nil)).applyParse fn Args.none 7 [1, 2, 0, 0, 0, 1, 7] =
        .ok (fn (258, [7], ()), []) := by
  have hf : (cons quint16 (cons (qVector quint8) nil)).Lawful :=
    ⟨lawful_quint16, lawful_qVector lawful_quint8, trivial⟩
  have hxs : (cons quint16 (cons (qVector quint8) nil)).codec.Fits (258, [7], ()) :=
    ⟨UInt16.toNat_lt _, ⟨(by decide : 1 < 256 ^ 4), fun x _ => x.toNat_lt⟩, trivial⟩
  obtain ⟨pkt, _, _, hlog, hcall⟩ := calls_received hf hxs Qt.storing (fun _ => Env.quiet) .fresh .fresh 20 0 0
    (by decide) (by decide) (by decide) rfl
  exact ⟨pkt, fun fn => ⟨hlog, hcall [] ℕ fn ()⟩⟩

/-- A call with more bytes than fit into one packet, over a connection that loses nothing. -/
theorem calls_delivered {f : Format ts} (hf : f.Lawful) {xs : Args ts} (hxs : f.codec.Fits xs) (qt : Qt)
    {l r : Protocol} {x : Parcel} {size : ℕ} {t : TimePoint} {laps : List Lap} (hx : x.data = f.codec.write xs)
    (hl : l.Offering x x.data.length size) (hw : r.hasWriter = true) (hposted : r.posted = [])
    (hnone : r.fragmentedMessages x.id = none) (hnext : r.nextRxMsgId = x.id)
    (hids : r.nextTxMsgId = l.nextRxMsgId) (hgrow : Protocol.growFragmentSize size < x.data.length) (hp : Prompt t laps)
    (hlaps : x.data.length ≤ 32 * (laps.length - 1)) :
    ∃ l' r' data, (System.both l r [] []).run qt (System.opening t ++ laps.flatMap Lap.moves) =
        System.both l' r' [] [] ∧ handovers r'.log = handovers r.log ++ [(x.id, data)] ∧
      ∀ (us : List Type) (β : Type) (fn : Args (ts ++ us) → β) (given : Args us),
        f.applyParse fn given data.length data = .ok (fn (xs.append given), []) := by
  obtain ⟨l', r', hrun, hhanded, _⟩ :=
    System.delivered_within qt hl hw hposted hnone hnext hids hgrow hp hlaps
  refine ⟨l', r', x.data, hrun, hhanded, fun us β fn given => ?_⟩
  have hall := applyParse_write hf fn given x.data.length hxs []
  rwa [List.append_nil, ← hx] at hall

/-! ## The function of the protocol -/

/-- `process_fragment_query` gets its arguments by `apply_parse`. -/
theorem parseFragmentQuery_eq (size : ℕ) (data : Bytes) :
    parseFragmentQuery data =
      match (cons quint8 (cons quint32 (cons quint32 nil))).applyParse
        (fun xs => Content.fragmentQuery xs.1 xs.2.1.toNat xs.2.2.1.toNat) Args.none size data with
      | .ok r => some r.1
      | .error _ => none := by
  have htoNat : ∀ {n : ℕ} {l r : Bytes}, takeBE 4 l = some (n, r) → (UInt32.ofNat n).toNat = n := by
    intro n l r h
    exact UInt32.toNat_ofNat_of_lt' (takeBE_lt h)
  simp only [parseFragmentQuery, applyParse, parseOut, quint8, quint32, Codec.map, Codec.nat]
  cases h₁ : takeBE 1 data with
  | none => simp [Except.map]
  | some r₁ =>
      cases h₂ : takeBE 4 r₁.2 with
      | none => simp [Except.map, h₂]
      | some r₂ =>
          cases h₃ : takeBE 4 r₂.2 with
          | none => simp [Except.map, h₂, h₃]
          | some r₃ => simp [Except.map, h₂, h₃, htoNat h₂, htoNat h₃, Args.append]

end Format

end HelpzBase
