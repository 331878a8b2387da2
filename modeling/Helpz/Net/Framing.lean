import Helpz.Net.Dispatch

/-!
# Framing: from received chunks to packets

`process_bytes` and `process_stream`: the receive buffer `device_`, the queue
`packet_end_position_` of chunk sizes, and the recovery after a packet that fails.

The layer does not depend on what is done with a packet: `deliver` stands for
`internal_process_message`, on any state `σ`, and returns the state and whether it threw.

* `readHeader`: the nine bytes of the header;
* `processStream`: the loop over the buffer from a position; `Stop` says why it ends, and
  `Stop.ok`, `Stop.pos` are what the source returns and where it leaves the device;
* `dropProcessed`: the loop that pops the chunks lying before a position;
* `recoverLoop`, `processBytes`: `none` is an access to the front of an empty queue, which is
  undefined behaviour.

`Framing.removed` counts the bytes that have left the buffer and `Framing.calls` records the
packets passed to `deliver`, each with the offset in the received stream at which it ends.
-/

namespace HelpzNet

open HelpzLib

/-- The header of a packet as read from the stream. -/
structure Header where
  checksum : ℕ
  id : UInt8
  cmd : UInt8
  flags : UInt8
  size : ℕ
  deriving DecidableEq, Repr

/-- Read the nine bytes of the header; a null `QByteArray` is written with size `0xffffffff`. -/
def readHeader (buf : Bytes) : Header where
  checksum := ofBE (buf.take 2)
  id := (buf.drop 2).headD 0
  cmd := (buf.drop 3).headD 0
  flags := (buf.drop 4).headD 0
  size :=
    let n := ofBE ((buf.drop 5).take 4)
    if n = 0xffffffff then 0 else n

/-- Why `process_stream` returns: too few bytes for a header or for the body, a size above the
limit, a wrong checksum, or an exception while the packet was processed. -/
inductive Stop
  | wait (pos : ℕ)
  | oversize (size : ℕ)
  | corrupt (pos : ℕ)
  | threw (pos bodySize : ℕ)
  deriving DecidableEq, Repr

/-- The value `process_stream` returns. -/
def Stop.ok : Stop → Bool
  | .wait _ => true
  | .oversize _ => true
  | .corrupt _ => false
  | .threw _ _ => false

/-- The position of the device when `process_stream` returns: an exception leaves it after the
header. -/
def Stop.pos : Stop → ℕ
  | .wait pos => pos
  | .oversize size => size
  | .corrupt pos => pos
  | .threw pos _ => pos + 9

section Stream

variable {σ : Type} (qt : Qt) (deliver : σ → Packet → σ × Bool)

/-- What the first bytes of the rest of the buffer call for. -/
inductive Next
  | stop (s : Stop)
  | packet (pkt : Packet)
  deriving DecidableEq, Repr

/-- One turn of the loop of `process_stream`, up to the call of `internal_process_message`. -/
def nextPacket (buf : Bytes) (pos : ℕ) : Next :=
  let rest := buf.drop pos
  if rest.length < 9 then .stop (.wait pos)
  else
    let h := readHeader rest
    if h.size > protocolMaxMessageSize then .stop (.oversize buf.length)
    else if h.checksum ≠ qt.qChecksum ((rest.drop 2).take 7) then .stop (.corrupt pos)
    else if rest.length - 9 < h.size then .stop (.wait pos)
    else .packet ⟨h.id, h.cmd, h.flags, (rest.drop 9).take h.size⟩

/-- The result of `process_stream`: the state, why it stopped, and the packets it passed on with the
position at which each ends. -/
structure StreamResult (σ : Type) where
  state : σ
  stop : Stop
  calls : List (ℕ × Packet)

/-- `Protocol::process_stream` from position `pos`. Every turn that goes on consumes a header, so as
many turns as there are bytes are enough. -/
def streamLoop : ℕ → σ → Bytes → ℕ → StreamResult σ
  | 0, s, _, pos => ⟨s, .wait pos, []⟩
  | n + 1, s, buf, pos =>
      match nextPacket qt buf pos with
      | .stop st => ⟨s, st, []⟩
      | .packet pkt =>
          let fin := pos + 9 + pkt.body.length
          let r := deliver s pkt
          if r.2 then ⟨r.1, .threw pos pkt.body.length, [(fin, pkt)]⟩
          else
            let t := streamLoop n r.1 buf fin
            { t with calls := (fin, pkt) :: t.calls }

/-- `Protocol::process_stream`, with the device at its start. -/
def processStream (s : σ) (buf : Bytes) : StreamResult σ := streamLoop qt deliver (buf.length + 1) s buf 0

/-- The loop that pops the chunks which end at or before `pos`; what is left of `pos` lies in the
first chunk that stays. -/
def dropProcessed : List ℕ → ℕ → List ℕ × ℕ
  | [], pos => ([], pos)
  | c :: q, pos => if c ≤ pos then dropProcessed q (pos - c) else (c :: q, pos)

/-- The receive buffer, the queue of chunk sizes, and what has passed through. -/
structure Framing where
  buf : Bytes
  queue : List ℕ
  removed : ℕ
  calls : List (ℕ × Packet)
  deriving DecidableEq, Repr

/-- Nothing received yet. -/
def Framing.empty : Framing := ⟨[], [], 0, []⟩

/-- The end of `process_bytes`: pop the chunks before the position, shorten the one it lies in, and
drop the bytes before it. -/
def Framing.finish (f : Framing) (pos : ℕ) : Framing :=
  let r := dropProcessed f.queue pos
  { f with
    buf := if pos < f.buf.length then f.buf.drop pos else []
    removed := f.removed + min pos f.buf.length
    queue := match r.1 with
      | [] => []
      | c :: q => (if r.2 = 0 then c else c - r.2) :: q }

/-- Record the packets of one run over the buffer at their offsets in the stream. -/
def Framing.addCalls (f : Framing) (calls : List (ℕ × Packet)) : Framing :=
  { f with calls := f.calls ++ calls.map fun c => (f.removed + c.1, c.2) }

/-- The loop of `process_bytes`. After a failure the chunks before the position of the device are
popped, and the chunk then at the front is popped and as many bytes removed from the buffer. Every
turn pops a chunk, so as many turns as there are chunks are enough. -/
def recoverLoop : ℕ → σ → Framing → Option (σ × Framing)
  | 0, s, f =>
      let r := processStream qt deliver s f.buf
      some (r.state, (f.addCalls r.calls).finish r.stop.pos)
  | n + 1, s, f =>
      let r := processStream qt deliver s f.buf
      let f := f.addCalls r.calls
      if r.stop.ok || f.queue.isEmpty then some (r.state, f.finish r.stop.pos)
      else match (dropProcessed f.queue r.stop.pos).1 with
        | [] => none
        | c :: q => recoverLoop n r.state
            { f with buf := f.buf.drop c, removed := f.removed + min c f.buf.length, queue := q }

/-- `Protocol::process_bytes`. -/
def processChunk (s : σ) (f : Framing) (chunk : Bytes) : Option (σ × Framing) :=
  if chunk = [] then some (s, f)
  else recoverLoop qt deliver (f.queue.length + 1) s
    { f with buf := f.buf ++ chunk, queue := f.queue ++ [chunk.length] }

end Stream

/-- `internal_process_message` as the framing layer calls it. `oracle` gives what the call finds
outside, from all that has happened before it. -/
def Protocol.deliver (qt : Qt) (oracle : List Event → Env) (p : Protocol) (pkt : Packet) :
    Protocol × Bool := p.internalProcessMessage qt (oracle p.log) pkt

/-- An endpoint: the protocol object and its receive buffer. -/
structure Endpoint where
  protocol : Protocol
  framing : Framing

/-- A fresh endpoint. -/
def Endpoint.fresh : Endpoint := ⟨Protocol.fresh, Framing.empty⟩

/-- `Protocol::process_bytes` on an endpoint. -/
def Endpoint.processBytes (qt : Qt) (oracle : List Event → Env) (e : Endpoint) (chunk : Bytes) :
    Option Endpoint :=
  (processChunk qt (Protocol.deliver qt oracle) e.protocol e.framing chunk).map fun r => ⟨r.1, r.2⟩

/-- Calls of `process_bytes` with the chunks of a list, in order. -/
def Endpoint.processAll (qt : Qt) (oracle : List Event → Env) (e : Endpoint) (chunks : List Bytes) :
    Option Endpoint := chunks.foldlM (Endpoint.processBytes qt oracle) e

end HelpzNet
