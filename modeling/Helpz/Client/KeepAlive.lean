import Helpz.Net.Defs
import Helpz.Server.Node
import Helpz.Lib.Run
import Mathlib.Tactic.Linarith

/-!
# The deadline of the client

A client waits for datagrams with a deadline of ten seconds. When it has passed, `is_reconnect_needed` looks at the
session: it asks the peer for a sign of life once, and then the socket is cancelled, which ends `run()`.

* `ClientNode`, `isReconnectNeeded`, `processReceivedData`: the node of the client;
* `Client`, `Move`, `step`: the handlers of the `io_context` in any order, with the timer and the receive operation;
* `Unanswered`, `gaveUp_justified`: why a client gives up;
* `Prompt`, `heard_recently`: a client that still runs has heard from its peer, if handlers are not called late.
-/

namespace HelpzClient

open HelpzLib HelpzNet HelpzServer

variable {π : Type}

/-- `Client_Node`. `isActive` is what `dtls_->is_active()` says. -/
structure ClientNode (π : Type) where
  node : Node π
  isActive : Bool
  pingFlag : Bool
  lastMsgRecvTime : TimePoint

/-- What the TLS channel calls back while it is given received data. -/
inductive Callback
  | alert (type : ℕ)
  | record (size : ℕ)

/-- What comes of received data: the callbacks, whether `received_data` throws, what `is_active` says then, and what
`create_protocol` would return. -/
structure Received (π : Type) where
  callbacks : List Callback
  throws : Bool
  isActive : Bool
  created : Option π

namespace ClientNode

/-- `reset_ping_flag`. -/
def resetPingFlag (n : ClientNode π) : ClientNode π := if n.pingFlag then { n with pingFlag := false } else n

/-- `tls_alert`, and `tls_record_received` with `Protocol::process_bytes` up to where it sets the time. -/
def callback (now : TimePoint) (n : ClientNode π) (c : Callback) : ClientNode π :=
  if !n.node.dtls then n
  else match c with
    | .alert type => { n with node := (n.node.tlsAlert type).1 }
    | .record size =>
        match n.node.protocol with
        | some _ => if size = 0 then n else { n with lastMsgRecvTime := now }
        | none => n

/-- `process_received_data`. -/
def processReceivedData (n : ClientNode π) (now : TimePoint) (r : Received π) : ClientNode π :=
  if !n.node.dtls then n
  else
    let firstActive := !n.isActive
    let n := { r.callbacks.foldl (callback now) n with isActive := r.isActive }
    if !r.throws && firstActive && n.node.dtls && n.isActive && n.node.protocol.isNone then
      { n with node := (n.node.setProtocol r.created).1 }
    else n

/-- `is_reconnect_needed`, and the protocol it sends a `PING` with. -/
def isReconnectNeeded (n : ClientNode π) (now : TimePoint) : Bool × ClientNode π × Option π :=
  if n.node.dtls && n.isActive then
    if now - n.lastMsgRecvTime < seconds 20 then (false, n, none)
    else match n.node.protocol with
      | some proto => if !n.pingFlag then (false, { n with pingFlag := true }, some proto) else (true, n, none)
      | none => (true, n, none)
  else (true, n, none)

end ClientNode

/-- The operation of `async_receive_from`: nothing has arrived, or its handler is queued since a time. -/
inductive Receive
  | outstanding
  | arrived (since : TimePoint)
  | failed (since : TimePoint)
  deriving DecidableEq

/-- `socket_->cancel()`: a handler that is queued stays as it is. -/
def Receive.cancel (now : TimePoint) : Receive → Receive
  | .outstanding => .failed now
  | r => r

/-- The operation of `async_wait`: there is none yet, the timer runs, or the handler is queued since a time. -/
inductive Wait
  | idle
  | running
  | queued (since : TimePoint) (aborted : Bool)
  deriving DecidableEq

/-- What a client does: `start_connection`, a datagram handled, a `PING` sent, and the socket cancelled for the node. -/
inductive Entry (π : Type)
  | started (time : TimePoint)
  | datagram (time : TimePoint)
  | ping (time : TimePoint)
  | gaveUp (time : TimePoint) (node : ClientNode π)

/-- `Client`, with its deadline and the operations that are under way. `ended` is when `run()` has returned or thrown;
`log` is read by statements only. -/
structure Client (π : Type) where
  node : ClientNode π
  receive : Receive
  expiresAt : Option TimePoint
  wait : Wait
  ended : Bool
  now : TimePoint
  log : List (Entry π)

/-- What happens next. -/
inductive Move (π : Type)
  /-- a datagram is there, or the receive operation fails -/
  | arrive
  | fail
  /-- the deadline has passed -/
  | expire
  | handleReceive (r : Received π)
  | checkDeadline
  /-- `handle_send` with an error -/
  | handleSend
  | close
  | tick (d : ℕ)

namespace Client

def note (c : Client π) (e : Entry π) : Client π := { c with log := c.log ++ [e] }

/-- `deadline_.expires_at`: a wait is aborted, unless its handler is queued already. -/
def setExpiry (c : Client π) (t : Option TimePoint) : Client π :=
  { c with
    expiresAt := t
    wait := match c.wait with
      | .running => .queued c.now true
      | w => w }

/-- The deadline has passed. -/
def isExpired (c : Client π) : Bool := c.expiresAt.any fun e => decide (e ≤ c.now)

/-- `check_deadline`. -/
def checkDeadline (c : Client π) (aborted : Bool) : Client π :=
  let c :=
    if !aborted && c.isExpired then
      match c.node.isReconnectNeeded c.now with
      | (true, node, _) =>
          (note { c with node := node, receive := c.receive.cancel c.now } (.gaveUp c.now node)).setExpiry none
      | (false, node, some _) => (note { c with node := node } (.ping c.now)).setExpiry (some (c.now + seconds 10))
      | (false, node, none) => { c with node := node }.setExpiry (some (c.now + seconds 10))
    else c
  { c with wait := .running }

/-- `start_receive`. -/
def startReceive (c : Client π) : Client π := { c with receive := .outstanding }.setExpiry (some (c.now + seconds 10))

/-- `start_connection` of a new client. -/
def start (now : TimePoint) : Client π :=
  (startReceive
    { node := ⟨⟨true, none⟩, false, false, 0⟩, receive := .outstanding, expiresAt := none, wait := .idle,
      ended := false, now := now, log := [.started now] }).checkDeadline false

/-- `handle_receive` without an error, and `process_data`. -/
def handleDatagram (c : Client π) (r : Received π) : Client π :=
  let c := (note c (.datagram c.now)).startReceive
  { c with node := c.node.resetPingFlag.processReceivedData c.now r }

/-- `close`. The `io_context` is stopped. -/
def close (c : Client π) : Client π :=
  { c with node := { c.node with node := c.node.node.close.1 }, receive := c.receive.cancel c.now, ended := true }

/-- A step. `error_message` throws, which ends `run()` as `close` does. -/
def step (c : Client π) : Move π → Option (Client π)
  | .arrive => if c.receive = .outstanding then some { c with receive := .arrived c.now } else none
  | .fail => if c.receive = .outstanding then some { c with receive := .failed c.now } else none
  | .expire =>
      match c.wait, c.expiresAt with
      | .running, some e => if e ≤ c.now then some { c with wait := .queued e false } else none
      | _, _ => none
  | .handleReceive r =>
      if c.ended then none
      else match c.receive with
        | .outstanding => none
        | .arrived _ => some (c.handleDatagram r)
        | .failed _ => some { c with ended := true }
  | .checkDeadline =>
      if c.ended then none
      else match c.wait with
        | .idle => none
        | .running => none
        | .queued _ aborted => some (c.checkDeadline aborted)
  | .handleSend => if c.ended then none else some { c with ended := true }
  | .close => some c.close
  | .tick d => some { c with now := c.now + d }

def run (c : Client π) (moves : List (Move π)) : Option (Client π) := moves.foldlM step c

end Client

/-! ## What a step does -/

namespace ClientNode

variable {now : TimePoint}

theorem pingFlag_callback (now : TimePoint) (n : ClientNode π) (x : Callback) :
    (n.callback now x).pingFlag = n.pingFlag ∧
      ((n.callback now x).lastMsgRecvTime = n.lastMsgRecvTime ∨ (n.callback now x).lastMsgRecvTime = now) := by
  unfold callback
  split
  · exact ⟨rfl, .inl rfl⟩
  · cases x with
    | alert type => exact ⟨rfl, .inl rfl⟩
    | record size =>
        dsimp only
        split
        · split_ifs
          · exact ⟨rfl, .inl rfl⟩
          · exact ⟨rfl, .inr rfl⟩
        · exact ⟨rfl, .inl rfl⟩

theorem foldl_callback (n : ClientNode π) (l : List Callback) :
    (l.foldl (callback now) n).pingFlag = n.pingFlag ∧
      ((l.foldl (callback now) n).lastMsgRecvTime = n.lastMsgRecvTime ∨
        (l.foldl (callback now) n).lastMsgRecvTime = now) := by
  induction l generalizing n with
  | nil => exact ⟨rfl, .inl rfl⟩
  | cons x l ih =>
      obtain ⟨hflag, htime⟩ := ih (n.callback now x)
      obtain ⟨hflag', htime'⟩ := pingFlag_callback now n x
      refine ⟨hflag.trans hflag', ?_⟩
      rcases htime with htime | htime
      · exact htime'.imp htime.trans htime.trans
      · exact .inr htime

theorem processReceivedData_cases (n : ClientNode π) (r : Received π) :
    (n.processReceivedData now r).pingFlag = n.pingFlag ∧
      ((n.processReceivedData now r).lastMsgRecvTime = n.lastMsgRecvTime ∨
        (n.processReceivedData now r).lastMsgRecvTime = now) := by
  unfold processReceivedData
  split
  · exact ⟨rfl, .inl rfl⟩
  · dsimp only
    split <;> exact n.foldl_callback r.callbacks

end ClientNode

namespace Client

variable {c c' : Client π} {mv : Move π} {now t₀ δ L : TimePoint}

theorem pingFlag_handleDatagram (c : Client π) (r : Received π) : (c.handleDatagram r).node.pingFlag = false := by
  unfold handleDatagram ClientNode.resetPingFlag
  rw [(ClientNode.processReceivedData_cases _ r).1]
  split_ifs with h
  · rfl
  · exact Bool.eq_false_of_not_eq_true h

theorem lastMsgRecvTime_handleDatagram (c : Client π) (r : Received π) :
    (c.handleDatagram r).node.lastMsgRecvTime = c.node.lastMsgRecvTime ∨
      (c.handleDatagram r).node.lastMsgRecvTime = c.now := by
  have hreset : c.node.resetPingFlag.lastMsgRecvTime = c.node.lastMsgRecvTime := by
    unfold ClientNode.resetPingFlag
    split_ifs <;> rfl
  rw [← hreset]
  exact (c.node.resetPingFlag.processReceivedData_cases r).2

/-- What there is to be said when a client gives up its node. -/
def Lost (n : ClientNode π) (now : TimePoint) : Prop :=
  (n.node.dtls && n.isActive) = false ∨
    n.lastMsgRecvTime + seconds 20 ≤ now ∧ (n.node.protocol = none ∨ n.pingFlag = true)

/-- What `check_deadline` may do: nothing, wait longer, send a `PING`, or give up. -/
theorem checkDeadline_cases (c : Client π) (aborted : Bool) :
    c.checkDeadline aborted = { c with wait := .running } ∧ (aborted = true ∨ c.isExpired = false) ∨
    aborted = false ∧ c.isExpired = true ∧
      (c.node.lastMsgRecvTime + seconds 20 > c.now ∧
          c.checkDeadline aborted = { c with expiresAt := some (c.now + seconds 10), wait := .running } ∨
        c.node.lastMsgRecvTime + seconds 20 ≤ c.now ∧ c.node.pingFlag = false ∧
          c.checkDeadline aborted = { c with
            node := { c.node with pingFlag := true }
            expiresAt := some (c.now + seconds 10), wait := .running, log := c.log ++ [.ping c.now] } ∨
        Lost c.node c.now ∧
          c.checkDeadline aborted = { c with
            receive := c.receive.cancel c.now, expiresAt := none, wait := .running,
            log := c.log ++ [.gaveUp c.now c.node] }) := by
  unfold checkDeadline
  cases aborted with
  | true => exact .inl ⟨rfl, .inl rfl⟩
  | false =>
      cases hexp : c.isExpired with
      | false => exact .inl ⟨rfl, .inr rfl⟩
      | true =>
          refine .inr ⟨rfl, rfl, ?_⟩
          simp only [Bool.not_false, Bool.and_self, if_true]
          unfold ClientNode.isReconnectNeeded
          cases hlive : (c.node.node.dtls && c.node.isActive) with
          | false => exact .inr (.inr ⟨.inl hlive, rfl⟩)
          | true =>
              simp only [if_true]
              by_cases hrecent : c.now - c.node.lastMsgRecvTime < seconds 20
              · rw [if_pos hrecent]
                exact .inl ⟨by linarith, rfl⟩
              · rw [if_neg hrecent]
                have hsilent : c.node.lastMsgRecvTime + seconds 20 ≤ c.now := by linarith
                cases hproto : c.node.node.protocol with
                | none => exact .inr (.inr ⟨.inr ⟨hsilent, .inl hproto⟩, rfl⟩)
                | some proto =>
                    cases hflag : c.node.pingFlag with
                    | false => exact .inr (.inl ⟨hsilent, rfl, rfl⟩)
                    | true => exact .inr (.inr ⟨.inr ⟨hsilent, .inr hflag⟩, rfl⟩)

/-- The moves that leave the deadline, the flag and the log alone. -/
structure Keeps (c c' : Client π) : Prop where
  log : c'.log = c.log
  pingFlag : c'.node.pingFlag = c.node.pingFlag
  expiresAt : c'.expiresAt = c.expiresAt
  now : c.now ≤ c'.now

theorem step_cases (h : c.step mv = some c') :
    Keeps c c' ∨ (∃ r, c' = c.handleDatagram r) ∨ ∃ aborted, c' = c.checkDeadline aborted := by
  cases mv with
  | arrive =>
      simp only [step] at h
      split_ifs at h
      exact .inl (Option.some.inj h ▸ ⟨rfl, rfl, rfl, le_rfl⟩)
  | fail =>
      simp only [step] at h
      split_ifs at h
      exact .inl (Option.some.inj h ▸ ⟨rfl, rfl, rfl, le_rfl⟩)
  | expire =>
      simp only [step] at h
      split at h
      · split_ifs at h
        exact .inl (Option.some.inj h ▸ ⟨rfl, rfl, rfl, le_rfl⟩)
      · cases h
  | handleReceive r =>
      simp only [step] at h
      split_ifs at h
      split at h
      · cases h
      · exact .inr (.inl ⟨r, (Option.some.inj h).symm⟩)
      · exact .inl (Option.some.inj h ▸ ⟨rfl, rfl, rfl, le_rfl⟩)
  | checkDeadline =>
      simp only [step] at h
      split_ifs at h
      split at h
      · cases h
      · cases h
      next aborted _ => exact .inr (.inr ⟨aborted, (Option.some.inj h).symm⟩)
  | handleSend =>
      simp only [step] at h
      split_ifs at h
      exact .inl (Option.some.inj h ▸ ⟨rfl, rfl, rfl, le_rfl⟩)
  | close => exact .inl (Option.some.inj h ▸ ⟨rfl, rfl, rfl, le_rfl⟩)
  | tick d =>
      refine .inl (Option.some.inj h ▸ ⟨rfl, rfl, rfl, ?_⟩)
      exact Int.le_add_of_nonneg_right (Int.natCast_nonneg d)

/-! ## Why a client gives up -/

/-- A `PING` was sent then, and no datagram was handled since. -/
def Unanswered (log : List (Entry π)) (p : TimePoint) : Prop :=
  ∃ before after, log = before ++ .ping p :: after ∧ ∀ t, .datagram t ∉ after

/-- The session was not active, or no message came for twenty seconds and there was no protocol to ask the peer with,
or a `PING` was without an answer for ten seconds. -/
def Justified (log : List (Entry π)) (t : TimePoint) (n : ClientNode π) : Prop :=
  (n.node.dtls && n.isActive) = false ∨
    n.lastMsgRecvTime + seconds 20 ≤ t ∧
      (n.node.protocol = none ∨ ∃ p, Unanswered log p ∧ p + seconds 10 ≤ t)

theorem Unanswered.append {log : List (Entry π)} {p : TimePoint} (h : Unanswered log p) {e : Entry π}
    (he : ∀ t, e ≠ .datagram t) : Unanswered (log ++ [e]) p := by
  obtain ⟨before, after, rfl, hafter⟩ := h
  refine ⟨before, after ++ [e], by rw [List.append_assoc, List.cons_append], fun t ht => ?_⟩
  rcases List.mem_append.mp ht with ht | ht
  · exact hafter t ht
  · exact he t (List.mem_singleton.mp ht).symm

/-- What every run keeps: a flag that is set has a `PING`, and the next check is ten seconds after it at least. -/
structure Regular (c : Client π) : Prop where
  flag : c.node.pingFlag = true →
    ∃ p, Unanswered c.log p ∧ p ≤ c.now ∧ ∀ e, c.expiresAt = some e → p + seconds 10 ≤ e
  justified : ∀ before after t n, c.log = before ++ .gaveUp t n :: after → Justified before t n

theorem justified_append {log : List (Entry π)} {e : Entry π}
    (h : ∀ before after t n, log = before ++ .gaveUp t n :: after → Justified before t n)
    (he : ∀ t n, e = .gaveUp t n → Justified log t n) :
    ∀ before after t n, log ++ [e] = before ++ .gaveUp t n :: after → Justified before t n := by
  intro before after t n hlog
  rcases List.eq_nil_or_concat after with rfl | ⟨after, x, rfl⟩
  · obtain ⟨rfl, hx⟩ := List.append_inj' hlog rfl
    exact he t n (List.cons.inj hx).1
  · rw [List.concat_eq_append, ← List.cons_append, ← List.append_assoc] at hlog
    exact h before after t n (List.append_inj' hlog rfl).1

theorem Regular.handleDatagram (hc : c.Regular) (r : Received π) : (c.handleDatagram r).Regular where
  flag h := absurd h (by simp [pingFlag_handleDatagram])
  justified := justified_append hc.justified nofun

theorem le_of_isExpired {e : TimePoint} (h : c.isExpired = true) (he : c.expiresAt = some e) : e ≤ c.now := by
  simpa [isExpired, he] using h

theorem Regular.checkDeadline (hc : c.Regular) (aborted : Bool) : (c.checkDeadline aborted).Regular := by
  have hten : (0 : ℤ) ≤ seconds 10 := by decide
  rcases checkDeadline_cases c aborted with ⟨he, _⟩ | ⟨_, hexp, ⟨_, he⟩ | ⟨_, hflag, he⟩ | ⟨hlost, he⟩⟩
  · rw [he]
    exact ⟨hc.flag, hc.justified⟩
  · rw [he]
    refine ⟨fun h => ?_, hc.justified⟩
    obtain ⟨p, hp, hle, _⟩ := hc.flag h
    refine ⟨p, hp, hle, fun e he => ?_⟩
    obtain rfl := Option.some.inj he
    exact add_le_add_left hle _
  · rw [he]
    refine ⟨fun _ => ⟨c.now, ⟨c.log, [], rfl, fun _ => List.not_mem_nil⟩, le_rfl, fun e he => ?_⟩,
      justified_append hc.justified nofun⟩
    exact (Option.some.inj he).le
  · rw [he]
    refine ⟨fun h => ?_, justified_append hc.justified fun t n hn => ?_⟩
    · obtain ⟨p, hp, hle, _⟩ := hc.flag h
      exact ⟨p, hp.append nofun, hle, nofun⟩
    · obtain ⟨rfl, rfl⟩ := Entry.gaveUp.inj hn
      refine hlost.imp id fun ⟨hsilent, hasked⟩ => ⟨hsilent, hasked.imp id fun h => ?_⟩
      -- the deadline that has passed was set after the `PING`
      obtain ⟨p, hp, _, hdeadline⟩ := hc.flag h
      cases hexpires : c.expiresAt with
      | none => simp [isExpired, hexpires] at hexp
      | some e => exact ⟨p, hp, (hdeadline e hexpires).trans (le_of_isExpired hexp hexpires)⟩

theorem Regular.step (hc : c.Regular) (h : c.step mv = some c') : c'.Regular := by
  rcases step_cases h with hkeeps | ⟨r, rfl⟩ | ⟨aborted, rfl⟩
  · refine ⟨fun hflag => ?_, fun before after t n hlog => hc.justified before after t n (hkeeps.log ▸ hlog)⟩
    obtain ⟨p, hp, hle, hdeadline⟩ := hc.flag (hkeeps.pingFlag ▸ hflag)
    exact ⟨p, hkeeps.log.symm ▸ hp, hle.trans hkeeps.now, fun e he => hdeadline e (hkeeps.expiresAt ▸ he)⟩
  · exact hc.handleDatagram r
  · exact hc.checkDeadline aborted

theorem regular_start (t₀ : TimePoint) : (start t₀ : Client π).Regular := by
  refine Regular.checkDeadline ⟨fun h => Bool.false_ne_true h |>.elim, fun before after t n hlog => ?_⟩ false
  cases before with
  | nil => cases hlog
  | cons e before => cases before with
    | nil => cases hlog
    | cons e' before => cases hlog

/-- **A client does not give up early**: whenever it cancels its socket, the session was not active, or no message had
come for twenty seconds and the peer could not be asked, or had been asked ten seconds ago at least, and nothing had
come since. In every order of the handlers, and of `close`. -/
theorem gaveUp_justified (moves : List (Move π)) (h : (start t₀).run moves = some c) (before after : List (Entry π))
    (t : TimePoint) (n : ClientNode π) (hlog : c.log = before ++ .gaveUp t n :: after) : Justified before t n :=
  (invariant_foldlM (fun _ _ _ hc h => Regular.step hc h) (regular_start t₀) h).justified before after t n hlog

/-- The session becomes active, and then the peer is silent. -/
def silentPeer : List (Move ℕ) :=
  [.arrive, .handleReceive ⟨[], false, true, some 7⟩, .checkDeadline, .tick 10000000000, .expire, .checkDeadline,
    .tick 10000000000, .expire, .checkDeadline, .tick 10000000000, .expire, .checkDeadline]

theorem gaveUp_justified_silentPeer : ∃ c, (start 0).run silentPeer = some c ∧
    c.log = [.started 0, .datagram 0, .ping (seconds 20), .gaveUp (seconds 30) ⟨⟨true, some 7⟩, true, true, 0⟩] ∧
    Justified [.started 0, .datagram 0, .ping (seconds 20)] (seconds 30) ⟨⟨true, some 7⟩, true, true, 0⟩ := by
  obtain ⟨c, hrun, hlog⟩ : ∃ c : Client ℕ, (start 0).run silentPeer = some c ∧ c.log =
      [.started 0, .datagram 0, .ping (seconds 20), .gaveUp (seconds 30) ⟨⟨true, some 7⟩, true, true, 0⟩] :=
    ⟨_, rfl, rfl⟩
  exact ⟨c, hrun, hlog, gaveUp_justified silentPeer hrun _ [] _ _ hlog⟩

/-! ## How long a client runs without hearing from its peer -/

/-- The times since when a handler is due. -/
def due (c : Client π) : List TimePoint :=
  (match c.receive with
    | .outstanding => []
    | .arrived since | .failed since => [since]) ++
  match c.wait with
    | .idle => []
    | .running => c.expiresAt.toList
    | .queued since _ => [since]

/-- Time does not go on when a handler is late by `δ`. -/
def Prompt (δ : TimePoint) (c : Client π) : Move π → Prop
  | .tick d => ∀ t ∈ c.due, c.now + d ≤ t + δ
  | _ => True

instance (δ : TimePoint) (c : Client π) : (mv : Move π) → Decidable (c.Prompt δ mv)
  | .tick d => inferInstanceAs (Decidable (∀ t ∈ c.due, c.now + d ≤ t + δ))
  | .arrive | .fail | .expire | .handleReceive _ | .checkDeadline | .handleSend | .close =>
      inferInstanceAs (Decidable True)

/-- The client was started then, or handled a datagram. -/
def HeardAt (c : Client π) (t : TimePoint) : Prop := .started t ∈ c.log ∨ .datagram t ∈ c.log

/-- The checks since the client has heard from its peer at `L`: the first one may come too early for a `PING`, the
second one sends it, and with the third one the socket is cancelled. -/
inductive Phase (δ L : TimePoint) (c : Client π) : Prop
  | first (h : c.expiresAt = some (L + seconds 10))
  | second (e : TimePoint) (h : c.expiresAt = some e) (hle : L + seconds 20 ≤ e) (hlate : e ≤ L + seconds 20 + δ)
  | third (e : TimePoint) (h : c.expiresAt = some e) (hle : L + seconds 20 ≤ e) (hlate : e ≤ L + seconds 30 + 2 * δ)
      (hflag : c.node.pingFlag = true)
  | gone (h : c.expiresAt = none) (since : TimePoint)
      (hreceive : c.receive = .arrived since ∨ c.receive = .failed since) (hlate : since ≤ L + seconds 30 + 3 * δ)

/-- What a prompt run keeps while the client runs. -/
structure Hears (δ L : TimePoint) (c : Client π) : Prop where
  heard : c.HeardAt L
  le_now : L ≤ c.now
  last : c.node.lastMsgRecvTime ≤ L
  phase : c.Phase δ L
  onTime : ∀ t ∈ c.due, c.now ≤ t + δ
  waits : c.wait ≠ .idle
  wait : ∀ t aborted, c.wait = .queued t aborted → t ≤ c.now ∧ ∀ e, c.expiresAt = some e → t ≤ e
  receive : ∀ t, c.receive = .arrived t ∨ c.receive = .failed t → t ≤ c.now

theorem forall_due_iff {P : TimePoint → Prop} : (∀ t ∈ c.due, P t) ↔
    (∀ t, c.receive = .arrived t ∨ c.receive = .failed t → P t) ∧ (∀ t aborted, c.wait = .queued t aborted → P t) ∧
      (c.wait = .running → ∀ e, c.expiresAt = some e → P e) := by
  unfold due
  cases c.receive <;> cases c.wait <;> cases c.expiresAt <;> simp

theorem Hears.le_deadline (hc : c.Hears δ L) {e : TimePoint} (he : c.expiresAt = some e) : c.now ≤ e + δ := by
  obtain ⟨-, hqueued, hrunning⟩ := forall_due_iff.mp hc.onTime
  cases hw : c.wait with
  | idle => exact absurd hw hc.waits
  | running => exact hrunning hw e he
  | queued t aborted => exact (hqueued t aborted hw).trans (add_le_add_left ((hc.wait t aborted hw).2 e he) δ)

theorem Phase.congr (h : c.Phase δ L) (hexpires : c'.expiresAt = c.expiresAt)
    (hflag : c'.node.pingFlag = c.node.pingFlag) (hreceive : c.receive ≠ .outstanding → c'.receive = c.receive) :
    c'.Phase δ L := by
  cases h with
  | first h => exact .first (hexpires.trans h)
  | second e h hle hlate => exact .second e (hexpires.trans h) hle hlate
  | third e h hle hlate hset => exact .third e (hexpires.trans h) hle hlate (hflag.trans hset)
  | gone h since hqueued hlate =>
      have hsame := hreceive (by rcases hqueued with hq | hq <;> simp [hq])
      exact .gone (hexpires.trans h) since (hsame.symm ▸ hqueued) hlate

theorem wait_handleDatagram {r : Received π} {t : TimePoint} {aborted : Bool}
    (h : (c.handleDatagram r).wait = .queued t aborted) : t = c.now ∨ c.wait = .queued t aborted := by
  change (match c.wait with
    | .running => Wait.queued c.now true
    | w => w) = .queued t aborted at h
  cases hw : c.wait with
  | idle =>
      rw [hw] at h
      cases h
  | running =>
      rw [hw] at h
      exact .inl (Wait.queued.inj h).1.symm
  | queued t' aborted' =>
      rw [hw] at h
      exact .inr h

theorem Hears.handleDatagram (hδ : 0 ≤ δ) (hc : c.Hears δ L) (r : Received π) :
    (c.handleDatagram r).Hears δ c.now := by
  have hten : (0 : ℤ) ≤ seconds 10 := by decide
  constructor
  case heard => exact .inr (List.mem_append_right _ (List.mem_singleton.mpr rfl))
  case le_now => exact le_rfl
  case last =>
      rcases lastMsgRecvTime_handleDatagram c r with h | h
      · exact h.le.trans (hc.last.trans hc.le_now)
      · exact h.le
  case phase => exact .first rfl
  case onTime =>
      refine forall_due_iff.mpr ⟨fun t ht => ?_, fun t aborted ht => ?_, fun _ e he => ?_⟩
      · rcases ht with ht | ht <;> cases ht
      · rcases wait_handleDatagram ht with rfl | ht
        · exact Int.le_add_of_nonneg_right hδ
        · exact (forall_due_iff.mp hc.onTime).2.1 t aborted ht
      · obtain rfl := Option.some.inj he
        change c.now ≤ c.now + seconds 10 + δ
        linarith
  case waits =>
      change (match c.wait with
        | .running => Wait.queued c.now true
        | w => w) ≠ .idle
      cases hw : c.wait with
      | idle => exact absurd hw hc.waits
      | running => exact nofun
      | queued t aborted => exact nofun
  case wait =>
      intro t aborted ht
      have hle : t ≤ c.now := (wait_handleDatagram ht).elim le_of_eq fun ht => (hc.wait t aborted ht).1
      refine ⟨hle, fun e he => ?_⟩
      obtain rfl := Option.some.inj he
      exact hle.trans (Int.le_add_of_nonneg_right hten)
  case receive =>
      intro t ht
      rcases ht with ht | ht <;> cases ht

theorem Hears.wait_again (hc : c.Hears δ L) : { c with wait := .running }.Hears δ L := by
  constructor
  case heard => exact hc.heard
  case le_now => exact hc.le_now
  case last => exact hc.last
  case phase => exact hc.phase.congr rfl rfl fun _ => rfl
  case onTime => exact forall_due_iff.mpr ⟨(forall_due_iff.mp hc.onTime).1, nofun, fun _ e he => hc.le_deadline he⟩
  case waits => exact nofun
  case wait => exact nofun
  case receive => exact hc.receive

theorem Hears.wait_longer (hδ : 0 ≤ δ) (hc : c.Hears δ L) (node : ClientNode π) (log : List (Entry π))
    (hlog : c.log <+: log) (hlast : node.lastMsgRecvTime = c.node.lastMsgRecvTime)
    (hphase : Phase δ L { c with node := node, expiresAt := some (c.now + seconds 10), wait := .running, log := log }) :
    { c with node := node, expiresAt := some (c.now + seconds 10), wait := .running, log := log }.Hears δ L := by
  have hten : (0 : ℤ) ≤ seconds 10 := by decide
  constructor
  case heard => exact hc.heard.imp (hlog.subset ·) (hlog.subset ·)
  case le_now => exact hc.le_now
  case last => exact hlast.le.trans hc.last
  case phase => exact hphase
  case onTime =>
      refine forall_due_iff.mpr ⟨(forall_due_iff.mp hc.onTime).1, nofun, fun _ e he => ?_⟩
      obtain rfl := Option.some.inj he
      change c.now ≤ c.now + seconds 10 + δ
      linarith
  case waits => exact nofun
  case wait => exact nofun
  case receive => exact hc.receive

theorem cancel_cases (r : Receive) (now : TimePoint) :
    ∃ t, (r.cancel now = .arrived t ∨ r.cancel now = .failed t) ∧ (t = now ∨ r = .arrived t ∨ r = .failed t) := by
  cases r with
  | outstanding => exact ⟨now, .inr rfl, .inl rfl⟩
  | arrived t => exact ⟨t, .inl rfl, .inr (.inl rfl)⟩
  | failed t => exact ⟨t, .inr rfl, .inr (.inr rfl)⟩

theorem Hears.give_up (hδ : 0 ≤ δ) (hc : c.Hears δ L) (hnow : c.now ≤ L + seconds 30 + 3 * δ) :
    { c with
      receive := c.receive.cancel c.now, expiresAt := none, wait := .running,
      log := c.log ++ [Entry.gaveUp c.now c.node] }.Hears δ L := by
  obtain ⟨t, ht, hsince⟩ := cancel_cases c.receive c.now
  have hle : t ≤ c.now := hsince.elim le_of_eq (hc.receive t)
  have hunique : ∀ u, c.receive.cancel c.now = .arrived u ∨ c.receive.cancel c.now = .failed u → u = t := by
    intro u hu
    rcases ht with ht | ht <;> rw [ht] at hu <;> rcases hu with hu | hu <;> cases hu <;> rfl
  constructor
  case heard => exact hc.heard.imp (List.mem_append_left _) (List.mem_append_left _)
  case le_now => exact hc.le_now
  case last => exact hc.last
  case phase => exact .gone rfl t ht (hle.trans hnow)
  case onTime =>
      refine forall_due_iff.mpr ⟨fun u hu => ?_, nofun, fun _ e he => nomatch he⟩
      rw [hunique u hu]
      rcases hsince with rfl | hsince
      · exact Int.le_add_of_nonneg_right hδ
      · exact (forall_due_iff.mp hc.onTime).1 t hsince
  case waits => exact nofun
  case wait => exact nofun
  case receive =>
      intro u hu
      rw [hunique u hu]
      exact hle

/-- **A check is in time**: it does nothing, or it comes early enough for the next phase. -/
theorem Hears.checkDeadline (hδ : 0 ≤ δ) (hc : c.Hears δ L) (aborted : Bool) :
    (c.checkDeadline aborted).Hears δ L := by
  have hten : (0 : ℤ) ≤ seconds 10 := by decide
  have h20 : seconds 20 = seconds 10 + seconds 10 := by decide
  have h30 : seconds 30 = seconds 20 + seconds 10 := by decide
  rcases checkDeadline_cases c aborted with ⟨he, _⟩ | ⟨_, hexp, hcheck⟩
  · exact he ▸ hc.wait_again
  · obtain ⟨e, hexpires⟩ : ∃ e, c.expiresAt = some e := by
      cases h : c.expiresAt with
      | none => simp [isExpired, h] at hexp
      | some e => exact ⟨e, rfl⟩
    have hle := le_of_isExpired hexp hexpires
    have hlate := hc.le_deadline hexpires
    have hlast := hc.last
    rcases hcheck with ⟨hrecent, hcheck⟩ | ⟨_, hflag, hcheck⟩ | ⟨_, hcheck⟩
    · rw [hcheck]
      refine hc.wait_longer hδ c.node c.log List.prefix_rfl rfl ?_
      cases hc.phase with
      | first h =>
          obtain rfl := Option.some.inj (hexpires.symm.trans h)
          exact .second _ rfl (by linarith) (by linarith)
      | second e' h hsilent _ =>
          obtain rfl := Option.some.inj (hexpires.symm.trans h)
          linarith
      | third e' h hsilent _ _ =>
          obtain rfl := Option.some.inj (hexpires.symm.trans h)
          linarith
      | gone h _ _ _ => cases hexpires.symm.trans h
    · rw [hcheck]
      refine hc.wait_longer hδ _ _ (List.prefix_append c.log _) rfl ?_
      cases hc.phase with
      | first h =>
          obtain rfl := Option.some.inj (hexpires.symm.trans h)
          exact .second _ rfl (by linarith) (by linarith)
      | second e' h hsilent _ =>
          obtain rfl := Option.some.inj (hexpires.symm.trans h)
          exact .third _ rfl (by linarith) (by linarith) rfl
      | third e' h _ _ hset => cases hflag.symm.trans hset
      | gone h _ _ _ => cases hexpires.symm.trans h
    · rw [hcheck]
      refine hc.give_up hδ ?_
      cases hc.phase with
      | first h =>
          obtain rfl := Option.some.inj (hexpires.symm.trans h)
          linarith
      | second e' h _ hlate' =>
          obtain rfl := Option.some.inj (hexpires.symm.trans h)
          linarith
      | third e' h _ hlate' _ =>
          obtain rfl := Option.some.inj (hexpires.symm.trans h)
          linarith
      | gone h _ _ _ => cases hexpires.symm.trans h

theorem Hears.received (hδ : 0 ≤ δ) (hc : c.Hears δ L) (hout : c.receive = .outstanding) {r : Receive}
    (hr : r = .arrived c.now ∨ r = .failed c.now) : { c with receive := r }.Hears δ L := by
  obtain ⟨-, hqueued, hrunning⟩ := forall_due_iff.mp hc.onTime
  have hsince : ∀ t, r = .arrived t ∨ r = .failed t → t = c.now := by
    intro t ht
    rcases hr with rfl | rfl <;> rcases ht with ht | ht <;> cases ht <;> rfl
  constructor
  case heard => exact hc.heard
  case le_now => exact hc.le_now
  case last => exact hc.last
  case phase => exact hc.phase.congr rfl rfl fun h => absurd hout h
  case onTime =>
      refine forall_due_iff.mpr ⟨fun t ht => ?_, hqueued, hrunning⟩
      rw [hsince t ht]
      exact Int.le_add_of_nonneg_right hδ
  case waits => exact hc.waits
  case wait => exact hc.wait
  case receive => exact fun t ht => (hsince t ht).le

theorem Hears.expired (hc : c.Hears δ L) {e : TimePoint} (hexpires : c.expiresAt = some e) (hle : e ≤ c.now) :
    { c with wait := .queued e false }.Hears δ L := by
  constructor
  case heard => exact hc.heard
  case le_now => exact hc.le_now
  case last => exact hc.last
  case phase => exact hc.phase.congr rfl rfl fun _ => rfl
  case onTime =>
      refine forall_due_iff.mpr ⟨(forall_due_iff.mp hc.onTime).1, fun t aborted ht => ?_, nofun⟩
      obtain rfl := (Wait.queued.inj ht).1
      exact hc.le_deadline hexpires
  case waits => exact nofun
  case wait =>
      intro t aborted ht
      obtain rfl := (Wait.queued.inj ht).1
      exact ⟨hle, fun e' he => (Option.some.inj (hexpires.symm.trans he)).le⟩
  case receive => exact hc.receive

theorem Hears.tick (hc : c.Hears δ L) {d : ℕ} (hp : ∀ t ∈ c.due, c.now + d ≤ t + δ) :
    { c with now := c.now + d }.Hears δ L := by
  have hle : c.now ≤ c.now + d := Int.le_add_of_nonneg_right (Int.natCast_nonneg d)
  constructor
  case heard => exact hc.heard
  case le_now => exact hc.le_now.trans hle
  case last => exact hc.last
  case phase => exact hc.phase.congr rfl rfl fun _ => rfl
  case onTime => exact hp
  case waits => exact hc.waits
  case wait => exact fun t aborted ht => ⟨(hc.wait t aborted ht).1.trans hle, (hc.wait t aborted ht).2⟩
  case receive => exact fun t ht => (hc.receive t ht).trans hle

theorem Hears.step (hδ : 0 ≤ δ) (hc : c.Hears δ L) (hp : c.Prompt δ mv) (h : c.step mv = some c')
    (hruns : c'.ended = false) : ∃ L', c'.Hears δ L' := by
  cases mv with
  | arrive =>
      simp only [Client.step] at h
      split_ifs at h with hout
      cases h
      exact ⟨L, hc.received hδ hout (.inl rfl)⟩
  | fail =>
      simp only [Client.step] at h
      split_ifs at h with hout
      cases h
      exact ⟨L, hc.received hδ hout (.inr rfl)⟩
  | expire =>
      simp only [Client.step] at h
      split at h
      next e _ hexpires =>
        split_ifs at h with hle
        cases h
        exact ⟨L, hc.expired hexpires hle⟩
      · cases h
  | handleReceive r =>
      simp only [Client.step] at h
      split_ifs at h
      split at h
      · cases h
      · cases h
        exact ⟨c.now, hc.handleDatagram hδ r⟩
      · cases h
        cases hruns
  | checkDeadline =>
      simp only [Client.step] at h
      split_ifs at h
      split at h
      · cases h
      · cases h
      · cases h
        exact ⟨L, hc.checkDeadline hδ _⟩
  | handleSend =>
      simp only [Client.step] at h
      split_ifs at h
      cases h
      cases hruns
  | close =>
      cases h
      cases hruns
  | tick d =>
      cases h
      exact ⟨L, hc.tick hp⟩

theorem frame_checkDeadline (c : Client π) (aborted : Bool) :
    (c.checkDeadline aborted).now = c.now ∧ (c.checkDeadline aborted).ended = c.ended := by
  rcases checkDeadline_cases c aborted with ⟨he, _⟩ | ⟨_, _, ⟨_, he⟩ | ⟨_, _, he⟩ | ⟨_, he⟩⟩ <;> rw [he] <;>
    exact ⟨rfl, rfl⟩

theorem frame_start (t₀ : TimePoint) : (start t₀ : Client π).now = t₀ ∧ (start t₀ : Client π).ended = false :=
  frame_checkDeadline _ false

theorem now_step (h : c.step mv = some c') (hmv : ∀ d, mv ≠ .tick d) : c'.now = c.now := by
  cases mv <;> simp only [Client.step] at h
  case arrive | fail | handleSend =>
      split_ifs at h
      cases h
      rfl
  case expire =>
      split at h
      · split_ifs at h
        cases h
        rfl
      · cases h
  case handleReceive =>
      split_ifs at h
      split at h <;> cases h <;> rfl
  case checkDeadline =>
      split_ifs at h
      split at h
      · cases h
      · cases h
      · cases h
        exact (frame_checkDeadline c _).1
  case close =>
      cases h
      rfl
  case tick d => exact absurd rfl (hmv d)

theorem ended_step (h : c.step mv = some c') (hruns : c'.ended = false) : c.ended = false := by
  cases mv <;> simp only [Client.step] at h
  case arrive | fail =>
      split_ifs at h
      cases h
      exact hruns
  case expire =>
      split at h
      · split_ifs at h
        cases h
        exact hruns
      · cases h
  case handleReceive | checkDeadline | handleSend =>
      split_ifs at h with hended
      exact Bool.eq_false_of_not_eq_true hended
  case close =>
      cases h
      cases hruns
  case tick =>
      cases h
      exact hruns

theorem HeardAt.step {t : TimePoint} (ht : c.HeardAt t) (h : c.step mv = some c') : c'.HeardAt t := by
  have happend : c.log <+: c'.log := by
    rcases step_cases h with hkeeps | ⟨r, rfl⟩ | ⟨aborted, rfl⟩
    · exact hkeeps.log ▸ List.prefix_rfl
    · exact List.prefix_append c.log _
    · rcases checkDeadline_cases c aborted with ⟨he, _⟩ | ⟨_, _, ⟨_, he⟩ | ⟨_, _, he⟩ | ⟨_, he⟩⟩
      · exact he ▸ List.prefix_rfl
      · exact he ▸ List.prefix_rfl
      · exact he ▸ List.prefix_append c.log _
      · exact he ▸ List.prefix_append c.log _
  exact ht.imp (happend.subset ·) (happend.subset ·)

theorem start_eq (t₀ : TimePoint) : (start t₀ : Client π) =
    { node := ⟨⟨true, none⟩, false, false, 0⟩, receive := .outstanding, expiresAt := some (t₀ + seconds 10),
      wait := .running, ended := false, now := t₀, log := [.started t₀] } := by
  have hten : (0 : ℤ) < seconds 10 := by decide
  have hcases := checkDeadline_cases (startReceive
    { node := ⟨⟨true, none⟩, false, false, 0⟩, receive := .outstanding, expiresAt := none, wait := .idle,
      ended := false, now := t₀, log := [.started t₀] } : Client π) false
  rcases hcases with ⟨he, _⟩ | ⟨_, hexp, _⟩
  · exact he
  · have hle : t₀ + seconds 10 ≤ t₀ := le_of_isExpired hexp rfl
    linarith

theorem hears_start (hδ : 0 ≤ δ) (ht₀ : 0 ≤ t₀) : (start t₀ : Client π).Hears δ t₀ := by
  have hten : (0 : ℤ) ≤ seconds 10 := by decide
  rw [start_eq]
  constructor
  case heard => exact .inl (List.mem_singleton.mpr rfl)
  case le_now => exact le_rfl
  case last => exact ht₀
  case phase => exact .first rfl
  case onTime =>
      intro t ht
      obtain rfl := List.mem_singleton.mp ht
      change t₀ ≤ t₀ + seconds 10 + δ
      linarith
  case waits => exact nofun
  case wait => exact nofun
  case receive =>
      intro t ht
      rcases ht with ht | ht <;> cases ht

theorem Hears.now_le (hδ : 0 ≤ δ) (hc : c.Hears δ L) : c.now ≤ L + seconds 30 + 4 * δ := by
  have hten : (0 : ℤ) ≤ seconds 10 := by decide
  have h20 : seconds 20 = seconds 10 + seconds 10 := by decide
  have h30 : seconds 30 = seconds 20 + seconds 10 := by decide
  cases hc.phase with
  | first hexpires => linarith [hc.le_deadline hexpires]
  | second e hexpires _ hlate => linarith [hc.le_deadline hexpires]
  | third e hexpires _ hlate _ => linarith [hc.le_deadline hexpires]
  | gone _ since hreceive hlate => linarith [(forall_due_iff.mp hc.onTime).1 since hreceive]

/-- **A client that runs has heard from its peer** within the last thirty seconds and four delays of a handler:
it was started then, or handled a datagram. So a client whose peer is silent ends by then. -/
theorem heard_recently (moves : List (Move π)) (hδ : 0 ≤ δ) (ht₀ : 0 ≤ t₀)
    (hp : Along step (Prompt δ) (start t₀) moves) (h : (start t₀).run moves = some c) (hruns : c.ended = false) :
    ∃ t, c.HeardAt t ∧ c.now ≤ t + seconds 30 + 4 * δ := by
  obtain ⟨L, hc⟩ := Along.invariant (I := fun c : Client π => c.ended = false → ∃ L, c.Hears δ L)
    (fun c mv c' hc hp h hruns =>
      let ⟨_, hears⟩ := hc (ended_step h hruns)
      hears.step hδ hp h hruns)
    hp (fun _ => ⟨t₀, hears_start hδ ht₀⟩) h hruns
  exact ⟨L, hc.heard, hc.now_le hδ⟩

theorem heard_recently_silentPeer : ∃ c, (start 0).run silentPeer = some c ∧ c.now = seconds 30 ∧
    ∃ t, c.HeardAt t ∧ c.now ≤ t + seconds 30 + 4 * 0 :=
  ⟨_, rfl, rfl, heard_recently silentPeer le_rfl le_rfl (by decide) rfl rfl⟩

end Client

end HelpzClient
