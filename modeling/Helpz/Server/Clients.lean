import Helpz.Server.Node
import Mathlib.Logic.Function.Basic
import Mathlib.Data.Int.Notation

/-!
# The clients of the server

`Server_Controller` with the nodes of its clients: what arrives on the socket, what is posted to the `io_context`,
what removes a client, and the records on their way to the protocols.

* `Server`, `Move`, `step`: every order of datagrams, posted handlers, removals and records;
* `ByCalls`: all that happens to a node are the calls of `Node` (`byCalls_step`);
* `keys`: the endpoints in `clients_`, and what each function does to them;
* `OnlyByDatagram`, `Found`: an endpoint becomes a key only by a datagram of its own exactly if each write that is
  executed finds its client (`onlyByDatagram_iff`).
-/

namespace HelpzServer

open HelpzLib

/-- `Server_Node`. The time counts from the epoch, which is what `last_msg_recv_time_` is at first. -/
structure ServerNode (ε π : Type) where
  receiverEndpoint : ε
  node : Node π
  lastMsgRecvTime : ℕ

/-- What is posted to the `io_context`: the handler of `Node::write`, and `remove_client`. -/
inductive Task (ε : Type)
  | write (endpoint : ε)
  | removeClient (endpoint : ε)
  deriving DecidableEq

/-- What happens to a node. -/
inductive Event
  | created
  | datagram
  /-- `process_bytes`, with the node as the writer -/
  | processed
  deriving DecidableEq

/-- An event of a node, and when it was. -/
structure LogEntry where
  node : ℕ
  event : Event
  time : ℕ
  deriving DecidableEq

/-- `Server_Controller` with endpoints `ε` and protocols `π`. Nodes have numbers. `handling` are the nodes of the
datagrams whose data is not processed yet, and `hands` the records whose protocol a thread has asked for; `log` is
what has happened to the nodes. -/
structure Server (ε π : Type) where
  clients : List (ε × ℕ)
  nodes : List (ServerNode ε π)
  writer : π → Option ℕ
  tasks : List (Task ε)
  handling : List ℕ
  recordsQueue : List (ℕ × ℕ)
  hands : List (ℕ × π)
  now : ℕ
  log : List LogEntry

/-- What the TLS channel calls back while it is given received data. -/
inductive Callback (π : Type)
  | alert (type : ℕ)
  /-- with what `create_protocol_func_` returns -/
  | chooseAppProtocol (protocol : Option π)
  | record (size : ℕ)

namespace Server

variable {ε π : Type} [DecidableEq ε] [DecidableEq π]

/-- A call to a node. -/
def act (s : Server ε π) (n : ℕ) (c : Node.Call π) : Server ε π :=
  match s.nodes[n]? with
  | none => s
  | some x =>
      { s with
        nodes := s.nodes.set n { x with node := (x.node.call c).1 }
        writer := (x.node.call c).2.foldl (fun writer effect => match effect with
          | .closed _ => writer
          | .setWriter p attached => Function.update writer p (if attached then some n else none)) s.writer }

def post (s : Server ε π) (t : Task ε) : Server ε π := { s with tasks := s.tasks ++ [t] }

/-- An event of a node. -/
def note (s : Server ε π) (n : ℕ) (event : Event) : Server ε π := { s with log := s.log ++ [⟨n, event, s.now⟩] }

/-- `find_client`. -/
def findClient (s : Server ε π) (e : ε) : Option ℕ := (s.clients.find? fun c => decide (c.1 = e)).map Prod.snd

/-- `create_client`. -/
def createClient (s : Server ε π) (e : ε) : Server ε π × ℕ :=
  match s.findClient e with
  | some n => (s, n)
  | none =>
      let n := s.nodes.length
      (note { s with clients := s.clients ++ [(e, n)], nodes := s.nodes ++ [⟨e, ⟨true, none⟩, 0⟩] } n .created, n)

/-- `get_node`. -/
def getNode (s : Server ε π) (e : ε) : Server ε π × ℕ :=
  match s.findClient e with
  | some n => (s, n)
  | none => s.createClient e

/-- `remove_client`. -/
def removeClient (s : Server ε π) (e : ε) : Server ε π :=
  { s with clients := s.clients.filter fun c => decide (c.1 ≠ e) }

/-- The loops of `remove_copy` and `remove_frozen_clients`. -/
def removeWhere (s : Server ε π) (p : ℕ → Bool) : Server ε π :=
  { (s.clients.filter fun c => p c.2).foldl (fun s c => s.act c.2 .close) s with
    clients := s.clients.filter fun c => !p c.2 }

/-- Whether a node has another protocol than `client` that is equal to it. -/
def isCopy (s : Server ε π) (equal : π → π → Bool) (client : π) (n : ℕ) : Bool :=
  match s.nodes[n]?.bind fun x => x.node.protocol with
  | some proto => proto ≠ client && equal proto client
  | none => false

/-- `check_copy`. -/
def checkCopy (s : Server ε π) (equal : π → π → Bool) (client : π) : Bool :=
  s.clients.any fun c => s.isCopy equal client c.2

/-- `remove_copy`. -/
def removeCopy (s : Server ε π) (equal : π → π → Bool) (client : π) : Server ε π :=
  if s.checkCopy equal client then s.removeWhere (s.isCopy equal client) else s

/-- Whether a node has not received a message for longer than the timeout. -/
def isFrozen (s : Server ε π) (frozenTimeout : ℤ) (n : ℕ) : Bool :=
  match s.nodes[n]? with
  | some x => (s.now : ℤ) - x.lastMsgRecvTime > frozenTimeout
  | none => false

/-- `check_frozen_clients`. -/
def checkFrozenClients (s : Server ε π) (frozenTimeout : ℤ) : Bool :=
  s.clients.any fun c => s.isFrozen frozenTimeout c.2

/-- `remove_frozen_clients`. -/
def removeFrozenClients (s : Server ε π) (frozenTimeout : ℤ) : Server ε π :=
  if s.checkFrozenClients frozenTimeout then s.removeWhere (s.isFrozen frozenTimeout) else s

/-- `Server_Node::tls_alert`, `tls_server_choose_app_protocol` and `tls_record_received`. -/
def callback (s : Server ε π) (n : ℕ) (c : Callback π) : Server ε π :=
  match s.nodes[n]? with
  | none => s
  | some x =>
      if !x.node.dtls then s
      else match c with
        | .alert type =>
            if type = closeNotify then (s.act n (.tlsAlert type)).post (.removeClient x.receiverEndpoint)
            else s.act n (.tlsAlert type)
        | .chooseAppProtocol (some p) => s.act n (.setProtocol (some p))
        | .chooseAppProtocol none => s.post (.removeClient x.receiverEndpoint)
        | .record size => { s with recordsQueue := s.recordsQueue ++ [(n, size)] }

/-- `Protocol::process_bytes`, up to where it sets the time. -/
def processBytes (s : Server ε π) (size : ℕ) (p : π) : Server ε π :=
  if size = 0 then s
  else match s.writer p with
    | none => s
    | some n =>
        match s.nodes[n]? with
        | none => s
        | some x => note { s with nodes := s.nodes.set n { x with lastMsgRecvTime := s.now } } n .processed

end Server

/-- What happens next. -/
inductive Server.Move (ε π : Type)
  /-- `handle_receive`: a datagram from the endpoint, up to its node -/
  | receive (endpoint : ε)
  /-- and `process_data` -/
  | processData (k : ℕ) (callbacks : List (Callback π))
  /-- `Node::write` -/
  | write (node : ℕ)
  /-- the `io_context` executes what was posted -/
  | execute (k : ℕ)
  | removeClient (endpoint : ε)
  | removeCopy (client : π)
  | removeFrozenClients (frozenTimeout : ℤ)
  /-- a record thread takes the next record, and asks for the protocol of its node -/
  | takeRecord
  | processBytes (k : ℕ)
  | tick (d : ℕ)

namespace Server

variable {ε π : Type} [DecidableEq ε] [DecidableEq π]

omit [DecidableEq ε] [DecidableEq π] in
/-- A new controller. -/
def start (now : ℕ) : Server ε π where
  clients := []
  nodes := []
  writer _ := none
  tasks := []
  handling := []
  recordsQueue := []
  hands := []
  now := now
  log := []

variable (equal : π → π → Bool)

/-- A step; `equal` is `operator ==` of the protocols. -/
def step (s : Server ε π) : Move ε π → Server ε π
  | .receive e =>
      let (s, n) := s.getNode e
      note { s with handling := s.handling ++ [n] } n .datagram
  | .processData k callbacks =>
      match s.handling[k]? with
      | none => s
      | some n =>
          callbacks.foldl (fun s c => s.callback n c) (note { s with handling := s.handling.eraseIdx k } n .datagram)
  | .write n =>
      match s.nodes[n]? with
      | none => s
      | some x => s.post (.write x.receiverEndpoint)
  | .execute k =>
      match s.tasks[k]? with
      | none => s
      | some t =>
          let s := { s with tasks := s.tasks.eraseIdx k }
          match t with
          | .write e => (s.getNode e).1
          | .removeClient e => s.removeClient e
  | .removeClient e => s.removeClient e
  | .removeCopy client => s.removeCopy equal client
  | .removeFrozenClients frozenTimeout => s.removeFrozenClients frozenTimeout
  | .takeRecord =>
      match s.recordsQueue with
      | [] => s
      | (n, size) :: queue =>
          let s := { s with recordsQueue := queue }
          match s.nodes[n]?.bind fun x => x.node.protocol with
          | none => s
          | some p => { s with hands := s.hands ++ [(size, p)] }
  | .processBytes k =>
      match s.hands[k]? with
      | none => s
      | some (size, p) => processBytes { s with hands := s.hands.eraseIdx k } size p
  | .tick d => { s with now := s.now + d }

/-! ## The nodes of the controller -/

/-- The nodes are still there, and were changed by calls only. -/
def ByCalls (s s' : Server ε π) : Prop :=
  ∀ (n : ℕ) (x : ServerNode ε π), s.nodes[n]? = some x → ∃ (calls : List (Node.Call π)) (x' : ServerNode ε π),
    s'.nodes[n]? = some x' ∧ x'.node = calls.foldl (fun m c => (m.call c).1) x.node

section

omit [DecidableEq ε] [DecidableEq π]

variable {s s' s'' : Server ε π}

theorem byCalls_of_eq (h : s'.nodes = s.nodes) : s.ByCalls s' := fun _ x hx => ⟨[], x, h ▸ hx, rfl⟩

theorem ByCalls.trans (h : s.ByCalls s') (h' : s'.ByCalls s'') : s.ByCalls s'' := by
  intro n x hx
  obtain ⟨calls, x', hx', he⟩ := h n x hx
  obtain ⟨calls', x'', hx'', he'⟩ := h' n x' hx'
  exact ⟨calls ++ calls', x'', hx'', by rw [he', he, List.foldl_append]⟩

theorem byCalls_set {n : ℕ} {x : ServerNode ε π} (x' : ServerNode ε π) (hx : s.nodes[n]? = some x)
    (calls : List (Node.Call π)) (hx' : x'.node = calls.foldl (fun m c => (m.call c).1) x.node)
    (h : s'.nodes = s.nodes.set n x') :
    s.ByCalls s' := by
  intro m y hy
  rw [h, List.getElem?_set]
  by_cases hm : n = m
  · subst hm
    obtain rfl : x = y := Option.some.inj (hx.symm.trans hy)
    exact ⟨calls, x', by rw [if_pos rfl, if_pos (List.getElem?_eq_some_iff.mp hx).1], hx'⟩
  · exact ⟨[], y, by rw [if_neg hm, hy], rfl⟩

theorem byCalls_processBytes (s : Server ε π) (size : ℕ) (p : π) : s.ByCalls (s.processBytes size p) := by
  unfold processBytes
  split_ifs
  · exact byCalls_of_eq rfl
  · split
    · exact byCalls_of_eq rfl
    · split
      · exact byCalls_of_eq rfl
      next x hx => exact byCalls_set { x with lastMsgRecvTime := s.now } hx [] rfl rfl

end

section

omit [DecidableEq ε]

theorem byCalls_act (s : Server ε π) (n : ℕ) (c : Node.Call π) : s.ByCalls (s.act n c) := by
  unfold act
  split
  · exact byCalls_of_eq rfl
  next x hx => exact byCalls_set _ hx [c] rfl rfl

theorem byCalls_callbacks (s : Server ε π) (n : ℕ) (callbacks : List (Callback π)) :
    s.ByCalls (callbacks.foldl (fun s c => s.callback n c) s) := by
  induction callbacks generalizing s with
  | nil => exact byCalls_of_eq rfl
  | cons c callbacks ih =>
      refine ByCalls.trans ?_ (ih (s.callback n c))
      unfold callback
      split
      · exact byCalls_of_eq rfl
      · split_ifs
        · exact byCalls_of_eq rfl
        · cases c with
          | alert type =>
              dsimp only
              split_ifs
              · exact byCalls_act s n _
              · exact byCalls_act s n _
          | chooseAppProtocol p =>
              cases p with
              | none => exact byCalls_of_eq rfl
              | some p => exact byCalls_act s n _
          | record size => exact byCalls_of_eq rfl

theorem byCalls_removeWhere (s : Server ε π) (p : ℕ → Bool) : s.ByCalls (s.removeWhere p) := by
  have hclose : ∀ (l : List (ε × ℕ)) (s : Server ε π), s.ByCalls (l.foldl (fun s c => s.act c.2 .close) s) := by
    intro l
    induction l with
    | nil => exact fun s => byCalls_of_eq rfl
    | cons c l ih => exact fun s => (byCalls_act s c.2 .close).trans (ih _)
  exact hclose _ s

end

omit [DecidableEq π] in
theorem byCalls_getNode (s : Server ε π) (e : ε) : s.ByCalls (s.getNode e).1 := by
  unfold getNode createClient
  split
  · exact byCalls_of_eq rfl
  · intro n x hx
    exact ⟨[], x, (List.getElem?_append_left (List.getElem?_eq_some_iff.mp hx).1).trans hx, rfl⟩

/-- **All that a step does to the protocol of a node are calls**, so what holds after every sequence of calls holds of
the nodes of the controller. -/
theorem byCalls_step (s : Server ε π) (mv : Move ε π) : s.ByCalls (s.step equal mv) := by
  cases mv with
  | receive e => exact byCalls_getNode s e
  | processData k callbacks =>
      simp only [step]
      split
      · exact byCalls_of_eq rfl
      next n _ =>
        refine ByCalls.trans ?_ (byCalls_callbacks _ n callbacks)
        exact byCalls_of_eq rfl
  | write n =>
      simp only [step]
      split <;> exact byCalls_of_eq rfl
  | execute k =>
      simp only [step]
      split
      · exact byCalls_of_eq rfl
      next t _ =>
        cases t with
        | write e =>
            refine ByCalls.trans ?_ (byCalls_getNode _ e)
            exact byCalls_of_eq rfl
        | removeClient e => exact byCalls_of_eq rfl
  | removeClient e => exact byCalls_of_eq rfl
  | removeCopy client =>
      simp only [step, removeCopy]
      split_ifs
      · exact byCalls_removeWhere s _
      · exact byCalls_of_eq rfl
  | removeFrozenClients frozenTimeout =>
      simp only [step, removeFrozenClients]
      split_ifs
      · exact byCalls_removeWhere s _
      · exact byCalls_of_eq rfl
  | takeRecord =>
      simp only [step]
      split
      · exact byCalls_of_eq rfl
      · split <;> exact byCalls_of_eq rfl
  | processBytes k =>
      simp only [step]
      split
      · exact byCalls_of_eq rfl
      next size p _ =>
        refine ByCalls.trans ?_ (byCalls_processBytes _ size p)
        exact byCalls_of_eq rfl
  | tick d => exact byCalls_of_eq rfl

/-! ## The keys of `clients_` -/

omit [DecidableEq ε] [DecidableEq π] in
def keys (s : Server ε π) : List ε := s.clients.map Prod.fst

variable {s : Server ε π} {e e' : ε}

omit [DecidableEq ε] in
@[simp] theorem clients_act (s : Server ε π) (n : ℕ) (c : Node.Call π) : (s.act n c).clients = s.clients := by
  unfold act
  split <;> rfl

omit [DecidableEq π] in
theorem findClient_eq_none : s.findClient e = none ↔ e ∉ s.keys := by
  simp only [findClient, keys, Option.map_eq_none_iff, List.find?_eq_none, decide_eq_true_eq, List.mem_map, not_exists,
    not_and]

omit [DecidableEq π] in
/-- **`get_node` makes its endpoint a key**, and no other. -/
theorem mem_keys_getNode (s : Server ε π) (e e' : ε) : e' ∈ (s.getNode e).1.keys ↔ e' ∈ s.keys ∨ e' = e := by
  have hfound : ∀ n, s.findClient e = some n → (e' ∈ s.keys ↔ e' ∈ s.keys ∨ e' = e) := by
    intro n hn
    have hmem : e ∈ s.keys := by
      by_contra hnot
      rw [findClient_eq_none.mpr hnot] at hn
      cases hn
    exact ⟨.inl, fun h => h.elim id fun he => he ▸ hmem⟩
  unfold getNode createClient
  cases hf : s.findClient e with
  | some n => exact hfound n hf
  | none => simp [keys, note]

omit [DecidableEq ε] in
theorem keys_removeWhere (s : Server ε π) (p : ℕ → Bool) (h : e ∈ (s.removeWhere p).keys) : e ∈ s.keys := by
  obtain ⟨c, hc, he⟩ := List.mem_map.mp h
  exact List.mem_map.mpr ⟨c, (List.mem_filter.mp hc).1, he⟩

omit [DecidableEq ε] in
@[simp] theorem clients_callback (s : Server ε π) (n : ℕ) (c : Callback π) : (s.callback n c).clients = s.clients := by
  unfold callback
  split
  · rfl
  · split_ifs
    · rfl
    · cases c with
      | alert type => dsimp only; split_ifs <;> simp [post]
      | chooseAppProtocol p => cases p <;> simp [post]
      | record size => rfl

omit [DecidableEq ε] in
theorem clients_callbacks (s : Server ε π) (n : ℕ) (callbacks : List (Callback π)) :
    (callbacks.foldl (fun s c => s.callback n c) s).clients = s.clients := by
  induction callbacks generalizing s with
  | nil => rfl
  | cons c callbacks ih => rw [List.foldl_cons, ih, clients_callback]

omit [DecidableEq ε] [DecidableEq π] in
theorem clients_processBytes (s : Server ε π) (size : ℕ) (p : π) : (s.processBytes size p).clients = s.clients := by
  unfold processBytes
  split_ifs
  · rfl
  · split
    · rfl
    · split <;> rfl

omit [DecidableEq π] in
theorem keys_removeClient (s : Server ε π) (e : ε) (h : e' ∈ (s.removeClient e).keys) : e' ∈ s.keys := by
  obtain ⟨c, hc, he⟩ := List.mem_map.mp h
  exact List.mem_map.mpr ⟨c, (List.mem_filter.mp hc).1, he⟩

/-- **Where a key comes from**: it was one, there is a datagram from it, or a posted write to it is executed. -/
theorem mem_keys_step {mv : Move ε π} (h : e ∈ (s.step equal mv).keys) :
    e ∈ s.keys ∨ mv = .receive e ∨ ∃ k, mv = .execute k ∧ s.tasks[k]? = some (.write e) := by
  cases mv with
  | receive e' =>
      obtain hold | rfl := (mem_keys_getNode s e' e).mp h
      · exact .inl hold
      · exact .inr (.inl rfl)
  | processData k callbacks =>
      left
      simp only [step] at h
      split at h
      · exact h
      · rw [keys, clients_callbacks] at h
        exact h
  | write n =>
      left
      simp only [step] at h
      split at h <;> exact h
  | execute k =>
      simp only [step] at h
      split at h
      · exact .inl h
      next t ht =>
        cases t with
        | write e' =>
            obtain hold | rfl := (mem_keys_getNode _ e' e).mp h
            · exact .inl hold
            · exact .inr (.inr ⟨k, rfl, ht⟩)
        | removeClient e' => exact .inl (keys_removeClient _ e' h)
  | removeClient e' => exact .inl (keys_removeClient s e' h)
  | removeCopy client =>
      left
      simp only [step, removeCopy] at h
      split_ifs at h
      · exact keys_removeWhere s _ h
      · exact h
  | removeFrozenClients frozenTimeout =>
      left
      simp only [step, removeFrozenClients] at h
      split_ifs at h
      · exact keys_removeWhere s _ h
      · exact h
  | takeRecord =>
      left
      simp only [step] at h
      split at h
      · exact h
      · split at h <;> exact h
  | processBytes k =>
      left
      simp only [step] at h
      split at h
      · exact h
      · rw [keys, clients_processBytes] at h
        exact h
  | tick d => exact .inl h

theorem mem_keys_execute {k : ℕ} (h : s.tasks[k]? = some (.write e)) : e ∈ (s.step equal (.execute k)).keys := by
  simp only [step, h]
  exact (mem_keys_getNode _ e e).mpr (.inr rfl)

/-! ## Who makes an endpoint a key -/

/-- An endpoint becomes a key in a step only if the step handles a datagram from it. -/
def OnlyByDatagram (s : Server ε π) (mv : Move ε π) : Prop :=
  ∀ e, e ∉ s.keys → e ∈ (s.step equal mv).keys → mv = .receive e

/-- A posted write that is executed finds its client. -/
def Found (s : Server ε π) (mv : Move ε π) : Prop :=
  ∀ k e, mv = .execute k → s.tasks[k]? = some (.write e) → e ∈ s.keys

theorem onlyByDatagram_step (s : Server ε π) (mv : Move ε π) : s.OnlyByDatagram equal mv ↔ s.Found mv := by
  constructor
  · rintro h k e rfl htask
    by_contra hnot
    cases h e hnot (mem_keys_execute equal htask)
  · intro h e hnot hmem
    obtain hold | hreceive | ⟨k, hk, htask⟩ := mem_keys_step equal hmem
    · exact absurd hold hnot
    · exact hreceive
    · exact absurd (h k e hk htask) hnot

/-- **A removed client stays removed until its peer speaks again**, in every step of a run, exactly if each posted
write that is executed finds its client. -/
theorem onlyByDatagram_iff (now : ℕ) (moves : List (Move ε π)) :
    Along (fun s mv => some (step equal s mv)) (OnlyByDatagram equal) (start now) moves ↔
      Along (fun s mv => some (step equal s mv)) Found (start now) moves :=
  along_congr (I := fun _ => True) (fun s mv _ => onlyByDatagram_step equal s mv) (fun _ _ _ _ => trivial) trivial

/-- A client writes, and is removed before the `io_context` executes the write. -/
def writeRemoved : List (Move ℕ ℕ) := [.receive 1, .write 0, .removeClient 1, .execute 0]

theorem removed_client_back : ¬ ∀ moves : List (Move ℕ ℕ),
    Along (fun s mv => some (step (fun _ _ => false) s mv)) (OnlyByDatagram fun _ _ => false) (start 0) moves := by
  intro h
  have hback := ((((h writeRemoved).2 _ rfl).2 _ rfl).2 _ rfl).1 1 (by decide) (by decide)
  cases hback

end Server

end HelpzServer
