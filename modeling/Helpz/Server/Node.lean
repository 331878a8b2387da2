import Helpz.Lib.Run

/-!
# The protocol of a node

A node attaches protocols and closes the one that is attached: `Node::close`, which the controller and the
destructors call, `Node::set_protocol` and `Node::tls_alert`.

* `Node`, `call`: what a call does to the node, and what it does to protocols (`Effect`);
* `Life`: a node with all it has done; `ClosedOnce`: no protocol is closed twice, or attached when it is closed;
* `Single`: the condition on a call; `closedOnce_step`, and over every sequence of calls `closedOnce_iff`.
-/

namespace HelpzServer

open HelpzLib

variable {π : Type}

/-- What a node does to a protocol: `closed()`, and `set_writer` with the node or with nothing. -/
inductive Effect (π : Type)
  | closed (p : π)
  | setWriter (p : π) (writer : Bool)
  deriving DecidableEq

/-- `Node`: whether `dtls_` is set, and `protocol_`. -/
structure Node (π : Type) where
  dtls : Bool
  protocol : Option π
  deriving DecidableEq

/-- `Alert::CLOSE_NOTIFY`. -/
def closeNotify : ℕ := 0

namespace Node

/-- `close`. -/
def close (n : Node π) : Node π × List (Effect π) :=
  (⟨false, none⟩, match n.protocol with
    | some p => [.closed p, .setWriter p false]
    | none => [])

/-- `set_protocol`. -/
def setProtocol (n : Node π) (protocol : Option π) : Node π × List (Effect π) :=
  ({ n with protocol := protocol }, match protocol with
    | some p => [.setWriter p true]
    | none => [])

/-- `Node::tls_alert`. -/
def tlsAlert (n : Node π) (alert : ℕ) : Node π × List (Effect π) :=
  match n.protocol with
  | some p => if alert = closeNotify then (n.close.1, .closed p :: n.close.2) else (n, [])
  | none => (n, [])

/-- The calls that change the protocol of a node. The destructor is a `close`. -/
inductive Call (π : Type)
  | tlsAlert (alert : ℕ)
  | close
  | setProtocol (protocol : Option π)
  deriving DecidableEq

def call (n : Node π) : Call π → Node π × List (Effect π)
  | .tlsAlert alert => n.tlsAlert alert
  | .close => n.close
  | .setProtocol protocol => n.setProtocol protocol

end Node

/-- A node, and all it has done to protocols. -/
structure Life (π : Type) where
  node : Node π
  effects : List (Effect π)

namespace Life

variable [DecidableEq π]

omit [DecidableEq π] in
/-- A new node. -/
def new (dtls : Bool) : Life π := ⟨⟨dtls, none⟩, []⟩

def step (l : Life π) (c : Node.Call π) : Life π := ⟨(l.node.call c).1, l.effects ++ (l.node.call c).2⟩

/-- How often `closed()` was called on a protocol. -/
def closedCalls (l : Life π) (p : π) : ℕ := l.effects.count (.closed p)

/-- `closed()` was called once at most on each protocol, and on none that is attached. -/
def ClosedOnce (l : Life π) : Prop := ∀ p, l.closedCalls p ≤ 1 ∧ (0 < l.closedCalls p → l.node.protocol ≠ some p)

/-- No `CLOSE_NOTIFY` while a protocol is attached, and no protocol is attached that was closed. -/
def Single (l : Life π) : Node.Call π → Prop
  | .tlsAlert alert => alert = closeNotify → l.node.protocol = none
  | .close => True
  | .setProtocol protocol => ∀ p, protocol = some p → l.closedCalls p = 0

variable {l : Life π} {p : π}

theorem closedOnce_new (dtls : Bool) : (new dtls : Life π).ClosedOnce := fun _ => ⟨Nat.zero_le _, nofun⟩

theorem closedCalls_step (l : Life π) (c : Node.Call π) (p : π) :
    (l.step c).closedCalls p = l.closedCalls p + (l.node.call c).2.count (.closed p) :=
  List.count_append

theorem count_close (n : Node π) (p : π) :
    n.close.2.count (.closed p) = if n.protocol = some p then 1 else 0 := by
  unfold Node.close
  cases n.protocol with
  | none => simp
  | some q => by_cases h : q = p <;> simp [h]

theorem ClosedOnce.close (h : l.ClosedOnce) : (l.step .close).ClosedOnce := by
  intro p
  rw [closedCalls_step, Node.call, count_close]
  refine ⟨?_, fun _ => nofun⟩
  split_ifs with hp
  · have hzero := (h p).2
    by_contra hlt
    exact hzero (by omega) hp
  · exact (h p).1

/-- **Closing stays single** in a step that meets the condition, and in no other. -/
theorem closedOnce_step (h : l.ClosedOnce) (c : Node.Call π) : (l.step c).ClosedOnce ↔ l.Single c := by
  cases c with
  | close => exact ⟨fun _ => trivial, fun _ => h.close⟩
  | setProtocol protocol =>
      have hcalls : ∀ p, (l.step (.setProtocol protocol)).closedCalls p = l.closedCalls p := by
        intro p
        rw [closedCalls_step]
        cases protocol <;> simp [Node.call, Node.setProtocol]
      constructor
      · intro hstep p hp
        by_contra hne
        exact (hstep p).2 (by rw [hcalls]; omega) hp
      · intro hsingle p
        rw [hcalls]
        refine ⟨(h p).1, fun hpos hp => ?_⟩
        rw [hsingle p hp] at hpos
        exact absurd hpos (Nat.lt_irrefl 0)
  | tlsAlert alert =>
      cases hp : l.node.protocol with
      | none =>
          have hstep : l.step (.tlsAlert alert) = l := by simp [step, Node.call, Node.tlsAlert, hp]
          rw [hstep]
          exact ⟨fun _ _ => hp, fun _ => h⟩
      | some p =>
          by_cases halert : alert = closeNotify
          · -- `tls_alert` and `close` call `closed()`
            refine iff_of_false (fun hstep => ?_) fun hsingle => ?_
            · have hcount := (hstep p).1
              rw [closedCalls_step, Node.call, Node.tlsAlert, hp] at hcount
              simp only [if_pos halert, List.count_cons_self, count_close, hp, if_true] at hcount
              omega
            · rw [hsingle halert] at hp
              cases hp
          · have hstep : l.step (.tlsAlert alert) = l := by simp [step, Node.call, Node.tlsAlert, hp, halert]
            rw [hstep]
            exact ⟨fun _ ha => absurd ha halert, fun _ => h⟩

/-- **`closed()` fires once at most, and then the protocol is not attached**, after every call of a sequence,
exactly if each call meets the condition: there is no `CLOSE_NOTIFY` while a protocol is attached, and no protocol is
attached after it was closed. -/
theorem closedOnce_iff (dtls : Bool) (calls : List (Node.Call π)) :
    (∀ calls', calls' <+: calls → (calls'.foldl step (new dtls)).ClosedOnce) ↔
      Along (fun l c => some (step l c)) Single (new dtls) calls := by
  rw [← along_prefix_iff (closedOnce_new dtls)]
  exact along_congr (I := ClosedOnce) (fun l c h => closedOnce_step h c) (fun l c _ hstep => hstep)
    (closedOnce_new dtls)

/-- A protocol is attached, and the peer closes the connection. -/
theorem closed_twice : ¬ ∀ calls : List (Node.Call ℕ), (calls.foldl step (new true)).ClosedOnce := by
  intro h
  have hcount := (h [.setProtocol (some 7), .tlsAlert closeNotify] 7).1
  revert hcount
  decide

end Life

end HelpzServer
