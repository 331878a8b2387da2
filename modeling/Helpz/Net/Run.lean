import Helpz.Net.Framing

/-!
# Runs of one endpoint and of two

* `Action`, `Protocol.step`, `Protocol.run`: what can happen at one endpoint: the application sends
  a message, the writer executes a posted one, a timer fires, a packet arrives. Timers and packets
  may come at any moment and in any order.
* `System`, `System.step`, `System.run`: two endpoints and the packets in flight between them. A
  packet in flight may be delivered at any later moment, dropped by never being delivered, or kept
  in flight after its delivery, which duplicates it.
-/

namespace HelpzNet

/-- What can happen at an endpoint. -/
inductive Action
  /-- a `Protocol_Sender` is built with these calls and destroyed -/
  | send (cmd : UInt8) (answerId : Option UInt8) (calls : List SenderCall)
  /-- the writer executes a posted message -/
  | write (i : ℕ) (now₁ now₂ : TimePoint)
  /-- a timer fires -/
  | timer (data : TimerData) (now₁ now₂ : TimePoint)
  /-- a packet arrives -/
  | receive (pkt : Packet) (env : Env)
  deriving DecidableEq, Repr

namespace Protocol

/-- `Node::write_impl`: the `i`-th posted message is prepared and its packet sent. -/
def write (qt : Qt) (p : Protocol) (i : ℕ) (now₁ now₂ : TimePoint) : Protocol × List Packet :=
  match p.posted[i]? with
  | none => (p, [])
  | some m =>
      let r := preparePacketToSend qt { p with posted := p.posted.eraseIdx i } m now₁ now₂
      (r.2, r.1.toList)

theorem write_of_none {p : Protocol} {i : ℕ} (h : p.posted[i]? = none) (qt : Qt) (now₁ now₂ : TimePoint) :
    p.write qt i now₁ now₂ = (p, []) := by
  rw [write, h]

theorem write_of_posted {p : Protocol} {i : ℕ} {m : MessageItem} (h : p.posted[i]? = some m) (qt : Qt)
    (now₁ now₂ : TimePoint) : (p.write qt i now₁ now₂).1 =
      (preparePacketToSend qt { p with posted := p.posted.eraseIdx i } m now₁ now₂).2 := by
  rw [write, h]

theorem posted_perm {p : Protocol} {i : ℕ} {m : MessageItem} (h : p.posted[i]? = some m) :
    p.posted.Perm (m :: p.posted.eraseIdx i) := by
  obtain ⟨hlt, rfl⟩ := List.getElem?_eq_some_iff.mp h
  exact (List.getElem_cons_eraseIdx_perm hlt).symm

/-- One action: the state afterwards and the packets sent. -/
def step (qt : Qt) (p : Protocol) : Action → Protocol × List Packet
  | .send cmd answerId calls => (p.sendItem (buildItem p.alloc cmd answerId calls), [])
  | .write i now₁ now₂ => p.write qt i now₁ now₂
  | .timer data now₁ now₂ => (p.processWaitList data now₁ now₂, [])
  | .receive pkt env => ((p.internalProcessMessage qt env pkt).1, [])

/-- A run of actions. -/
def run (qt : Qt) (p : Protocol) (acts : List Action) : Protocol :=
  acts.foldl (fun p a => (p.step qt a).1) p

end Protocol

/-- The two ends of a connection. -/
inductive Side
  | left
  | right
  deriving DecidableEq, Repr

/-- The other end. -/
def Side.other : Side → Side
  | .left => .right
  | .right => .left

@[simp] theorem Side.other_other (s : Side) : s.other.other = s := by cases s <;> rfl

/-- Two endpoints, and for each the packets in flight to it. -/
structure System where
  node : Side → Protocol
  flight : Side → List Packet

/-- A fresh connection. -/
def System.fresh : System := ⟨fun _ => Protocol.fresh, fun _ => []⟩

/-- What can happen in the system. -/
inductive Move
  /-- an end sends a message, executes a posted one, or has a timer fire -/
  | own (s : Side) (a : Action)
  /-- the `i`-th packet in flight to an end is delivered; it stays in flight if `keep` -/
  | deliver (s : Side) (i : ℕ) (keep : Bool) (env : Env)
  deriving DecidableEq, Repr

/-- A packet that the move delivers is in flight no more: the transport duplicates nothing. -/
def Move.Takes : Move → Prop
  | .own _ _ => True
  | .deliver _ _ keep _ => keep = false

instance : (mv : Move) → Decidable mv.Takes
  | .own _ _ => inferInstanceAs (Decidable True)
  | .deliver _ _ keep _ => inferInstanceAs (Decidable (keep = false))

namespace System

/-- An action at one end; the packets it sends go in flight to the other. -/
def act (qt : Qt) (y : System) (s : Side) (a : Action) : System where
  node := Function.update y.node s ((y.node s).step qt a).1
  flight := Function.update y.flight s.other (y.flight s.other ++ ((y.node s).step qt a).2)

/-- One move. Only packets in flight arrive. -/
def step (qt : Qt) (y : System) : Move → System
  | .own _ (.receive _ _) => y
  | .own s a => y.act qt s a
  | .deliver s i keep env =>
      match (y.flight s)[i]? with
      | none => y
      | some pkt =>
          let y := y.act qt s (.receive pkt env)
          if keep then y else { y with flight := Function.update y.flight s ((y.flight s).eraseIdx i) }

/-- A run of moves. -/
def run (qt : Qt) (y : System) (moves : List Move) : System := moves.foldl (step qt) y

end System

end HelpzNet
