import Helpz.Net.Continuing
import Helpz.Lib.Run

/-!
# What becomes of the transfers

* `Takes`: a packet is a fragment that is taken into a transfer; `Completes`: it is the last one;
* `entry_receive`, `entry_of_no_arrival`: where the entries of `fragmented_messages_` come from;
* `LeavesNothing`: no complete transfer stays in the list. This is so as long as no handler throws
  (`leavesNothing_iff`): the entry is erased after the call of the handler, and `process_stream`, which
  catches the exception, does not know of it.
-/

namespace HelpzNet

open HelpzLib

namespace Protocol

/-- The data device of the entry can be opened. -/
def opens (env : Env) (m : FragmentedMessage) : Bool := !(env.openFails || (m.isFile && m.isOpen))

/-- The packet is a fragment, and it is taken into a transfer. -/
structure Takes (qt : Qt) (p : Protocol) (pkt : Packet) (env : Env) (a : Option UInt8)
    (fullSize pos mx : ℕ) (data : Bytes) : Prop where
  accepted : p.accepts pkt env = true
  content : pkt.content qt = some (.fragment a fullSize pos mx data)
  size : fullSize < protocolMaxMessageSize
  opened : opens env ((p.afterTest pkt env).fragmentEntry pkt.id pkt.cmd mx fullSize) = true

/-- The entry of the transfer with the data of the packet. -/
def entryWith (p : Protocol) (pkt : Packet) (env : Env) (fullSize pos mx : ℕ) (data : Bytes) :
    FragmentedMessage := (p.afterTest pkt env).grownEntry pkt.id pkt.cmd fullSize pos mx data

/-- The packet is a fragment after which no part of its transfer is missing. -/
def Completes (qt : Qt) (p : Protocol) (pkt : Packet) (env : Env) : Prop :=
  ∃ a fullSize pos mx data, Takes qt p pkt env a fullSize pos mx data ∧
    (p.entryWith pkt env fullSize pos mx data).isPartsEmpty = true

variable {qt : Qt} {p : Protocol} {pkt : Packet} {env : Env} {a : Option UInt8} {fullSize pos mx : ℕ}
  {data : Bytes}

theorem Takes.step (h : Takes qt p pkt env a fullSize pos mx data) :
    (p.step qt (.receive pkt env)).1 =
      if (p.entryWith pkt env fullSize pos mx data).isPartsEmpty then
        ((p.afterTest pkt env).completeFragment env pkt.id pkt.cmd a fullSize
          (p.entryWith pkt env fullSize pos mx data)).1
      else (p.afterTest pkt env).continueFragment env.now₂ pkt.id pkt.cmd
        (p.entryWith pkt env fullSize pos mx data) := by
  have hopen := h.opened
  rw [opens, Bool.not_eq_true'] at hopen
  rw [step_receive, if_pos h.accepted, processAccepted_content h.content (by simp)]
  simp only [dispatch, processFragment, if_neg (not_le.mpr h.size), hopen, Bool.false_eq_true, if_false]
  exact apply_ite Prod.fst _ _ _

theorem Takes.step_complete (h : Takes qt p pkt env a fullSize pos mx data)
    (he : (p.entryWith pkt env fullSize pos mx data).isPartsEmpty = true) :
    (p.step qt (.receive pkt env)).1.fragmentedMessages =
        Function.update (p.afterTest pkt env).fragmentedMessages pkt.id
          (if env.throws then some (p.entryWith pkt env fullSize pos mx data) else none) ∧
      handovers (p.step qt (.receive pkt env)).1.log =
        handovers p.log ++ [(pkt.id, (p.entryWith pkt env fullSize pos mx data).data)] := by
  have hrx := (p.afterTest pkt env).completeFragment_rx env pkt.id pkt.cmd a fullSize
    (p.entryWith pkt env fullSize pos mx data)
  rw [h.step, if_pos he]
  exact ⟨hrx.frag, by rw [hrx.handed, handovers_afterTest]⟩

theorem Takes.step_goesOn (h : Takes qt p pkt env a fullSize pos mx data)
    (he : (p.entryWith pkt env fullSize pos mx data).isPartsEmpty = false) :
    (p.step qt (.receive pkt env)).1.fragmentedMessages =
        Function.update (p.afterTest pkt env).fragmentedMessages pkt.id
          (some (nextEntry (p.entryWith pkt env fullSize pos mx data) env.now₂)) ∧
      handovers (p.step qt (.receive pkt env)).1.log = handovers p.log := by
  have hrx := (p.afterTest pkt env).continueFragment_rx env.now₂ pkt.id pkt.cmd
    (p.entryWith pkt env fullSize pos mx data)
  rw [h.step, if_neg (by rw [he]; exact Bool.false_ne_true)]
  exact ⟨hrx.frag, by rw [hrx.handed]; exact handovers_afterTest p pkt env⟩

theorem entries_of_not_takes (h : ∀ a fullSize pos mx data, ¬ Takes qt p pkt env a fullSize pos mx data)
    (x : UInt8) :
    (p.step qt (.receive pkt env)).1.fragmentedMessages x = (p.afterTest pkt env).fragmentedMessages x ∨
      (p.step qt (.receive pkt env)).1.fragmentedMessages x = none := by
  have herase : ∀ id, ((p.afterTest pkt env).eraseFragment id).fragmentedMessages x =
      (p.afterTest pkt env).fragmentedMessages x ∨
        ((p.afterTest pkt env).eraseFragment id).fragmentedMessages x = none := by
    intro id
    simp only [eraseFragment, Function.update_apply]
    split_ifs
    · exact Or.inr rfl
    · exact Or.inl rfl
  rw [step_receive]
  split_ifs with hacc
  · cases treated_processAccepted qt (p.afterTest pkt env) env pkt with
    | nothing hs => exact Or.inl (by rw [hs.frag])
    | erased id he => rw [he]; exact herase id
    | handed _ _ hh => exact Or.inl (by rw [hh.frag])
    | fragment a full pos mx data hcont _ =>
        have hdropped : (p.afterTest pkt env).processFragment env pkt.id pkt.cmd a full pos mx data =
            ((p.afterTest pkt env).eraseFragment pkt.id, false) := by
          by_cases hsize : full ≥ protocolMaxMessageSize
          · exact if_pos hsize
          · have hopen : opens env ((p.afterTest pkt env).fragmentEntry pkt.id pkt.cmd mx full) = false :=
              Bool.eq_false_iff.mpr fun ho => h a full pos mx data ⟨hacc, hcont, not_le.mp hsize, ho⟩
            rw [opens, Bool.not_eq_false'] at hopen
            exact (if_neg hsize).trans (if_pos hopen)
        rw [processAccepted_content hcont (by simp)]
        simp only [dispatch, hdropped]
        exact herase pkt.id
  · exact Or.inl rfl

theorem entry_of_afterTest {x : UInt8} {m : FragmentedMessage}
    (h : (p.afterTest pkt env).fragmentedMessages x = some m) : p.fragmentedMessages x = some m := by
  rcases p.fragmentedMessages_afterTest pkt env x with h1 | h1
  · exact h1.symm.trans h
  · rw [h1] at h
    cases h

theorem entry_receive {x : UInt8} {m' : FragmentedMessage}
    (hm : (p.step qt (.receive pkt env)).1.fragmentedMessages x = some m') :
    (p.afterTest pkt env).fragmentedMessages x = some m' ∨
      ∃ a fullSize pos mx data, x = pkt.id ∧ Takes qt p pkt env a fullSize pos mx data ∧
        m'.data = (p.entryWith pkt env fullSize pos mx data).data ∧
        m'.partVect = (p.entryWith pkt env fullSize pos mx data).partVect ∧
        (m'.maxFragmentSize = (p.entryWith pkt env fullSize pos mx data).maxFragmentSize ∨
          m'.maxFragmentSize = growFragmentSize (p.entryWith pkt env fullSize pos mx data).maxFragmentSize) ∧
        ((p.entryWith pkt env fullSize pos mx data).isPartsEmpty = true → env.throws = true) := by
  by_cases ht : ∃ a fullSize pos mx data, Takes qt p pkt env a fullSize pos mx data
  · obtain ⟨a, fullSize, pos, mx, data, ht⟩ := ht
    by_cases hx : x = pkt.id
    · refine Or.inr ⟨a, fullSize, pos, mx, data, hx, ht, ?_⟩
      subst hx
      cases he : (p.entryWith pkt env fullSize pos mx data).isPartsEmpty with
      | true =>
          rw [(ht.step_complete he).1, Function.update_self] at hm
          split_ifs at hm with hth
          obtain rfl := Option.some.inj hm
          exact ⟨rfl, rfl, Or.inl rfl, fun _ => hth⟩
      | false =>
          rw [(ht.step_goesOn he).1, Function.update_self] at hm
          obtain rfl := Option.some.inj hm
          exact ⟨rfl, rfl, Or.inr rfl, fun h => (nomatch h)⟩
    · cases he : (p.entryWith pkt env fullSize pos mx data).isPartsEmpty with
      | true =>
          rw [(ht.step_complete he).1, Function.update_of_ne hx] at hm
          exact Or.inl hm
      | false =>
          rw [(ht.step_goesOn he).1, Function.update_of_ne hx] at hm
          exact Or.inl hm
  · rcases entries_of_not_takes
      (fun a fullSize pos mx data h => ht ⟨a, fullSize, pos, mx, data, h⟩) x with h1 | h1
    · exact Or.inl (h1 ▸ hm)
    · rw [h1] at hm
      cases hm

theorem entry_of_no_arrival {act : Action} (h : ∀ pkt env, act ≠ .receive pkt env) {x : UInt8}
    {m' : FragmentedMessage} (hm : (p.step qt act).1.fragmentedMessages x = some m') :
    ∃ m, p.fragmentedMessages x = some m ∧ SameTransfer m m' := by
  rcases (requeried_step qt p h).frag x with h1 | ⟨m, m₁, h1, h2, hs⟩
  · exact ⟨m', h1 ▸ hm, rfl, rfl, rfl⟩
  · obtain rfl := Option.some.inj (h2.symm.trans hm)
    exact ⟨m, h1, hs⟩

/-! ## Complete transfers -/

/-- A part is missing in every transfer. -/
def Unfinished (p : Protocol) : Prop := ∀ x m, p.fragmentedMessages x = some m → m.partVect ≠ []

/-- After the action a part is missing in every transfer, and a transfer it completes is gone: a later
message with its id starts a new one. -/
structure LeavesNothing (qt : Qt) (p : Protocol) (act : Action) : Prop where
  unfinished : (p.step qt act).1.Unfinished
  gone : ∀ pkt env, act = .receive pkt env → Completes qt p pkt env →
    (p.step qt act).1.fragmentedMessages pkt.id = none

/-- If the action completes a transfer, its handler returns. -/
def HandlerReturns (qt : Qt) (p : Protocol) : Action → Prop
  | .receive pkt env => Completes qt p pkt env → env.throws = false
  | _ => True

theorem leavesNothing_of_returns (h : p.Unfinished) {act : Action} (hr : p.HandlerReturns qt act) :
    LeavesNothing qt p act := by
  refine ⟨fun x m' hm => ?_, ?_⟩
  · by_cases ha : ∃ pkt env, act = .receive pkt env
    · obtain ⟨pkt, env, rfl⟩ := ha
      rcases entry_receive hm with hx | ⟨a, fullSize, pos, mx, data, _, ht, _, hparts, _, hthrow⟩
      · exact h x m' (entry_of_afterTest hx)
      · intro hnil
        have he : (p.entryWith pkt env fullSize pos mx data).isPartsEmpty = true := by
          rw [FragmentedMessage.isPartsEmpty, ← hparts, hnil]
          rfl
        have hret := hr ⟨a, fullSize, pos, mx, data, ht, he⟩
        rw [hthrow he] at hret
        cases hret
    · obtain ⟨m, hx, hs⟩ := entry_of_no_arrival (fun pkt env he => ha ⟨pkt, env, he⟩) hm
      rw [hs.partVect]
      exact h x m hx
  · rintro pkt env rfl hc
    have hret := hr hc
    obtain ⟨a, fullSize, pos, mx, data, ht, he⟩ := hc
    rw [(ht.step_complete he).1, hret, Function.update_self]
    rfl

theorem returns_of_leavesNothing {act : Action} (h : LeavesNothing qt p act) : p.HandlerReturns qt act := by
  cases act with
  | receive pkt env =>
      intro hc
      have hgone := h.gone pkt env rfl hc
      obtain ⟨a, fullSize, pos, mx, data, ht, he⟩ := hc
      rw [(ht.step_complete he).1, Function.update_self] at hgone
      by_contra hth
      rw [if_pos (Bool.not_eq_false _ ▸ hth)] at hgone
      cases hgone
  | _ => exact trivial

/-- **No completed transfer is left behind, in a run, exactly if no handler that is called for a completed
transfer throws.** -/
theorem leavesNothing_iff (qt : Qt) (acts : List Action) :
    Along (fun p act => some (p.step qt act).1) (LeavesNothing qt) fresh acts ↔
      Along (fun p act => some (p.step qt act).1) (HandlerReturns qt) fresh acts := by
  refine along_congr (I := Unfinished) (fun p act h => ?_) (fun p act _ h => h.unfinished) ?_
  · exact ⟨returns_of_leavesNothing, leavesNothing_of_returns h⟩
  · intro x m hm
    cases hm

/-- A message of one byte that comes as a fragment. -/
def lastFragment : Packet := ⟨0, 16, Flag.fragment, toBE 4 1 ++ (toBE 4 0 ++ [7])⟩

/-- **A handler that throws leaves a complete transfer behind.** -/
theorem throwing_handler_leaves : ¬ ∀ (qt : Qt) (acts : List Action),
    Along (fun p act => some (p.step qt act).1) (LeavesNothing qt) fresh acts := by
  intro h
  have hu := (h Qt.storing [.receive lastFragment { Env.quiet with throws := true }]).1.unfinished
  exact hu 0 { FragmentedMessage.new 0 16 maxMessageDataSize 1 with isOpen := true, partVect := [], data := [7] }
    (by decide) rfl

end Protocol

end HelpzNet
