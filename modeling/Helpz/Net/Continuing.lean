import Helpz.Net.Cyclic

/-!
# Fragments of a transfer that goes on

The packets of a long transfer keep the id of its first one, while the window moves on and the ids wrap.
`internal_process_message` puts each of them through the acceptance test like a new message.

* `Continues`: the packet is a fragment of a transfer in progress, and not marked as a repetition;
* `Undisturbed`: the window and the other transfers are left alone;
* `Behind`: when this is so (`undisturbed_iff`).
-/

namespace HelpzNet

open HelpzLib

namespace Protocol

/-- A fragment of a transfer in progress that is not marked as a repetition. -/
structure Continues (p : Protocol) (pkt : Packet) : Prop where
  fragment : hasFlag pkt.flags Flag.fragment = true
  original : pkt.Original
  entry : (p.fragmentedMessages pkt.id).isSome = true

/-- Nothing but the transfer `id` and its place among the lost ids may have changed on the receiving side,
and `lost_msg_detected` was not called. -/
structure Undisturbed (p q : Protocol) (id : UInt8) : Prop where
  next : q.nextRxMsgId = p.nextRxMsgId
  calls : lostCalls q.log = lostCalls p.log
  frag : ∀ x, x ≠ id → q.fragmentedMessages x = p.fragmentedMessages x
  lost : ∀ x, x ≠ id → q.lostMsgList x = p.lostMsgList x

/-- The id of the packet is below the end of the window, by at most 100, and the packet is no request to
remove another transfer. -/
structure Behind (qt : Qt) (p : Protocol) (pkt : Packet) : Prop where
  below : pkt.id.toNat < p.nextRxMsgId.toNat
  near : p.nextRxMsgId.toNat - pkt.id.toNat ≤ 100
  keeps : ∀ id, pkt.content qt = some (.removeFragment id) → id ≠ pkt.id → p.fragmentedMessages id = none

variable {qt : Qt} {p q r : Protocol} {pkt : Packet} {env : Env}

theorem Undisturbed.refl (p : Protocol) (id : UInt8) : p.Undisturbed p id :=
  ⟨rfl, rfl, fun _ _ => rfl, fun _ _ => rfl⟩

theorem Undisturbed.trans {id : UInt8} (h : p.Undisturbed q id) (h' : q.Undisturbed r id) :
    p.Undisturbed r id :=
  ⟨h'.next.trans h.next, h'.calls.trans h.calls, fun x hx => (h'.frag x hx).trans (h.frag x hx),
    fun x hx => (h'.lost x hx).trans (h.lost x hx)⟩

/-! ## The acceptance test -/

/-- **A packet a little behind the end of the window does not move it.** -/
theorem undisturbed_afterTest (env : Env) (hb : pkt.id.toNat < p.nextRxMsgId.toNat)
    (hn : p.nextRxMsgId.toNat - pkt.id.toNat ≤ 100) (ho : pkt.Original) :
    p.Undisturbed (p.afterTest pkt env) pkt.id ∧ p.accepts pkt env = true := by
  set q := p.emit [.internalProcessMessage pkt] with hq
  have hpq : p.Undisturbed q pkt.id := ⟨rfl, lostCalls_passedOn p pkt, fun _ _ => rfl, fun _ _ => rfl⟩
  have hacc : q.acceptMessage env.now₁ pkt.id pkt.flags = (p.accepts pkt env, p.afterTest pkt env) := rfl
  by_cases hlost : q.MaybeLost pkt.id pkt.flags
  · rw [acceptMessage_lost env.now₁ hlost, ho, isLostMessage] at hacc
    cases hl : q.lostMsgList pkt.id with
    | none =>
        rw [hl] at hacc
        obtain ⟨h1, h2⟩ := Prod.mk.inj hacc
        exact ⟨h2 ▸ hpq, h1.symm⟩
    | some tp =>
        rw [hl] at hacc
        obtain ⟨h1, h2⟩ := Prod.mk.inj hacc
        refine ⟨hpq.trans ?_, h1.symm.trans (Bool.or_true _)⟩
        rw [← h2]
        exact ⟨rfl, rfl, fun _ _ => rfl, fun x hx => Function.update_of_ne hx _ _⟩
  · -- exactly 100 behind
    have hgap : ¬ q.Gap pkt.id := by
      unfold Gap
      change ¬ (pkt.id.toNat > p.nextRxMsgId.toNat ∨ p.nextRxMsgId.toNat - pkt.id.toNat > 100)
      omega
    have hle : ¬ q.nextRxMsgId.toNat ≤ pkt.id.toNat := not_le.mpr hb
    rw [acceptMessage_next env.now₁ hlost hgap, if_neg hle] at hacc
    obtain ⟨h1, h2⟩ := Prod.mk.inj hacc
    exact ⟨h2 ▸ hpq, h1.symm⟩

theorem disturbed_afterTest (env : Env) (ho : pkt.Original)
    (h : ¬ (pkt.id.toNat < p.nextRxMsgId.toNat ∧ p.nextRxMsgId.toNat - pkt.id.toNat ≤ 100)) :
    (p.afterTest pkt env).nextRxMsgId ≠ p.nextRxMsgId ∨
      lostCalls (p.afterTest pkt env).log ≠ lostCalls p.log := by
  have hlost : ¬ p.MaybeLost pkt.id pkt.flags := by
    rintro (hr | ⟨hb, hn⟩)
    · rw [ho] at hr
      cases hr
    · exact h ⟨hb, le_of_lt hn⟩
  by_cases hgap : p.Gap pkt.id
  · obtain ⟨_, _, _, hcalls⟩ := gap_afterTest env hlost hgap
    refine Or.inr fun he => ?_
    rw [hcalls] at he
    exact absurd he (by simp)
  · obtain ⟨_, _, hnext, _⟩ := next_afterTest env hlost hgap
    have heq : pkt.id.toNat = p.nextRxMsgId.toNat := by
      unfold Gap at hgap
      omega
    rw [if_pos (le_of_eq heq.symm), UInt8.toNat_inj.mp heq] at hnext
    refine Or.inl fun he => ?_
    have hone := congrArg UInt8.toNat (hnext.symm.trans he)
    rw [UInt8.toNat_add] at hone
    have hlt := p.nextRxMsgId.toNat_lt
    change (p.nextRxMsgId.toNat + 1) % 256 = _ at hone
    omega

/-! ## The rest of the processing -/

theorem lostCalls_processAccepted (qt : Qt) (p : Protocol) (env : Env) (pkt : Packet) :
    lostCalls (p.processAccepted qt env pkt).1.log = lostCalls p.log :=
  lostCalls_of_effects (effects_accepted lostCall_of_calm (fun _ => rfl) qt p env pkt)

theorem processAccepted_removeFragment {id : UInt8} (hc : pkt.content qt = some (.removeFragment id)) :
    (p.processAccepted qt env pkt).1 = p.eraseFragment id := by
  rw [processAccepted_content hc (by simp)]
  rfl

theorem FragmentStep.undisturbed {m : FragmentedMessage} {id : UInt8} {fullSize : ℕ}
    (h : FragmentStep p q env id fullSize m) (hcalls : lostCalls q.log = lostCalls p.log) :
    p.Undisturbed q id := by
  cases h with
  | dropped hnext hlost hfrag _ =>
      exact ⟨hnext, hcalls, fun x hx => by rw [hfrag, Function.update_of_ne hx], fun x _ => by rw [hlost]⟩
  | complete _ _ hnext hlost hfrag _ =>
      exact ⟨hnext, hcalls, fun x hx => by rw [hfrag, Function.update_of_ne hx], fun x _ => by rw [hlost]⟩
  | goesOn _ _ _ _ _ hnext hlost hfrag _ =>
      exact ⟨hnext, hcalls, fun x hx => by rw [hfrag, Function.update_of_ne hx],
        fun x hx => by rw [hlost, Function.update_of_ne hx]⟩

theorem SameRx.undisturbed (h : p.SameRx q) (id : UInt8) (hcalls : lostCalls q.log = lostCalls p.log) :
    p.Undisturbed q id :=
  ⟨h.next, hcalls, fun x _ => by rw [h.frag], fun x _ => by rw [h.lost]⟩

theorem undisturbed_processAccepted (qt : Qt) (p : Protocol) (env : Env)
    (hf : hasFlag pkt.flags Flag.fragment = true)
    (hc : ∀ id, pkt.content qt = some (.removeFragment id) → id ≠ pkt.id → p.fragmentedMessages id = none) :
    p.Undisturbed (p.processAccepted qt env pkt).1 pkt.id := by
  have hcalls := lostCalls_processAccepted qt p env pkt
  by_cases hrem : ∃ id, pkt.content qt = some (.removeFragment id)
  · obtain ⟨id, hid⟩ := hrem
    rw [processAccepted_removeFragment hid] at hcalls ⊢
    refine ⟨rfl, hcalls, fun x hx => ?_, fun _ _ => rfl⟩
    by_cases hxid : x = id
    · subst hxid
      rw [hc x hid hx]
      exact Function.update_self _ _ _
    · exact Function.update_of_ne hxid _ _
  unfold processAccepted at hcalls ⊢
  split_ifs at hcalls ⊢
  · exact .refl p _
  cases hcont : pkt.content qt with
  | none => exact .refl p _
  | some c =>
      simp only [hcont] at hcalls ⊢
      cases c with
      | removeFragment id => exact absurd ⟨id, hcont⟩ hrem
      | fragmentQuery id pos size => exact (sameRx_processFragmentQuery p id pos size).undisturbed _ hcalls
      | fragment a full pos mx data =>
          exact (processFragment_rx p env pkt.id pkt.cmd a full pos mx data).undisturbed hcalls
      | answer a data =>
          rw [fragment_false_of_content hcont (Or.inl ⟨a, data, rfl⟩)] at hf
          cases hf
      | message data =>
          rw [fragment_false_of_content hcont (Or.inr ⟨data, rfl⟩)] at hf
          cases hf

/-! ## In a run -/

theorem undisturbed_of_behind (h : p.Continues pkt) (hb : Behind qt p pkt) :
    p.Undisturbed (p.step qt (.receive pkt env)).1 pkt.id := by
  obtain ⟨htest, hacc⟩ := undisturbed_afterTest env hb.below hb.near h.original
  rw [step_receive, if_pos hacc]
  refine htest.trans (undisturbed_processAccepted qt _ env h.fragment fun id hc hne => ?_)
  rw [htest.frag id hne]
  exact hb.keeps id hc hne

theorem behind_of_undisturbed (h : p.Continues pkt)
    (hu : p.Undisturbed (p.step qt (.receive pkt env)).1 pkt.id) : Behind qt p pkt := by
  have hacc : p.accepts pkt env = true := by
    have hor := h.original
    unfold Packet.Original at hor
    by_cases hlost : p.MaybeLost pkt.id pkt.flags
    · have htest := (maybeLost_acceptMessage (p := p.emit [.internalProcessMessage pkt]) env.now₁ hlost).1
      rw [accepts, htest, hor, Bool.not_false, Bool.or_true]
    · by_cases hgap : p.Gap pkt.id
      · exact (gap_afterTest env hlost hgap).1
      · exact (next_afterTest env hlost hgap).1
  rw [step_receive, if_pos hacc] at hu
  have hcalls := lostCalls_processAccepted qt (p.afterTest pkt env) env pkt
  -- the window is where the acceptance test has left it
  have hnext : ((p.afterTest pkt env).processAccepted qt env pkt).1.nextRxMsgId =
      (p.afterTest pkt env).nextRxMsgId := by
    cases treated_processAccepted qt (p.afterTest pkt env) env pkt with
    | nothing hs => exact hs.next
    | erased id he => rw [he]; rfl
    | handed data _ hh => exact hh.next
    | fragment a full pos mx data _ hstep =>
        cases hstep with
        | dropped hn _ _ _ => exact hn
        | complete _ _ hn _ _ _ => exact hn
        | goesOn _ _ _ _ _ hn _ _ _ => exact hn
  have hwin : pkt.id.toNat < p.nextRxMsgId.toNat ∧ p.nextRxMsgId.toNat - pkt.id.toNat ≤ 100 := by
    by_contra hw
    rcases disturbed_afterTest env h.original hw with hd | hd
    · exact hd (hnext.symm.trans hu.next)
    · exact hd (hcalls.symm.trans hu.calls)
  refine ⟨hwin.1, hwin.2, fun id hc hne => ?_⟩
  have hfrag := hu.frag id hne
  rw [processAccepted_removeFragment hc] at hfrag
  exact hfrag.symm.trans (Function.update_self _ _ _)

/-- **When a continuing fragment leaves the window and the other transfers alone**: after every run,
exactly if its id is below the end of the window by at most 100 and it does not ask to remove another
transfer. -/
theorem undisturbed_iff (qt : Qt) (acts : List Action) (pkt : Packet) (env : Env)
    (h : (fresh.run qt acts).Continues pkt) :
    (fresh.run qt acts).Undisturbed (fresh.run qt (acts ++ [.receive pkt env])) pkt.id ↔
      Behind qt (fresh.run qt acts) pkt := by
  rw [run_append]
  exact ⟨behind_of_undisturbed h, undisturbed_of_behind h⟩

/-- The announcement of three bytes under id 0, and the first of them. -/
def announcement : Packet := ⟨0, 16, Flag.fragment, toBE 4 3 ++ (toBE 4 3 ++ toBE 4 32)⟩
def firstByte : Packet := ⟨0, 16, Flag.fragment, toBE 4 3 ++ (toBE 4 0 ++ [7])⟩

theorem undisturbed_iff_firstByte :
    (fresh.run Qt.storing [.receive announcement .quiet]).Continues firstByte ∧
      (fresh.run Qt.storing [.receive announcement .quiet]).Undisturbed
        (fresh.run Qt.storing ([.receive announcement .quiet] ++ [.receive firstByte .quiet])) firstByte.id := by
  have hc : (fresh.run Qt.storing [.receive announcement .quiet]).Continues firstByte :=
    ⟨by decide, by decide, by decide⟩
  have hcont : firstByte.content Qt.storing = some (.fragment none 3 0 0 [7]) := by decide
  refine ⟨hc, (undisturbed_iff Qt.storing _ _ _ hc).mpr ⟨by decide, by decide, fun id hid => ?_⟩⟩
  rw [hcont] at hid
  cases hid

/-- **A long transfer disturbs the window**: once a message with id 150 has arrived, the next fragment under
id 0 is taken for a sign that 105 messages are lost. -/
theorem fragment_disturbs_window : ¬ ∀ (qt : Qt) (acts : List Action) (pkt : Packet) (env : Env),
    (fresh.run qt acts).Continues pkt →
      (fresh.run qt acts).Undisturbed (fresh.run qt (acts ++ [.receive pkt env])) pkt.id := by
  intro h
  let p := fresh.run Qt.storing [.receive announcement .quiet, .receive ⟨150, 16, 0, []⟩ .quiet]
  have hc : p.Continues firstByte := ⟨by decide, by decide, by decide⟩
  have hu := h Qt.storing [.receive announcement .quiet, .receive ⟨150, 16, 0, []⟩ .quiet] firstByte .quiet hc
  rw [run_append] at hu
  have hnext : p.nextRxMsgId = 151 := rfl
  have hnear := (behind_of_undisturbed hc hu).near
  rw [hnext] at hnear
  exact absurd hnear (by decide)

end Protocol

end HelpzNet
