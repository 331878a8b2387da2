import Helpz.Net.Traffic
import Helpz.Net.Posting

/-!
# The order of what is sent

An endpoint that is never asked for a fragment sends originals with increasing ids, and repetitions
only of messages it has sent before: everything sent before an original has a smaller id
(`sent_ordered`).

The reason is that an item posted to the writer either has no id yet or was posted by the resend
timer, which sets the REPEATED flag (`Marked`). Only `process_fragment_query` posts an item that has
an id without setting the flag.
-/

namespace HelpzNet

open HelpzLib

namespace Protocol

/-- Every item posted to the writer that has an id is marked as repeated. -/
def Marked (p : Protocol) : Prop :=
  ∀ m ∈ p.posted, m.id.isSome → hasFlag m.flags Flag.repeated = true

variable {p : Protocol}

/-- **Every action but a query for a fragment keeps posted items marked.** -/
theorem Marked.step (h : p.Marked) (qt : Qt) {a : Action}
    (hq : ∀ pkt ∈ arrivals [a], hasFlag pkt.flags Flag.fragmentQuery = false) : (p.step qt a).1.Marked := by
  intro m hm hid
  rcases (posts_step qt p a).posted m hm with hm | hm
  · exact h m hm hid
  cases hm with
  | new hnew =>
      rw [hnew.2] at hid
      cases hid
  | resent _ _ =>
      rw [MessageItem.resent, MessageItem.setFlags, hasFlag_or]
      exact (Bool.or_eq_true _ _).mpr (Or.inr (by decide))
  | @queried pkt env id pos size x hc hx =>
      have hflag := fragmentQuery_of_content hc
      rw [hq pkt (List.mem_singleton.mpr rfl)] at hflag
      cases hflag

theorem marked_run (qt : Qt) {acts : List Action}
    (hq : ∀ pkt ∈ arrivals acts, hasFlag pkt.flags Flag.fragmentQuery = false) :
    (Protocol.fresh.run qt acts).Marked := by
  induction acts using List.reverseRecOn with
  | nil => exact fun m hm => (nomatch hm)
  | append_singleton acts a ih =>
      rw [arrivals_append] at hq
      rw [run_append]
      exact (ih fun pkt hp => hq pkt (List.mem_append_left _ hp)).step qt fun pkt hp =>
        hq pkt (List.mem_append_right _ hp)

end Protocol

/-- `q` may be sent before `pkt`: an original has a larger id than everything sent before it. -/
def Packet.Precedes (q pkt : Packet) : Prop := pkt.Original → q.id.toNat < pkt.id.toNat

instance (q pkt : Packet) : Decidable (q.Precedes pkt) :=
  inferInstanceAs (Decidable (pkt.Original → q.id.toNat < pkt.id.toNat))

theorem original_write (qt : Qt) {acts : List Action} {i : ℕ} {now₁ now₂ : TimePoint} {pkt : Packet}
    (hq : ∀ pkt ∈ arrivals acts, hasFlag pkt.flags Flag.fragmentQuery = false)
    (h : pkt ∈ ((Protocol.fresh.run qt acts).write qt i now₁ now₂).2) (ho : pkt.Original) :
    pkt.id = UInt8.ofNat (assignedIds (Protocol.fresh.run qt acts).log).length ∧
      (assignedIds (Protocol.fresh.run qt acts).log).length <
        (assignedIds ((Protocol.fresh.run qt acts).write qt i now₁ now₂).1.log).length := by
  have hmarked := Protocol.marked_run qt hq
  have htx := (orderly_run qt acts).nextTx_eq
  have hw := Protocol.waitingHaveIds_run qt acts
  set p := Protocol.fresh.run qt acts with hp
  obtain ⟨m, d, hm, hd, rfl⟩ := Protocol.mem_write h
  let q : Protocol := { p with posted := p.posted.eraseIdx i }
  have hlog := length_assignedIds_le (Protocol.log_prefix_prepare qt (p := q) hw hd now₁ now₂)
  have hflag : hasFlag m.flags Flag.repeated = false := (repeated_packItem qt m d _).symm.trans ho
  rw [Protocol.write_of_posted hm]
  cases hid : m.id with
  | none =>
      have hassign : (q.assignId m).2.log = p.log ++ [.assigned p.nextTxMsgId m.payload] := by
        simp only [Protocol.assignId, hid]
        rfl
      rw [hassign, assignedIds_append, List.length_append] at hlog
      refine ⟨?_, lt_of_lt_of_le (Nat.lt_succ_self _) hlog⟩
      simp only [Protocol.packItem, Protocol.assignId, hid]
      exact htx
  | some j =>
      rw [hmarked m (List.mem_of_getElem? hm) (by rw [hid]; rfl)] at hflag
      cases hflag

theorem pairwise_step (qt : Qt) (p : Protocol) (a : Action) (R : Packet → Packet → Prop) :
    (p.step qt a).2.Pairwise R := by
  cases a with
  | write i now₁ now₂ =>
      change (p.write qt i now₁ now₂).2.Pairwise R
      unfold Protocol.write
      split
      · exact List.Pairwise.nil
      next m _ =>
        simp only
        cases (Protocol.preparePacketToSend qt { p with posted := p.posted.eraseIdx i } m now₁ now₂).1 with
        | none => exact List.Pairwise.nil
        | some pkt => exact List.pairwise_singleton R pkt
  | _ => exact List.Pairwise.nil

/-- **What is sent is ordered.** -/
theorem sent_ordered (qt : Qt) (acts : List Action)
    (hq : ∀ pkt ∈ arrivals acts, hasFlag pkt.flags Flag.fragmentQuery = false)
    (hids : (assignedIds (Protocol.fresh.run qt acts).log).length ≤ 256) :
    (Protocol.fresh.sent qt acts).Pairwise Packet.Precedes := by
  induction acts using List.reverseRecOn with
  | nil => exact List.Pairwise.nil
  | append_singleton acts a ih =>
      rw [arrivals_append] at hq
      rw [Protocol.run_append] at hids
      have hq' : ∀ pkt ∈ arrivals acts, hasFlag pkt.flags Flag.fragmentQuery = false := fun pkt hp =>
        hq pkt (List.mem_append_left _ hp)
      have hids' : (assignedIds (Protocol.fresh.run qt acts).log).length ≤ 256 :=
        (length_assignedIds_le (Protocol.log_prefix_step qt (Protocol.waitingHaveIds_run qt acts) a)).trans hids
      rw [Protocol.sent_append, Protocol.sent_singleton, List.pairwise_append]
      refine ⟨ih hq' hids', pairwise_step qt _ a _, fun q hqs pkt hpkt ho => ?_⟩
      cases a with
      | write i now₁ now₂ =>
          obtain ⟨hid, hlt⟩ := original_write qt hq' hpkt ho
          have hlen : (assignedIds (Protocol.fresh.run qt acts).log).length < 256 := lt_of_lt_of_le hlt hids
          rw [hid, UInt8.toNat_ofNat_of_lt' hlen]
          exact id_lt_of_sent qt hids' hqs
      | _ => exact absurd hpkt List.not_mem_nil

end HelpzNet
