import Helpz.Net.Traffic
import Helpz.Net.Effects

/-!
# The window and the wrap of the ids

What the acceptance test does to the window for any id, with distances taken modulo 256, and what the
rest of `internal_process_message` does for packets that are no fragments: nothing.

* `isStale_iff`: which entries the first loop of `fill_lost_msg` drops;
* `maybeLost_acceptMessage`, `gap_acceptMessage`, `next_acceptMessage`: the three branches of the test;
* `lostCalls`: the calls of `lost_msg_detected`;
* `SameWindow`, `sameWindow_processAccepted`, `sameWindow_step`: without transfers the window is moved by
  the acceptance test alone.
-/

namespace HelpzNet

open HelpzLib

/-- The arguments of a call of `lost_msg_detected`. -/
def Event.lostCall : Event → Option (UInt8 × UInt8)
  | .lostMsgDetected msgId expected => some (msgId, expected)
  | _ => none

/-- The calls of `lost_msg_detected`, in order. -/
def lostCalls (log : List Event) : List (UInt8 × UInt8) := log.filterMap Event.lostCall

@[simp] theorem lostCalls_append (l l' : List Event) : lostCalls (l ++ l') = lostCalls l ++ lostCalls l' :=
  List.filterMap_append

theorem lostCall_of_calm (e : Event) (h : e.Calm) : e.lostCall = none := by
  cases e with
  | lostMsgDetected a b => exact h.routine.elim
  | _ => rfl

namespace Protocol

variable {qt : Qt} {p q : Protocol} {pkt : Packet} {env : Env}

/-- **An entry is stale when it is older than ten seconds, or, for a packet with an id below 100, when it
lies more than 100 back.** For an id from 100 on the second loop bound is never met. -/
theorem isStale_iff {now : TimePoint} {msgId x : UInt8} {tp : TimePoint} :
    isStale now msgId x tp = true ↔
      tp < now - seconds 10 ∨ msgId.toNat < 100 ∧ 100 < (msgId - x).toNat := by
  have hm := msgId.toNat_lt
  have hx := x.toNat_lt
  have h100 : (100 : UInt8).toNat = 100 := rfl
  simp only [isStale, Bool.or_eq_true, Bool.and_eq_true, decide_eq_true_eq, toNat_sub, h100]
  exact or_congr Iff.rfl (by omega)

/-- The entry of `x` after the first loop of `fill_lost_msg`. -/
def kept (p : Protocol) (now : TimePoint) (msgId x : UInt8) : Option TimePoint :=
  if (p.lostMsgList x).any (isStale now msgId x) then none else p.lostMsgList x

theorem kept_eq_some {now tp : TimePoint} {msgId x : UInt8} :
    p.kept now msgId x = some tp ↔ p.lostMsgList x = some tp ∧ isStale now msgId x tp = false := by
  unfold kept
  by_cases hs : (p.lostMsgList x).any (isStale now msgId x) = true
  · obtain ⟨t, ht, hst⟩ := (Option.any_eq_true _ _).mp hs
    rw [if_pos hs, ht]
    constructor
    · intro h
      cases h
    · rintro ⟨h, hf⟩
      obtain rfl := Option.some.inj h
      rw [hst] at hf
      cases hf
  · rw [if_neg hs]
    refine ⟨fun h => ⟨h, ?_⟩, And.left⟩
    rw [h, Option.any_some, Bool.not_eq_true] at hs
    exact hs

/-! ## The three branches of the acceptance test -/

section Branches

variable {now : TimePoint} {msgId flags : UInt8}

theorem maybeLost_acceptMessage (now : TimePoint) (h : p.MaybeLost msgId flags) :
    (p.acceptMessage now msgId flags).1 =
        ((p.lostMsgList msgId).any (fun tp => decide (now - tp < seconds 10)) || !hasFlag flags Flag.repeated) ∧
      (p.acceptMessage now msgId flags).2.nextRxMsgId = p.nextRxMsgId ∧
      (p.acceptMessage now msgId flags).2.lostMsgList = Function.update p.lostMsgList msgId none ∧
      (p.acceptMessage now msgId flags).2.log = p.log := by
  rw [acceptMessage_lost now h, isLostMessage]
  cases hl : p.lostMsgList msgId with
  | none =>
      have hself : Function.update p.lostMsgList msgId none = p.lostMsgList := by
        rw [← hl, Function.update_eq_self]
      exact ⟨rfl, rfl, hself.symm, rfl⟩
  | some tp => exact ⟨rfl, rfl, rfl, rfl⟩

theorem gap_acceptMessage (now : TimePoint) (h : ¬ p.MaybeLost msgId flags) (hg : p.Gap msgId) :
    (p.acceptMessage now msgId flags).1 = true ∧
      (p.acceptMessage now msgId flags).2.nextRxMsgId = msgId + 1 ∧
      (∀ x, (p.acceptMessage now msgId flags).2.lostMsgList x =
        if (p.kept now msgId x).isSome ∨ ¬ (1 ≤ (msgId - x).toNat ∧ (msgId - x).toNat ≤ p.skipped msgId)
        then p.kept now msgId x else some now) ∧
      (p.acceptMessage now msgId flags).2.log = p.log ++ [.lostMsgDetected msgId p.nextRxMsgId] := by
  rw [acceptMessage_gap now h hg]
  exact ⟨rfl, rfl, fun x => lostMsgList_fillLostMsg _ now msgId x, rfl⟩

/-- The expected packet moves the window; one that lies exactly 100 back passes by. -/
theorem next_acceptMessage (now : TimePoint) (h : ¬ p.MaybeLost msgId flags) (hg : ¬ p.Gap msgId) :
    (p.acceptMessage now msgId flags).1 = true ∧
      (p.acceptMessage now msgId flags).2.nextRxMsgId =
        (if p.nextRxMsgId.toNat ≤ msgId.toNat then msgId + 1 else p.nextRxMsgId) ∧
      (p.acceptMessage now msgId flags).2.lostMsgList = p.lostMsgList ∧
      (p.acceptMessage now msgId flags).2.log = p.log := by
  rw [acceptMessage_next now h hg]
  by_cases hle : p.nextRxMsgId.toNat ≤ msgId.toNat
  · rw [if_pos hle, if_pos hle]
    exact ⟨rfl, rfl, rfl, rfl⟩
  · rw [if_neg hle, if_neg hle]
    exact ⟨rfl, rfl, rfl, rfl⟩

end Branches

theorem lostCalls_passedOn (p : Protocol) (pkt : Packet) :
    lostCalls (p.emit [.internalProcessMessage pkt]).log = lostCalls p.log := by
  rw [emit, lostCalls_append]
  exact List.append_nil _

theorem maybeLost_afterTest (env : Env) (h : p.MaybeLost pkt.id pkt.flags) :
    (p.afterTest pkt env).nextRxMsgId = p.nextRxMsgId ∧
      (p.afterTest pkt env).lostMsgList = Function.update p.lostMsgList pkt.id none := by
  obtain ⟨_, hnext, hlost, _⟩ :=
    maybeLost_acceptMessage (p := p.emit [.internalProcessMessage pkt]) env.now₁ h
  exact ⟨hnext, hlost⟩

theorem gap_afterTest (env : Env) (h : ¬ p.MaybeLost pkt.id pkt.flags) (hg : p.Gap pkt.id) :
    p.accepts pkt env = true ∧ (p.afterTest pkt env).nextRxMsgId = pkt.id + 1 ∧
      (∀ x, (p.afterTest pkt env).lostMsgList x =
        if (p.kept env.now₁ pkt.id x).isSome ∨
            ¬ (1 ≤ (pkt.id - x).toNat ∧ (pkt.id - x).toNat ≤ p.skipped pkt.id)
        then p.kept env.now₁ pkt.id x else some env.now₁) ∧
      lostCalls (p.afterTest pkt env).log = lostCalls p.log ++ [(pkt.id, p.nextRxMsgId)] := by
  obtain ⟨hacc, hnext, hlost, hlog⟩ :=
    gap_acceptMessage (p := p.emit [.internalProcessMessage pkt]) env.now₁ h hg
  refine ⟨hacc, hnext, hlost, ?_⟩
  rw [afterTest, hlog, lostCalls_append, lostCalls_passedOn]
  rfl

theorem next_afterTest (env : Env) (h : ¬ p.MaybeLost pkt.id pkt.flags) (hg : ¬ p.Gap pkt.id) :
    p.accepts pkt env = true ∧ (p.afterTest pkt env).lostMsgList = p.lostMsgList ∧
      (p.afterTest pkt env).nextRxMsgId =
        (if p.nextRxMsgId.toNat ≤ pkt.id.toNat then pkt.id + 1 else p.nextRxMsgId) ∧
      lostCalls (p.afterTest pkt env).log = lostCalls p.log := by
  obtain ⟨hacc, hnext, hlost, hlog⟩ :=
    next_acceptMessage (p := p.emit [.internalProcessMessage pkt]) env.now₁ h hg
  exact ⟨hacc, hlost, hnext, by rw [afterTest, hlog, lostCalls_passedOn]⟩

/-! ## Without transfers -/

/-- The window is the same, and no loss was reported. -/
structure SameWindow (p q : Protocol) : Prop where
  next : q.nextRxMsgId = p.nextRxMsgId
  lost : q.lostMsgList = p.lostMsgList
  calls : lostCalls q.log = lostCalls p.log
  idle : ∀ x, q.fragmentedMessages x = none

theorem lostCalls_of_effects {W : TimePoint × MessageItem → Prop}
    (h : Effects (fun e => e.lostCall = none) W p q) : lostCalls q.log = lostCalls p.log := by
  obtain ⟨evs, hl, hc⟩ := h.log
  rw [hl, lostCalls_append, lostCalls, lostCalls, List.filterMap_eq_nil_iff.mpr hc, List.append_nil]

theorem sameWindow_processAccepted (env : Env) (hidle : ∀ x, p.fragmentedMessages x = none)
    (hf : pkt.Unfragmented qt) : p.SameWindow (p.processAccepted qt env pkt).1 := by
  have hcalls := lostCalls_of_effects (effects_processAccepted lostCall_of_calm qt p env hf)
  cases treated_processAccepted qt p env pkt with
  | nothing hs => exact ⟨hs.next, hs.lost, hcalls, hs.frag ▸ hidle⟩
  | erased id he =>
      rw [he] at hcalls ⊢
      exact ⟨rfl, rfl, hcalls, idle_eraseFragment hidle id⟩
  | handed data _ hh => exact ⟨hh.next, hh.lost, hcalls, hh.frag ▸ hidle⟩
  | fragment a fullSize pos mx data hc _ => exact absurd hc (hf a fullSize pos mx data)

theorem sameWindow_receive (hidle : ∀ x, p.fragmentedMessages x = none) (hf : pkt.Unfragmented qt) :
    (p.afterTest pkt env).SameWindow (p.step qt (.receive pkt env)).1 := by
  have hidle' := idle_afterTest hidle pkt env
  rw [step_receive]
  split_ifs
  · exact sameWindow_processAccepted env hidle' hf
  · exact ⟨rfl, rfl, rfl, hidle'⟩

theorem lostCalls_preparePacketToSend (qt : Qt) (p : Protocol) (m : MessageItem) (now₁ now₂ : TimePoint) :
    lostCalls (preparePacketToSend qt p m now₁ now₂).2.log = lostCalls p.log := by
  cases hd : m.dataDevice with
  | none =>
      simp only [preparePacketToSend, hd]
      exact lostCalls_of_effects (effects_destroy lostCall_of_calm p m _)
  | some d =>
      refine (lostCalls_of_effects (effects_prepare lostCall_of_calm qt p hd now₁ now₂)).trans ?_
      have hassign : lostCalls (p.assignId m).2.log = lostCalls p.log := by
        unfold assignId
        cases m.id with
        | some id => rfl
        | none =>
            simp only [lostCalls_append]
            exact List.append_nil _
      rw [afterSent, emit, lostCalls_append, hassign]
      exact List.append_nil _

/-- **Whatever happens but an arrival leaves the window alone.** -/
theorem sameWindow_step (hidle : ∀ x, p.fragmentedMessages x = none) {a : Action}
    (h : ∀ pkt env, a ≠ .receive pkt env) : p.SameWindow (p.step qt a).1 := by
  have hrx := sameRx_step qt p hidle h
  refine ⟨hrx.next, hrx.lost, ?_, hrx.frag ▸ hidle⟩
  by_cases hw : ∃ i now₁ now₂, a = .write i now₁ now₂
  · obtain ⟨i, now₁, now₂, rfl⟩ := hw
    simp only [step, write]
    cases p.posted[i]? with
    | none => rfl
    | some m => exact lostCalls_preparePacketToSend qt { p with posted := p.posted.eraseIdx i } m now₁ now₂
  · refine lostCalls_of_effects (effects_step lostCall_of_calm (fun _ => rfl) qt p ?_ ?_ fun _ _ _ _ _ _ => rfl)
    · intro i now₁ now₂ ha
      exact hw ⟨i, now₁, now₂, ha⟩
    · intro pkt env ha
      exact absurd ha (h pkt env)

theorem idle_step (hidle : ∀ x, p.fragmentedMessages x = none) {a : Action}
    (hun : ∀ pkt ∈ arrivals [a], pkt.Unfragmented qt) : ∀ x, (p.step qt a).1.fragmentedMessages x = none := by
  cases a with
  | receive pkt env => exact (sameWindow_receive hidle (hun pkt List.mem_cons_self)).idle
  | _ => exact (sameWindow_step hidle (by simp)).idle

theorem idle_run (hidle : ∀ x, p.fragmentedMessages x = none) {acts : List Action}
    (hun : ∀ pkt ∈ arrivals acts, pkt.Unfragmented qt) :
    ∀ x, (p.run qt acts).fragmentedMessages x = none := by
  induction acts generalizing p with
  | nil => exact hidle
  | cons a acts ih =>
      rw [arrivals_cons] at hun
      have hun' : ∀ pkt ∈ arrivals acts, pkt.Unfragmented qt := fun pkt hp =>
        hun pkt (List.mem_append_right _ hp)
      exact ih (idle_step hidle fun pkt hp => hun pkt (List.mem_append_left _ hp)) hun'

end Protocol

end HelpzNet
