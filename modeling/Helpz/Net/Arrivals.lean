import Helpz.Net.Sending
import Mathlib.Data.List.Triplewise

/-!
# At most once: messages in one packet

The original of a message, the packet without the REPEATED flag, is accepted whenever its id lies
before the end of the window: the acceptance test does not ask whether the id is still missing. So a
message is handed over again if its original comes late, after a repetition that was accepted
(`late_original_handed_twice`). A repetition is accepted if, less than 10 seconds before, the original
of one of the next 100 messages has put its id among the lost ones.

Without late originals every message in one packet is handed over at most once (`atMostOnce`).

* `timedArrivals`: the packets that arrive, each with the time the acceptance test reads;
* `Recovers`, `LateOriginal`: these conditions, on two and three packets in the order they arrive;
* `Once`: the invariant of the window. Ids that were handed over lie before its end and are not among
  the lost ones; their original arrived, or they were recovered;
* `Once.window_old`, `Once.window_new`, `Once.afterTest`, `Once.treated`, `Once.step`, `once_run`.
-/

namespace HelpzNet

open HelpzLib

instance decidableTriplewise {α : Type} {R : α → α → α → Prop} [∀ a b c, Decidable (R a b c)] :
    (l : List α) → Decidable (l.Triplewise R)
  | [] => .isTrue .nil
  | a :: l =>
      have : Decidable (l.Triplewise R) := decidableTriplewise l
      decidable_of_iff (l.Pairwise (R a) ∧ l.Triplewise R) List.triplewise_cons.symm

/-- The packets that arrive, with the time at which the acceptance test is made. -/
def timedArrivals (acts : List Action) : List (Packet × TimePoint) :=
  acts.filterMap fun
    | .receive pkt env => some (pkt, env.now₁)
    | _ => none

theorem timedArrivals_append (l l' : List Action) :
    timedArrivals (l ++ l') = timedArrivals l ++ timedArrivals l' := List.filterMap_append

theorem map_fst_timedArrivals (acts : List Action) : (timedArrivals acts).map Prod.fst = arrivals acts := by
  rw [timedArrivals, arrivals, List.map_filterMap]
  congr 1
  funext a
  cases a <;> rfl

/-- After the original `q` of one of the next 100 messages, and less than 10 seconds later, a
repetition `r` of message `x` arrives. -/
def Recovers (x : UInt8) (q r : Packet × TimePoint) : Prop :=
  q.1.Original ∧ x.toNat < q.1.id.toNat ∧ q.1.id.toNat ≤ x.toNat + 100 ∧
    ¬ r.1.Original ∧ r.1.id = x ∧ r.2 - q.2 < seconds 10

instance (x : UInt8) (q r : Packet × TimePoint) : Decidable (Recovers x q r) := by
  unfold Recovers
  infer_instance

/-- The original `o` arrives after its message was recovered. -/
def LateOriginal (q r o : Packet × TimePoint) : Prop := o.1.Original ∧ Recovers o.1.id q r

instance (q r o : Packet × TimePoint) : Decidable (LateOriginal q r o) :=
  inferInstanceAs (Decidable (_ ∧ _))

/-- When the original `o` arrives after the original `q`, at most 99 messages are outstanding, from its
own to that of `q`. -/
def Packet.Outstanding (q o : Packet) : Prop := q.Original → o.Original → q.id.toNat < o.id.toNat + 99

instance (q o : Packet) : Decidable (q.Outstanding o) := inferInstanceAs (Decidable (_ → _ → _))

/-- Two originals that arrive are of different messages. -/
def Packet.Distinct (q o : Packet) : Prop := q.Original → o.Original → q.id ≠ o.id

/-- The message can have been accepted: its original arrived, or it was recovered. -/
def Accepted (past : List (Packet × TimePoint)) (x : UInt8) : Prop :=
  (∃ q ∈ past, q.1.Original ∧ q.1.id = x) ∨ ∃ q r, [q, r].Sublist past ∧ Recovers x q r

theorem Accepted.append {past : List (Packet × TimePoint)} {x : UInt8} (h : Accepted past x)
    (l : List (Packet × TimePoint)) : Accepted (past ++ l) x := by
  rcases h with ⟨q, hq, h⟩ | ⟨q, r, hqr, h⟩
  · exact Or.inl ⟨q, List.mem_append_left _ hq, h⟩
  · exact Or.inr ⟨q, r, hqr.trans (List.sublist_append_left _ _), h⟩

/-- **The invariant of the window**, after the packets `past` have arrived. -/
structure Protocol.Once (past : List (Packet × TimePoint)) (p : Protocol) : Prop where
  idle : ∀ x, p.fragmentedMessages x = none
  next : p.nextRxMsgId.toNat = 0 ∨ ∃ q ∈ past, q.1.Original ∧ p.nextRxMsgId.toNat = q.1.id.toNat + 1
  ends : ∀ x tp, p.lostMsgList x = some tp → x.toNat < p.nextRxMsgId.toNat
  lost : ∀ x tp, p.lostMsgList x = some tp →
    ∃ q ∈ past, q.2 = tp ∧ q.1.Original ∧ x.toNat < q.1.id.toNat ∧ q.1.id.toNat ≤ x.toNat + 100
  before : ∀ x ∈ handedIds p.log, x.toNat < p.nextRxMsgId.toNat
  settled : ∀ x ∈ handedIds p.log, p.lostMsgList x = none
  accepted : ∀ x ∈ handedIds p.log, Accepted past x
  nodup : (handedIds p.log).Nodup

namespace Protocol

variable {qt : Qt} {past : List (Packet × TimePoint)} {p q : Protocol} {pkt : Packet} {env : Env}
  {now : TimePoint}

/-- The id may be handed over: this has not been done, and it will not be done again. -/
structure Unhanded (past : List (Packet × TimePoint)) (p : Protocol) (id : UInt8) : Prop where
  fresh : id ∉ handedIds p.log
  before : id.toNat < p.nextRxMsgId.toNat
  settled : p.lostMsgList id = none
  accepted : Accepted past id

theorem Once.sameRx (h : Once past p) (hq : p.SameRx q) : Once past q := by
  have hids : handedIds q.log = handedIds p.log := handedIds_eq hq.handed
  exact ⟨hq.frag ▸ h.idle, hq.next ▸ h.next, hq.next ▸ hq.lost ▸ h.ends, hq.lost ▸ h.lost,
    hids ▸ hq.next ▸ h.before, hids ▸ hq.lost ▸ h.settled, hids ▸ h.accepted, hids ▸ h.nodup⟩

theorem Once.accepted_append (h : Once past p) (hlog : handovers q.log = handovers p.log)
    (l : List (Packet × TimePoint)) :
    (∀ x ∈ handedIds q.log, Accepted (past ++ l) x) ∧ (handedIds q.log).Nodup := by
  have hids : handedIds q.log = handedIds p.log := handedIds_eq hlog
  rw [hids]
  exact ⟨fun x hx => (h.accepted x hx).append l, h.nodup⟩

/-- A repetition is accepted only if its id is a lost one; an original that lies before the end of the
window is accepted in any case. -/
theorem Once.window_old {r : Protocol} (h : Once past p) (hin : ∀ q ∈ past, q.1.Distinct pkt)
    (hlate : past.Pairwise fun q r => ¬ LateOriginal q r (pkt, now))
    (hold : hasFlag pkt.flags Flag.repeated = true ∨ pkt.id.toNat < p.nextRxMsgId.toNat)
    (hnext : r.nextRxMsgId = p.nextRxMsgId) (hlost : r.lostMsgList = Function.update p.lostMsgList pkt.id none)
    (hidle : ∀ x, r.fragmentedMessages x = none) (hlog : handovers r.log = handovers p.log) :
    Once (past ++ [(pkt, now)]) r ∧
      (((p.lostMsgList pkt.id).any (fun tp => decide (now - tp < seconds 10)) ||
        !hasFlag pkt.flags Flag.repeated) = true → r.Unhanded (past ++ [(pkt, now)]) pkt.id) := by
  have hids : handedIds r.log = handedIds p.log := handedIds_eq hlog
  obtain ⟨hacc, hnodup⟩ := h.accepted_append hlog [(pkt, now)]
  have hsub : ∀ x tp, r.lostMsgList x = some tp → p.lostMsgList x = some tp := by
    intro x tp hx
    rw [hlost, Function.update_apply] at hx
    split_ifs at hx
    exact hx
  refine ⟨⟨hidle, ?_, fun x tp hx => hnext ▸ h.ends x tp (hsub x tp hx), fun x tp hx => ?_, ?_, fun x hx => ?_,
    hacc, hnodup⟩, fun hok => ⟨?_, ?_, ?_, ?_⟩⟩
  · rw [hnext]
    rcases h.next with h0 | ⟨q0, hq0, hqo⟩
    · exact Or.inl h0
    · exact Or.inr ⟨q0, List.mem_append_left _ hq0, hqo⟩
  · obtain ⟨q0, hq0, hqo⟩ := h.lost x tp (hsub x tp hx)
    exact ⟨q0, List.mem_append_left _ hq0, hqo⟩
  · rw [hids, hnext]
    exact h.before
  · rw [hlost, Function.update_apply]
    split_ifs
    · rfl
    · exact h.settled x (hids ▸ hx)
  · -- an id that was handed over is not lost, so the packet is its original, which is late
    rw [hids]
    intro hmem
    rw [h.settled _ hmem, Option.any_none, Bool.false_or, Bool.not_eq_true'] at hok
    rcases h.accepted _ hmem with ⟨q0, hq0, hqo, hid⟩ | ⟨q0, r0, hsl, hrec⟩
    · exact hin q0 hq0 hqo hok hid
    · exact List.pairwise_iff_forall_sublist.mp hlate hsl ⟨hok, hrec⟩
  · rw [hnext]
    rcases hold with hrep | hlt
    · rw [hrep, Bool.not_true, Bool.or_false] at hok
      obtain ⟨tp, htp, _⟩ := (Option.any_eq_true _ _).mp hok
      exact h.ends _ tp htp
    · exact hlt
  · rw [hlost, Function.update_self]
  · by_cases ho : pkt.Original
    · exact Or.inl ⟨(pkt, now), List.mem_append_right _ (List.mem_singleton.mpr rfl), ho, rfl⟩
    · have hrep : hasFlag pkt.flags Flag.repeated = true := Bool.not_eq_false _ ▸ ho
      rw [hrep, Bool.not_true, Bool.or_false] at hok
      obtain ⟨tp, htp, hrecent⟩ := (Option.any_eq_true _ _).mp hok
      obtain ⟨q0, hq0, rfl, hqo, hlt, hle⟩ := h.lost _ tp htp
      refine Or.inr ⟨q0, (pkt, now), ?_, hqo, hlt, hle, ho, rfl, of_decide_eq_true hrecent⟩
      exact (List.singleton_sublist.mpr hq0).append (List.Sublist.refl [(pkt, now)])

theorem Once.window_new {r : Protocol} {kept : UInt8 → Option TimePoint} (h : Once past p) (ho : pkt.Original)
    (hle : p.nextRxMsgId.toNat ≤ pkt.id.toNat) (hnext : r.nextRxMsgId.toNat = pkt.id.toNat + 1)
    (hkept : ∀ y, kept y = p.lostMsgList y ∨ kept y = none)
    (hlost : ∀ y, r.lostMsgList y = if (kept y).isSome ∨
      ¬ (p.fillFrom pkt.id ≤ y.toNat ∧ y.toNat < pkt.id.toNat) then kept y else some now)
    (hidle : ∀ x, r.fragmentedMessages x = none) (hlog : handovers r.log = handovers p.log) :
    Once (past ++ [(pkt, now)]) r ∧ r.Unhanded (past ++ [(pkt, now)]) pkt.id := by
  have hids : handedIds r.log = handedIds p.log := handedIds_eq hlog
  have hself : (pkt, now) ∈ past ++ [(pkt, now)] := List.mem_append_right _ (List.mem_singleton.mpr rfl)
  obtain ⟨hacc, hnodup⟩ := h.accepted_append hlog [(pkt, now)]
  have hfrom : ∀ y : UInt8, p.fillFrom pkt.id ≤ y.toNat ∧ y.toNat < pkt.id.toNat →
      p.nextRxMsgId.toNat ≤ y.toNat ∧ pkt.id.toNat ≤ y.toNat + 100 := by
    intro y hy
    exact (p.fillFrom_le_iff hy.2).mp hy.1
  -- an id is lost now because it was before, or because the packet leaves it out
  have hsome : ∀ x tp, r.lostMsgList x = some tp → p.lostMsgList x = some tp ∨
      tp = now ∧ p.fillFrom pkt.id ≤ x.toNat ∧ x.toNat < pkt.id.toNat := by
    intro x tp hx
    rw [hlost] at hx
    split_ifs at hx with hc
    · rcases hkept x with he | he
      · exact Or.inl (he ▸ hx)
      · rw [he] at hx
        cases hx
    · exact Or.inr ⟨(Option.some.inj hx).symm, not_not.mp fun hr => hc (Or.inr hr)⟩
  have hnone : ∀ x, p.lostMsgList x = none → x.toNat < p.nextRxMsgId.toNat ∨ pkt.id.toNat ≤ x.toNat →
      r.lostMsgList x = none := by
    intro x hx hout
    by_contra hne
    obtain ⟨tp, htp⟩ := Option.ne_none_iff_exists'.mp hne
    rcases hsome x tp htp with h1 | ⟨_, h1⟩
    · rw [hx] at h1
      cases h1
    · have := (hfrom x h1).1
      omega
  refine ⟨⟨hidle, Or.inr ⟨_, hself, ho, hnext⟩, fun x tp hx => ?_, fun x tp hx => ?_, fun x hx => ?_,
    fun x hx => ?_, hacc, hnodup⟩, fun hmem => ?_, ?_, hnone _ ?_ (Or.inr le_rfl), Or.inl ⟨_, hself, ho, rfl⟩⟩
  · rcases hsome x tp hx with h1 | ⟨_, h1⟩
    · have := h.ends x tp h1
      omega
    · omega
  · rcases hsome x tp hx with h1 | ⟨rfl, h1⟩
    · obtain ⟨q0, hq0, hqo⟩ := h.lost x tp h1
      exact ⟨q0, List.mem_append_left _ hq0, hqo⟩
    · exact ⟨_, hself, rfl, ho, h1.2, (hfrom x h1).2⟩
  · have := h.before x (hids ▸ hx)
    omega
  · exact hnone x (h.settled x (hids ▸ hx)) (Or.inl (h.before x (hids ▸ hx)))
  · have := h.before _ (hids ▸ hmem)
    omega
  · omega
  · by_contra hne
    obtain ⟨tp, htp⟩ := Option.ne_none_iff_exists'.mp hne
    have := h.ends _ tp htp
    omega

/-- **The acceptance test keeps the invariant, and accepts only what was not handed over.** -/
theorem Once.afterTest (h : Once past p) (env : Env) (hid : pkt.id ≠ 255)
    (hin : ∀ q ∈ past, q.1.Distinct pkt ∧ q.1.Outstanding pkt)
    (hlate : past.Pairwise fun q r => ¬ LateOriginal q r (pkt, env.now₁)) :
    Once (past ++ [(pkt, env.now₁)]) (p.afterTest pkt env) ∧
      (p.accepts pkt env = true → (p.afterTest pkt env).Unhanded (past ++ [(pkt, env.now₁)]) pkt.id) := by
  have hidle := idle_afterTest h.idle pkt env
  have hlog := p.handovers_afterTest pkt env
  have hw := p.windowStep_afterTest env hid fun horig => by
    rcases h.next with h0 | ⟨q, hq, hqo, hqn⟩
    · omega
    · have := (hin q hq).2 hqo horig
      omega
  generalize p.accepts pkt env = ok, p.afterTest pkt env = r at hidle hlog hw ⊢
  cases hw with
  | old q hold hnext hlost => exact h.window_old (fun q hq => (hin q hq).1) hlate hold hnext hlost hidle hlog
  | new q kept horig hle hnext hkept hlost =>
      obtain ⟨honce, hun⟩ := h.window_new horig hle hnext (fun y => (hkept y).imp_right And.left) hlost hidle
        hlog
      exact ⟨honce, fun _ => hun⟩

theorem Once.treated (h : Once past p) (hun : p.Unhanded past pkt.id)
    (hplain : hasFlag pkt.flags Flag.fragment = false) (ht : Treated qt env pkt p q) : Once past q := by
  cases ht with
  | nothing hs => exact h.sameRx hs
  | erased id he =>
      subst he
      exact ⟨idle_eraseFragment h.idle id, h.next, h.ends, h.lost, h.before, h.settled, h.accepted, h.nodup⟩
  | handed data hc hh =>
      have hids : handedIds q.log = handedIds p.log ++ [pkt.id] := handedIds_append hh.handed
      have hall : ∀ {P : UInt8 → Prop}, (∀ x ∈ handedIds p.log, P x) → P pkt.id →
          ∀ x ∈ handedIds q.log, P x := by
        intro P h1 h2 x hx
        rw [hids, List.mem_append, List.mem_singleton] at hx
        exact hx.elim (h1 x) fun he => he ▸ h2
      refine ⟨hh.frag ▸ h.idle, hh.next ▸ h.next, hh.next ▸ hh.lost ▸ h.ends, hh.lost ▸ h.lost,
        hh.next ▸ hall h.before hun.before, hh.lost ▸ hall h.settled hun.settled,
        hall h.accepted hun.accepted, ?_⟩
      rw [hids]
      exact List.nodup_append.mpr ⟨h.nodup, List.nodup_singleton _, fun a ha b hb hab =>
        hun.fresh (List.mem_singleton.mp hb ▸ hab ▸ ha)⟩
  | fragment a full pos mx data hc _ =>
      rw [fragment_of_content hc] at hplain
      cases hplain

/-- **Every action keeps the invariant**, if what arrives is no late original. -/
theorem Once.step (h : Once past p) {a : Action}
    (hplain : ∀ pkt ∈ arrivals [a], hasFlag pkt.flags Flag.fragment = false ∧ pkt.id ≠ 255)
    (hin : ∀ pkt ∈ arrivals [a], ∀ q ∈ past, q.1.Distinct pkt ∧ q.1.Outstanding pkt)
    (hlate : ∀ o ∈ timedArrivals [a], past.Pairwise fun q r => ¬ LateOriginal q r o) :
    Once (past ++ timedArrivals [a]) (p.step qt a).1 := by
  cases a with
  | receive pkt env =>
      obtain ⟨hfrag, hid⟩ := hplain pkt (List.mem_singleton.mpr rfl)
      obtain ⟨hacc, hun⟩ := h.afterTest env hid (hin pkt (List.mem_singleton.mpr rfl))
        (hlate (pkt, env.now₁) (List.mem_singleton.mpr rfl))
      change Once (past ++ [(pkt, env.now₁)]) _
      rw [step_receive]
      split_ifs with hok
      · exact hacc.treated (hun hok) hfrag (treated_processAccepted qt _ env pkt)
      · exact hacc
  | _ =>
      change Once (past ++ []) _
      rw [List.append_nil]
      exact h.sameRx (sameRx_step qt p h.idle fun _ _ => nofun)

theorem once_fresh : Once [] Protocol.fresh :=
  ⟨fun _ => rfl, Or.inl rfl, fun _ _ => nofun, fun _ _ => nofun, fun _ hx => (nomatch hx),
    fun _ hx => (nomatch hx), fun _ hx => (nomatch hx), List.nodup_nil⟩

/-- **The invariant holds in every run without late originals.** -/
theorem once_run (acts : List Action)
    (hplain : ∀ pkt ∈ arrivals acts, hasFlag pkt.flags Flag.fragment = false ∧ pkt.id ≠ 255)
    (hin : (arrivals acts).Pairwise fun q o => q.Distinct o ∧ q.Outstanding o)
    (hlate : (timedArrivals acts).Triplewise fun q r o => ¬ LateOriginal q r o) :
    Once (timedArrivals acts) (Protocol.fresh.run qt acts) := by
  induction acts using List.reverseRecOn with
  | nil => exact once_fresh
  | append_singleton acts a ih =>
      rw [arrivals_append] at hplain hin
      rw [timedArrivals_append] at hlate ⊢
      obtain ⟨hin₁, _, hin₂⟩ := List.pairwise_append.mp hin
      obtain ⟨hlate₁, _, _, hlate₂⟩ := List.triplewise_append.mp hlate
      rw [run_append]
      refine (ih (fun pkt hp => hplain pkt (List.mem_append_left _ hp)) hin₁ hlate₁).step
        (fun pkt hp => hplain pkt (List.mem_append_right _ hp)) (fun pkt hp q hq => ?_) hlate₂
      rw [← map_fst_timedArrivals] at hin₂
      exact hin₂ q.1 (List.mem_map_of_mem hq) pkt hp

end Protocol

/-- **No two originals of one message arrive**, if the transport duplicates nothing and the sender is
not asked for fragments. -/
theorem arrived_distinct (qt : Qt) (s : Side) {moves : List Move} (htakes : ∀ mv ∈ moves, mv.Takes)
    (hq : ∀ pkt ∈ System.arrivedAt qt s.other moves, hasFlag pkt.flags Flag.fragmentQuery = false)
    (hids : (assignedIds ((System.fresh.run qt moves).node s.other).log).length ≤ 256) :
    (System.arrivedAt qt s moves).Pairwise Packet.Distinct := by
  rw [System.node_run_fresh] at hids
  have hsent : (System.sentBy qt s.other moves).Pairwise Packet.Distinct :=
    (sent_ordered qt _ hq hids).imp fun hlt _ ho he => absurd (congrArg UInt8.toNat he) (hlt ho).ne
  have hperm := (System.arrived_perm_sent qt s htakes).pairwise_iff (R := Packet.Distinct)
    fun h ho ho' he => h ho' ho he.symm
  exact (List.pairwise_append.mp (hperm.mpr hsent)).1

/-- **At most once.** One end gives out fewer than 256 ids, the transport duplicates nothing, no fragment
and no query for one arrives anywhere, and an original that arrives is at most 99 messages behind. If
no original arrives late, then the other end hands over at most one message for each id. -/
theorem atMostOnce (qt : Qt) (s : Side) (moves : List Move)
    (hids : (assignedIds ((System.fresh.run qt moves).node s.other).log).length < 256)
    (htakes : ∀ mv ∈ moves, mv.Takes)
    (hplain : ∀ t, ∀ pkt ∈ System.arrivedAt qt t moves,
      hasFlag pkt.flags (Flag.fragment ||| Flag.fragmentQuery) = false)
    (hout : (System.arrivedAt qt s moves).Pairwise Packet.Outstanding)
    (hlate : (timedArrivals (System.fresh.actions qt s moves)).Triplewise fun q r o => ¬ LateOriginal q r o) :
    (handedIds ((System.fresh.run qt moves).node s).log).Nodup := by
  have hflags := fun t pkt hp => hasFlag_or_right_eq_false.mp (hplain t pkt hp)
  have hdistinct := arrived_distinct qt s htakes (fun pkt hp => (hflags s.other pkt hp).2) hids.le
  rw [System.node_run_fresh]
  exact (Protocol.once_run _ (fun pkt hp => ⟨(hflags s pkt hp).1, System.id_ne_of_arrived qt hids hp⟩)
    (hdistinct.and hout) hlate).nodup

/-- Two messages are sent and the second arrives; the first is repeated after 3 seconds. -/
def repeatedRun : List Move :=
  [.own .left (.send 20 none [.write [7], .answer true 1]), .own .left (.send 20 none [.write [8]]),
    .own .left (.write 0 2 2), .own .left (.write 0 2 2), .deliver .right 1 false Env.quiet,
    .own .left (.timer .null (seconds 4) (seconds 4)), .own .left (.write 0 (seconds 4) (seconds 4)),
    .deliver .right 1 false ⟨seconds 5, seconds 5, false, false⟩]

theorem atMostOnce_repeatedRun :
    let y := System.fresh.run Qt.storing repeatedRun
    handedIds (y.node .right).log = [1, 0] ∧ (handedIds (y.node .right).log).Nodup :=
  ⟨by decide +kernel, atMostOnce Qt.storing .right repeatedRun (by decide +kernel) (by decide +kernel)
    (fun t => by cases t <;> decide +kernel) (by decide +kernel) (by decide +kernel)⟩

/-- The original of the first message arrives after its repetition, and is handed over again. -/
theorem late_original_handed_twice :
    ¬ ∀ (qt : Qt) (s : Side) (moves : List Move),
      (assignedIds ((System.fresh.run qt moves).node s.other).log).length ≤ 99 →
      (∀ t, ∀ pkt ∈ System.sentBy qt t moves, hasFlag pkt.flags Flag.fragment = false) →
      (∀ mv ∈ moves, mv.Takes) → (handedIds ((System.fresh.run qt moves).node s).log).Nodup := by
  intro h
  have htwice := h Qt.storing .right
    (repeatedRun ++ [.deliver .right 0 false ⟨seconds 6, seconds 6, false, false⟩])
    (by decide +kernel) (fun t => by cases t <;> decide +kernel) (by decide +kernel)
  exact absurd htwice (by decide +kernel)

end HelpzNet
