import Helpz.Net.Sending
import Helpz.Net.Arrivals
import Helpz.Lib.Run

/-!
# Lost messages and their repetitions

The transport drops packets and delivers the others in the order they were sent. A message whose
original is lost is handed over exactly if a repetition of it arrives after the original of one of
the next 100 messages (`recovers_iff`): only then is its id among the lost ones. A repetition that
arrives before is dropped, although no packet of the message was ever accepted
(`repetition_of_unseen_dropped`).

* `Noted`, `Recovered`: these conditions, on the packets that arrived;
* `Lossy`: the invariant. The ids accepted are those of the messages recovered, and the lost ids are
  the noted ones that were not accepted.
-/

namespace HelpzNet

open HelpzLib

/-- The original of one of the 100 messages after `m` arrived. -/
def Noted (m : UInt8) (l : List Packet) : Prop :=
  ∃ q ∈ l, q.Original ∧ m.toNat < q.id.toNat ∧ q.id.toNat ≤ m.toNat + 100

/-- The original of message `m` arrived, or a packet of it arrived when `m` was noted. -/
def Recovered (m : UInt8) (l : List Packet) : Prop :=
  (∃ pkt ∈ l, pkt.id = m ∧ pkt.Original) ∨
    ∃ l₁ l₂, l = l₁ ++ l₂ ∧ Noted m l₁ ∧ ∃ pkt ∈ l₂, pkt.id = m

theorem noted_append_singleton {m : UInt8} {l : List Packet} {pkt : Packet} :
    Noted m (l ++ [pkt]) ↔
      Noted m l ∨ pkt.Original ∧ m.toNat < pkt.id.toNat ∧ pkt.id.toNat ≤ m.toNat + 100 := by
  simp only [Noted, List.mem_append, List.mem_singleton]
  constructor
  · rintro ⟨q, hq | rfl, h⟩
    · exact Or.inl ⟨q, hq, h⟩
    · exact Or.inr h
  · rintro (⟨q, hq, h⟩ | h)
    · exact ⟨q, Or.inl hq, h⟩
    · exact ⟨pkt, Or.inr rfl, h⟩

theorem recovered_append_singleton {m : UInt8} {l : List Packet} {pkt : Packet} :
    Recovered m (l ++ [pkt]) ↔ Recovered m l ∨ pkt.id = m ∧ (pkt.Original ∨ Noted m l) := by
  constructor
  · rintro (⟨x, hx, hid, ho⟩ | ⟨l₁, l₂, he, hn, x, hx, hid⟩)
    · rcases List.mem_append.mp hx with hx | hx
      · exact Or.inl (Or.inl ⟨x, hx, hid, ho⟩)
      · obtain rfl := List.mem_singleton.mp hx
        exact Or.inr ⟨hid, Or.inl ho⟩
    · -- the last packet belongs to the second part, which is not empty
      rcases List.eq_nil_or_concat l₂ with rfl | ⟨l₃, y, rfl⟩
      · exact absurd hx List.not_mem_nil
      rw [List.concat_eq_append, ← List.append_assoc] at he
      obtain ⟨rfl, hy⟩ := List.append_inj' he rfl
      obtain rfl : pkt = y := List.singleton_inj.mp hy
      rw [List.concat_eq_append] at hx
      rcases List.mem_append.mp hx with hx | hx
      · exact Or.inl (Or.inr ⟨l₁, l₃, rfl, hn, x, hx, hid⟩)
      · obtain rfl := List.mem_singleton.mp hx
        obtain ⟨q, hq, h⟩ := hn
        exact Or.inr ⟨hid, Or.inr ⟨q, List.mem_append_left _ hq, h⟩⟩
  · rintro ((⟨x, hx, h⟩ | ⟨l₁, l₂, rfl, hn, x, hx, hid⟩) | ⟨hid, ho | hn⟩)
    · exact Or.inl ⟨x, List.mem_append_left _ hx, h⟩
    · exact Or.inr ⟨l₁, l₂ ++ [pkt], by rw [List.append_assoc], hn, x, List.mem_append_left _ hx, hid⟩
    · exact Or.inl ⟨pkt, List.mem_append_right _ (List.mem_singleton.mpr rfl), hid, ho⟩
    · exact Or.inr ⟨l, [pkt], rfl, hn, pkt, List.mem_singleton.mpr rfl, hid⟩

/-- The clock readings of the acceptance test. -/
def readings (acts : List Action) : List TimePoint :=
  acts.filterMap fun
    | .receive _ env => some env.now₁
    | _ => none

theorem readings_cons (a : Action) (acts : List Action) : readings (a :: acts) = readings [a] ++ readings acts :=
  List.filterMap_append (l := [a])

/-- **The invariant of the receiver**, after the packets `past` arrived and those with the ids
`accepted` were accepted, within 10 seconds from `t₀` on. -/
structure Protocol.Lossy (t₀ : TimePoint) (past : List Packet) (accepted : List UInt8) (p : Protocol) :
    Prop where
  idle : ∀ x, p.fragmentedMessages x = none
  next : p.nextRxMsgId.toNat = 0 ∨ ∃ q ∈ past, q.Original ∧ p.nextRxMsgId.toNat = q.id.toNat + 1
  originals : ∀ q ∈ past, q.Original → q.id.toNat < p.nextRxMsgId.toNat
  before : ∀ x ∈ accepted, x.toNat < p.nextRxMsgId.toNat
  lost : ∀ x, (p.lostMsgList x).isSome ↔ Noted x past ∧ x ∉ accepted
  recent : ∀ x tp, p.lostMsgList x = some tp → t₀ ≤ tp
  recovered : ∀ x, x ∈ accepted ↔ Recovered x past
  handed : ∀ x ∈ handedIds p.log, x ∈ accepted

namespace Protocol

variable {qt : Qt} {t₀ now : TimePoint} {past : List Packet} {accepted : List UInt8} {p q : Protocol}
  {pkt : Packet} {env : Env}

theorem Lossy.noted_lt (h : Lossy t₀ past accepted p) {x : UInt8} (hx : Noted x past) :
    x.toNat < p.nextRxMsgId.toNat := by
  obtain ⟨q, hq, ho, hlt, _⟩ := hx
  exact hlt.trans (h.originals q hq ho)

theorem Lossy.sameRx (h : Lossy t₀ past accepted p) (hq : p.SameRx q) : Lossy t₀ past accepted q := by
  have hids : handedIds q.log = handedIds p.log := handedIds_eq hq.handed
  exact ⟨hq.frag ▸ h.idle, hq.next ▸ h.next, hq.next ▸ h.originals, hq.next ▸ h.before, hq.lost ▸ h.lost,
    hq.lost ▸ h.recent, h.recovered, hids ▸ h.handed⟩

theorem Lossy.next_le (h : Lossy t₀ past accepted p) (hin : ∀ q ∈ past, q.Precedes pkt) (ho : pkt.Original) :
    p.nextRxMsgId.toNat ≤ pkt.id.toNat := by
  rcases h.next with h0 | ⟨q, hq, _, hn⟩
  · omega
  · have := hin q hq ho
    omega

theorem Lossy.window_old {r : Protocol} (h : Lossy t₀ past accepted p)
    (hrep : ¬ pkt.Original) (hnext : r.nextRxMsgId = p.nextRxMsgId)
    (hlost : r.lostMsgList = Function.update p.lostMsgList pkt.id none)
    (hidle : ∀ x, r.fragmentedMessages x = none) (hlog : handovers r.log = handovers p.log) :
    Lossy t₀ (past ++ [pkt]) (accepted ++ if (p.lostMsgList pkt.id).isSome then [pkt.id] else []) r := by
  have hnoted : ∀ x, Noted x (past ++ [pkt]) ↔ Noted x past := fun x => by
    rw [noted_append_singleton]
    exact ⟨fun h => h.elim id fun h => absurd h.1 hrep, Or.inl⟩
  have hmem : ∀ x, x ∈ accepted ++ (if (p.lostMsgList pkt.id).isSome then [pkt.id] else []) ↔
      x ∈ accepted ∨ x = pkt.id ∧ (p.lostMsgList pkt.id).isSome := fun x => by
    split_ifs with hl <;> simp [hl]
  refine ⟨hidle, ?_, fun q hq ho => ?_, fun x hx => ?_, fun x => ?_, fun x tp hx => ?_, fun x => ?_,
    fun x hx => ?_⟩
  · rw [hnext]
    exact h.next.imp_right fun ⟨q, hq, hqo⟩ => ⟨q, List.mem_append_left _ hq, hqo⟩
  · rw [hnext]
    rcases List.mem_append.mp hq with hq | hq
    · exact h.originals q hq ho
    · rw [List.mem_singleton.mp hq] at ho
      exact absurd ho hrep
  · rw [hnext]
    rcases (hmem x).mp hx with hx | ⟨rfl, hl⟩
    · exact h.before x hx
    · exact h.noted_lt ((h.lost _).mp hl).1
  · rw [hlost, hnoted, hmem, Function.update_apply]
    by_cases hx : x = pkt.id
    · subst hx
      simp only [if_true, Option.isSome_none, Bool.false_eq_true, true_and, false_iff, not_and, not_not]
      intro hn
      by_cases hacc : pkt.id ∈ accepted
      · exact Or.inl hacc
      · exact Or.inr ((h.lost _).mpr ⟨hn, hacc⟩)
    · simp only [hx, if_false, false_and, or_false]
      exact h.lost x
  · rw [hlost, Function.update_apply] at hx
    split_ifs at hx
    exact h.recent x tp hx
  · rw [hmem, recovered_append_singleton, h.recovered]
    constructor
    · rintro (hx | ⟨rfl, hl⟩)
      · exact Or.inl hx
      · exact Or.inr ⟨rfl, Or.inr ((h.lost _).mp hl).1⟩
    · rintro (hx | ⟨rfl, ho | hn⟩)
      · exact Or.inl hx
      · exact absurd ho hrep
      · by_cases hacc : pkt.id ∈ accepted
        · exact Or.inl ((h.recovered _).mp hacc)
        · exact Or.inr ⟨rfl, (h.lost _).mpr ⟨hn, hacc⟩⟩
  · rw [handedIds_eq hlog] at hx
    exact (hmem x).mpr (Or.inl (h.handed x hx))

theorem Lossy.not_isStale (h : Lossy t₀ past accepted p) (hle : p.nextRxMsgId.toNat ≤ pkt.id.toNat)
    (hnow : now < t₀ + seconds 10) {y : UInt8} {tp : TimePoint} (htp : p.lostMsgList y = some tp) :
    ¬ isStale now pkt.id y tp = true := by
  intro hst
  have hy := h.noted_lt ((h.lost y).mp (by rw [htp]; rfl)).1
  have htp' := h.recent y tp htp
  simp only [isStale, Bool.or_eq_true, Bool.and_eq_true, decide_eq_true_eq] at hst
  rcases hst with hst | hst
  · exact lt_asymm hnow (Int.add_lt_of_lt_sub_right (lt_of_le_of_lt htp' hst))
  · omega

theorem Lossy.lost_new {r : Protocol} (h : Lossy t₀ past accepted p) (ho : pkt.Original)
    (hle : p.nextRxMsgId.toNat ≤ pkt.id.toNat)
    (hlost : ∀ y, r.lostMsgList y = if (p.lostMsgList y).isSome ∨
      ¬ (p.fillFrom pkt.id ≤ y.toNat ∧ y.toNat < pkt.id.toNat) then p.lostMsgList y else some now) (x : UInt8) :
    (r.lostMsgList x).isSome ↔ Noted x (past ++ [pkt]) ∧ x ∉ accepted ++ [pkt.id] := by
  have hfill : ∀ y : UInt8, p.fillFrom pkt.id ≤ y.toNat ∧ y.toNat < pkt.id.toNat ↔
      p.nextRxMsgId.toNat ≤ y.toNat ∧ y.toNat < pkt.id.toNat ∧ pkt.id.toNat ≤ y.toNat + 100 := by
    intro y
    rw [and_congr_left fun hy => p.fillFrom_le_iff hy, and_assoc, and_comm (a := pkt.id.toNat ≤ y.toNat + 100)]
  rw [hlost, noted_append_singleton, List.mem_append, List.mem_singleton, not_or]
  by_cases hs : (p.lostMsgList x).isSome
  · obtain ⟨hn, hacc⟩ := (h.lost x).mp hs
    have hlt := h.noted_lt hn
    have hne : x ≠ pkt.id := fun he => by rw [he] at hlt; omega
    rw [if_pos (Or.inl hs)]
    exact ⟨fun _ => ⟨Or.inl hn, hacc, hne⟩, fun _ => hs⟩
  by_cases hr : p.fillFrom pkt.id ≤ x.toNat ∧ x.toNat < pkt.id.toNat
  · obtain ⟨hge, hin⟩ := (hfill x).mp hr
    have hne : x ≠ pkt.id := fun he => by rw [he] at hin; omega
    have hacc : x ∉ accepted := fun hmem => by
      have := h.before x hmem
      omega
    rw [if_neg (not_or.mpr ⟨hs, not_not.mpr hr⟩)]
    exact ⟨fun _ => ⟨Or.inr ⟨ho, hin⟩, hacc, hne⟩, fun _ => rfl⟩
  · rw [if_pos (Or.inr hr)]
    rw [hfill] at hr
    refine ⟨fun hs' => absurd hs' hs, fun ⟨hn, hacc, _⟩ => (h.lost x).mpr ⟨?_, hacc⟩⟩
    refine hn.elim id fun ⟨_, hlt, hle'⟩ => ?_
    -- the id lies before the end of the window, which some original has moved there
    rcases h.next with h0 | ⟨q, hq, hqo, hqn⟩
    · omega
    · have hne : x.toNat ≠ q.id.toNat := fun he =>
        hacc ((h.recovered x).mpr (Or.inl ⟨q, hq, (UInt8.toNat_inj.mp he).symm, hqo⟩))
      exact ⟨q, hq, hqo, by omega, by omega⟩

theorem Lossy.window_new {r : Protocol} {kept : UInt8 → Option TimePoint} (h : Lossy t₀ past accepted p)
    (ho : pkt.Original) (hle : p.nextRxMsgId.toNat ≤ pkt.id.toNat) (hnow : t₀ ≤ now ∧ now < t₀ + seconds 10)
    (hnext : r.nextRxMsgId.toNat = pkt.id.toNat + 1)
    (hkept : ∀ y, kept y = p.lostMsgList y ∨
      kept y = none ∧ ∃ tp, p.lostMsgList y = some tp ∧ isStale now pkt.id y tp = true)
    (hlost : ∀ y, r.lostMsgList y = if (kept y).isSome ∨
      ¬ (p.fillFrom pkt.id ≤ y.toNat ∧ y.toNat < pkt.id.toNat) then kept y else some now)
    (hidle : ∀ x, r.fragmentedMessages x = none) (hlog : handovers r.log = handovers p.log) :
    Lossy t₀ (past ++ [pkt]) (accepted ++ [pkt.id]) r := by
  have hkeep : ∀ y, kept y = p.lostMsgList y := by
    intro y
    rcases hkept y with he | ⟨_, tp, htp, hst⟩
    · exact he
    · exact absurd hst (h.not_isStale hle hnow.2 htp)
  simp only [hkeep] at hlost
  refine ⟨hidle, Or.inr ⟨pkt, List.mem_append_right _ (List.mem_singleton.mpr rfl), ho, hnext⟩,
    fun q hq hqo => ?_, fun x hx => ?_, h.lost_new ho hle hlost, fun x tp hx => ?_, fun x => ?_, fun x hx => ?_⟩
  · rcases List.mem_append.mp hq with hq | hq
    · have := h.originals q hq hqo
      omega
    · rw [List.mem_singleton.mp hq, hnext]
      omega
  · rcases List.mem_append.mp hx with hx | hx
    · have := h.before x hx
      omega
    · rw [List.mem_singleton.mp hx, hnext]
      omega
  · rw [hlost] at hx
    split_ifs at hx
    · exact h.recent x tp hx
    · obtain rfl := Option.some.inj hx
      exact hnow.1
  · rw [recovered_append_singleton, List.mem_append, List.mem_singleton, h.recovered]
    exact or_congr_right ⟨fun he => ⟨he.symm, Or.inl ho⟩, fun he => he.1.symm⟩
  · rw [handedIds_eq hlog] at hx
    exact List.mem_append_left _ (h.handed x hx)

/-- **The acceptance test keeps the invariant.** -/
theorem Lossy.afterTest (h : Lossy t₀ past accepted p) (hid : pkt.id ≠ 255) (hin : ∀ q ∈ past, q.Precedes pkt)
    (hnow : t₀ ≤ env.now₁ ∧ env.now₁ < t₀ + seconds 10) :
    Lossy t₀ (past ++ [pkt]) (accepted ++ if p.accepts pkt env then [pkt.id] else [])
      (p.afterTest pkt env) := by
  have hidle := idle_afterTest h.idle pkt env
  have hlog := p.handovers_afterTest pkt env
  have hw := p.windowStep_afterTest env hid fun ho => by
    have := h.next_le hin ho
    omega
  generalize p.accepts pkt env = ok, p.afterTest pkt env = r at hidle hlog hw ⊢
  cases hw with
  | old q hold hnext hlost =>
      have hrep : ¬ pkt.Original := fun ho => by
        have hle := h.next_le hin ho
        rcases hold with hr | hlt
        · rw [ho] at hr
          cases hr
        · omega
      have hrecent : (p.lostMsgList pkt.id).any (fun tp => decide (env.now₁ - tp < seconds 10)) =
          (p.lostMsgList pkt.id).isSome := by
        cases hl : p.lostMsgList pkt.id with
        | none => rfl
        | some tp =>
            have hlt : env.now₁ < tp + seconds 10 := hnow.2.trans_le (Int.add_le_add_right (h.recent _ tp hl) _)
            rw [Option.any_some, Option.isSome_some, decide_eq_true (Int.sub_left_lt_of_lt_add hlt)]
      have hflag : hasFlag pkt.flags Flag.repeated = true := Bool.not_eq_false _ ▸ hrep
      rw [hflag, Bool.not_true, Bool.or_false, hrecent]
      exact h.window_old hrep hnext hlost hidle hlog
  | new q kept horig hle hnext hkept hlost =>
      exact h.window_new horig hle hnow hnext hkept hlost hidle hlog

theorem Lossy.treated (h : Lossy t₀ past accepted p) (hacc : pkt.id ∈ accepted)
    (hplain : hasFlag pkt.flags Flag.fragment = false) (ht : Treated qt env pkt p q) :
    Lossy t₀ past accepted q := by
  cases ht with
  | nothing hs => exact h.sameRx hs
  | erased id he =>
      subst he
      exact ⟨idle_eraseFragment h.idle id, h.next, h.originals, h.before, h.lost, h.recent, h.recovered,
        h.handed⟩
  | handed data hc hh =>
      refine ⟨hh.frag ▸ h.idle, hh.next ▸ h.next, hh.next ▸ h.originals, hh.next ▸ h.before, hh.lost ▸ h.lost,
        hh.lost ▸ h.recent, h.recovered, fun x hx => ?_⟩
      rw [handedIds_append hh.handed, List.mem_append] at hx
      rcases hx with hx | hx
      · exact h.handed x hx
      · rw [List.mem_singleton.mp hx]
        exact hacc
  | fragment a full pos mx data hc _ =>
      rw [fragment_of_content hc] at hplain
      cases hplain

/-- There is a handler for the packet that arrives, if it is one of message `m` and is accepted. -/
def handlesArrival (qt : Qt) (m : UInt8) (p : Protocol) : Action → Bool
  | .receive pkt env => decide (pkt.id ≠ m) || !p.accepts pkt env || p.handles qt pkt
  | _ => true

/-- The ids `accepted` are those accepted so far, and message `m` was handed over if it is one. -/
def Follows (t₀ : TimePoint) (m : UInt8) (past : List Packet) (p : Protocol) : Prop :=
  ∃ accepted, Lossy t₀ past accepted p ∧ (m ∈ accepted → m ∈ handedIds p.log)

theorem Follows.sameRx {m : UInt8} (h : Follows t₀ m past p) (hs : p.SameRx q) : Follows t₀ m past q := by
  obtain ⟨accepted, hl, hhand⟩ := h
  refine ⟨accepted, hl.sameRx hs, fun hacc => ?_⟩
  rw [handedIds_eq hs.handed]
  exact hhand hacc

theorem handles_afterTest (qt : Qt) (p : Protocol) (pkt : Packet) (env : Env) :
    (p.afterTest pkt env).handles qt pkt = p.handles qt pkt := by
  unfold handles popWaitingAnswer popWaitingMessage
  rw [waitingMessages_afterTest]

theorem mem_handedIds_processAccepted (qt : Qt) (p : Protocol) (env : Env) (pkt : Packet) {x : UInt8}
    (h : x ∈ handedIds p.log ∨ x = pkt.id ∧ p.handles qt pkt = true) :
    x ∈ handedIds (p.processAccepted qt env pkt).1.log := by
  rcases h with hx | ⟨rfl, hh⟩
  · obtain ⟨l, hl⟩ := (treated_processAccepted qt p env pkt).handovers_eq
    rw [handedIds, hl, List.map_append]
    exact List.mem_append_left _ hx
  · obtain ⟨data, _, hd⟩ := hands_of_handles env hh
    rw [handedIds_append hd.handed]
    exact List.mem_append_right _ (List.mem_singleton.mpr rfl)

/-- **Every action keeps the invariant**, if what arrives is in order and there is a handler for it. -/
theorem Follows.step {m : UInt8} (h : Follows t₀ m past p) {a : Action}
    (hplain : ∀ pkt ∈ arrivals [a], hasFlag pkt.flags Flag.fragment = false ∧ pkt.id ≠ 255)
    (hin : ∀ pkt ∈ arrivals [a], ∀ q ∈ past, q.Precedes pkt)
    (htime : ∀ now ∈ readings [a], t₀ ≤ now ∧ now < t₀ + seconds 10)
    (hm : p.handlesArrival qt m a = true) : Follows t₀ m (past ++ arrivals [a]) (p.step qt a).1 := by
  have hidle := h.elim fun _ hl => hl.1.idle
  cases a with
  | receive pkt env =>
      obtain ⟨accepted, hl, hhand⟩ := h
      obtain ⟨hfrag, hid⟩ := hplain pkt (List.mem_singleton.mpr rfl)
      have hl' := hl.afterTest hid (hin pkt (List.mem_singleton.mpr rfl))
        (htime env.now₁ (List.mem_singleton.mpr rfl))
      change Follows t₀ m (past ++ [pkt]) _
      rw [step_receive]
      split_ifs with hok
      · rw [if_pos hok] at hl'
        refine ⟨_, hl'.treated (List.mem_append_right _ (List.mem_singleton.mpr rfl)) hfrag
          (treated_processAccepted qt _ env pkt), fun hacc => mem_handedIds_processAccepted qt _ env pkt ?_⟩
        rw [handedIds_afterTest, handles_afterTest]
        rcases List.mem_append.mp hacc with hacc | hacc
        · exact Or.inl (hhand hacc)
        · obtain rfl := List.mem_singleton.mp hacc
          exact Or.inr ⟨rfl, by simpa [handlesArrival, hok] using hm⟩
      · rw [if_neg hok, List.append_nil] at hl'
        exact ⟨_, hl', fun hacc => (handedIds_afterTest p pkt env).symm ▸ hhand hacc⟩
  | _ =>
      change Follows t₀ m (past ++ []) _
      rw [List.append_nil]
      exact h.sameRx (sameRx_step qt p hidle fun _ _ => nofun)

/-- There is a handler for every packet of message `m` that is accepted, when it arrives. -/
def HandlesAll (qt : Qt) (m : UInt8) (p : Protocol) (acts : List Action) : Prop :=
  Along (fun p a => some (p.step qt a).1) (fun p a => p.handlesArrival qt m a = true) p acts

instance (qt : Qt) (m : UInt8) (p : Protocol) (acts : List Action) : Decidable (p.HandlesAll qt m acts) :=
  Along.decidable p acts

/-- **The invariant holds in every run whose packets arrive in order.** -/
theorem Follows.run {m : UInt8} (h : Follows t₀ m past p) {acts : List Action}
    (hplain : ∀ pkt ∈ arrivals acts, hasFlag pkt.flags Flag.fragment = false ∧ pkt.id ≠ 255)
    (hin : (past ++ arrivals acts).Pairwise Packet.Precedes)
    (htime : ∀ now ∈ readings acts, t₀ ≤ now ∧ now < t₀ + seconds 10) (hm : p.HandlesAll qt m acts) :
    Follows t₀ m (past ++ arrivals acts) (p.run qt acts) := by
  induction acts generalizing past p with
  | nil =>
      change Follows t₀ m (past ++ []) p
      rwa [List.append_nil]
  | cons a acts ih =>
      rw [arrivals_cons] at hplain hin ⊢
      rw [readings_cons] at htime
      rw [← List.append_assoc] at hin ⊢
      have hstep := h.step (fun pkt hp => hplain pkt (List.mem_append_left _ hp))
        (fun pkt hp q hq => (List.pairwise_append.mp (List.pairwise_append.mp hin).1).2.2 q hq pkt hp)
        (fun now hn => htime now (List.mem_append_left _ hn)) hm.1
      exact ih hstep (fun pkt hp => hplain pkt (List.mem_append_right _ hp)) hin
        (fun now hn => htime now (List.mem_append_right _ hn)) (hm.2 _ rfl)

theorem follows_fresh (t₀ : TimePoint) (m : UInt8) : Follows t₀ m [] Protocol.fresh := by
  refine ⟨[], ⟨fun _ => rfl, Or.inl rfl, fun _ hq => (nomatch hq), fun _ hx => (nomatch hx), fun x => ?_,
    fun _ _ hx => (nomatch hx), fun x => ?_, fun _ hx => (nomatch hx)⟩, fun hx => (nomatch hx)⟩
  · exact ⟨fun hs => (nomatch hs), fun ⟨⟨q, hq, _⟩, _⟩ => (nomatch hq)⟩
  · refine ⟨fun hx => (nomatch hx), ?_⟩
    rintro (⟨q, hq, _⟩ | ⟨l₁, l₂, he, _, q, hq, _⟩)
    · cases hq
    · rw [(List.append_eq_nil_iff.mp he.symm).2] at hq
      cases hq

end Protocol

/-- **Lost messages and their repetitions.** One end gives out fewer than 256 ids, no fragment and no
query for one arrives anywhere, and the packets that arrive at the other end do so in the order they
were sent and within 10 seconds. Then message `m`, for which there is a handler when it is accepted, is handed
over exactly if its original arrives, or a repetition arrives after the original of one of the next
100 messages. -/
theorem recovers_iff (qt : Qt) (s : Side) (moves : List Move) (m : UInt8) (t₀ : TimePoint)
    (hids : (assignedIds ((System.fresh.run qt moves).node s.other).log).length < 256)
    (hplain : ∀ t, ∀ pkt ∈ System.arrivedAt qt t moves,
      hasFlag pkt.flags (Flag.fragment ||| Flag.fragmentQuery) = false)
    (horder : (System.arrivedAt qt s moves).Sublist (System.sentBy qt s.other moves))
    (htime : ∀ now ∈ readings (System.fresh.actions qt s moves), t₀ ≤ now ∧ now < t₀ + seconds 10)
    (hm : Protocol.fresh.HandlesAll qt m (System.fresh.actions qt s moves)) :
    m ∈ handedIds ((System.fresh.run qt moves).node s).log ↔ Recovered m (System.arrivedAt qt s moves) := by
  have hflags := fun t pkt hp => hasFlag_or_right_eq_false.mp (hplain t pkt hp)
  have hsent : (System.sentBy qt s.other moves).Pairwise Packet.Precedes := by
    refine sent_ordered qt _ (fun pkt hp => (hflags s.other pkt hp).2) ?_
    rw [← System.node_run_fresh]
    exact hids.le
  obtain ⟨accepted, hl, hhand⟩ := (Protocol.follows_fresh t₀ m).run
    (fun pkt hp => ⟨(hflags s pkt hp).1, System.id_ne_of_arrived qt hids hp⟩) (hsent.sublist horder) htime hm
  rw [System.node_run_fresh]
  exact ⟨fun hx => (hl.recovered m).mp (hl.handed m hx), fun hx => hhand ((hl.recovered m).mpr hx)⟩

/-- The first of two messages is recovered by a repetition that arrives after the second. -/
theorem recovers_repeatedRun :
    let y := System.fresh.run Qt.storing repeatedRun
    0 ∈ handedIds (y.node .right).log ∧
      (0 ∈ handedIds (y.node .right).log ↔ Recovered 0 (System.arrivedAt Qt.storing .right repeatedRun)) :=
  ⟨by decide +kernel, recovers_iff Qt.storing .right repeatedRun 0 0 (by decide +kernel)
    (fun t => by cases t <;> decide +kernel) (by decide +kernel) (by decide +kernel) (by decide +kernel)⟩

/-- A message is sent and lost; its repetition after 3 seconds arrives. -/
def unseenRun : List Move :=
  [.own .left (.send 20 none [.write [7], .answer true 1]), .own .left (.write 0 2 2),
    .own .left (.timer .null (seconds 4) (seconds 4)), .own .left (.write 0 (seconds 4) (seconds 4)),
    .deliver .right 1 false ⟨seconds 5, seconds 5, false, false⟩]

/-- The repetition of a message no packet of which was seen before is dropped. -/
theorem repetition_of_unseen_dropped :
    ¬ ∀ (qt : Qt) (s : Side) (moves : List Move) (m : UInt8) (t₀ : TimePoint),
      (System.sentBy qt s.other moves).length < 100 →
      (∀ t, ∀ pkt ∈ System.arrivedAt qt t moves,
        hasFlag pkt.flags (Flag.fragment ||| Flag.fragmentQuery) = false) →
      (System.arrivedAt qt s moves).Sublist (System.sentBy qt s.other moves) →
      (∀ now ∈ readings (System.fresh.actions qt s moves), t₀ ≤ now ∧ now < t₀ + seconds 10) →
      Protocol.fresh.HandlesAll qt m (System.fresh.actions qt s moves) →
      (∃ pkt ∈ System.arrivedAt qt s moves, pkt.id = m) →
      m ∈ handedIds ((System.fresh.run qt moves).node s).log := by
  intro h
  have hhanded := h Qt.storing .right unseenRun 0 0 (by decide +kernel)
    (fun t => by cases t <;> decide +kernel) (by decide +kernel) (by decide +kernel) (by decide +kernel)
    (by decide +kernel)
  exact absurd hhanded (by decide +kernel)

end HelpzNet
