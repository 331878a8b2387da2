import Helpz.Net.Cyclic
import Helpz.Lib.Run

/-!
# The ids thought lost and the end of the window

`lost_msg_list_` is meant to hold ids among the 100 before the last packet that moved the window.
`fill_lost_msg` takes care of it, but only the packets behind a gap call it, it drops ids by their
distance only below id 100, and a gap across the wrap is filled without a limit.

* `Advances`: the packet moves `next_rx_msg_id_`;
* `InWindow`: what is expected right afterwards;
* `Keeps`: the condition on the state before the packet; `inWindow_iff`: it is the right one;
* `lostWindow_iff`: over whole runs, together with what follows for later packets with the same id.
-/

namespace HelpzNet

open HelpzLib

namespace Protocol

/-- The packet moves the end of the window. -/
def Advances (p : Protocol) (pkt : Packet) : Prop :=
  ¬ p.MaybeLost pkt.id pkt.flags ∧ (p.Gap pkt.id ∨ p.nextRxMsgId.toNat ≤ pkt.id.toNat)

/-- The packet `msgId` was the last to move the window: it is not thought lost, and the ids that are
lie among the 100 before it. -/
structure InWindow (p : Protocol) (msgId : UInt8) : Prop where
  next : p.nextRxMsgId = msgId + 1
  received : p.lostMsgList msgId = none
  recent : ∀ x, p.lostMsgList x ≠ none → 1 ≤ (msgId - x).toNat ∧ (msgId - x).toNat ≤ 100

/-- A packet with a smaller number than the expected one lies at most 100 ahead of it, and an id of the
list that the packet leaves outside the 100 before it, or that is its own, is dropped by
`fill_lost_msg`, which is called for packets behind a gap. -/
structure Keeps (p : Protocol) (pkt : Packet) (now : TimePoint) : Prop where
  near : pkt.id.toNat < p.nextRxMsgId.toNat → (pkt.id - p.nextRxMsgId).toNat ≤ 100
  dropped : ∀ x tp, p.lostMsgList x = some tp → x = pkt.id ∨ 100 < (pkt.id - x).toNat →
    p.Gap pkt.id ∧ isStale now pkt.id x tp = true

/-- The action is the arrival of a packet that moves the window over `x`. -/
def SkipsOver (p : Protocol) (x : UInt8) : Action → Prop
  | .receive pkt _ => p.Advances pkt ∧ 1 ≤ (pkt.id - x).toNat ∧ (pkt.id - x).toNat ≤ p.skipped pkt.id
  | _ => False

variable {qt : Qt} {p q : Protocol} {pkt : Packet} {env : Env}

theorem one_le_sub {a b : UInt8} : 1 ≤ (a - b).toNat ↔ b ≠ a := by
  have ha := a.toNat_lt
  have hb := b.toNat_lt
  rw [toNat_sub, ne_eq, ← UInt8.toNat_inj]
  omega

theorem Advances.id_eq (h : p.Advances pkt) (hg : ¬ p.Gap pkt.id) : pkt.id = p.nextRxMsgId := by
  have hle := h.2.resolve_left hg
  unfold Gap at hg
  apply UInt8.toNat_inj.mp
  omega

theorem Advances.nextRxMsgId (h : p.Advances pkt) (env : Env) :
    (p.afterTest pkt env).nextRxMsgId = pkt.id + 1 := by
  by_cases hg : p.Gap pkt.id
  · exact (gap_afterTest env h.1 hg).2.1
  · rw [(next_afterTest env h.1 hg).2.2.1, if_pos (h.2.resolve_left hg)]

theorem Advances.mem_lost (h : p.Advances pkt) (env : Env) (x : UInt8) :
    (p.afterTest pkt env).lostMsgList x ≠ none ↔
      (∃ tp, p.lostMsgList x = some tp ∧ ¬ (p.Gap pkt.id ∧ isStale env.now₁ pkt.id x tp = true)) ∨
        1 ≤ (pkt.id - x).toNat ∧ (pkt.id - x).toNat ≤ p.skipped pkt.id := by
  by_cases hg : p.Gap pkt.id
  · have hkept : (∃ tp, p.lostMsgList x = some tp ∧ ¬ (p.Gap pkt.id ∧ isStale env.now₁ pkt.id x tp = true)) ↔
        (p.kept env.now₁ pkt.id x).isSome = true := by
      simp only [hg, true_and, Bool.not_eq_true, ← kept_eq_some, ← Option.isSome_iff_exists]
    rw [hkept, (gap_afterTest env h.1 hg).2.2.1 x]
    by_cases hs : (p.kept env.now₁ pkt.id x).isSome = true
    · rw [if_pos (Or.inl hs)]
      simp only [hs, true_or, iff_true]
      exact Option.isSome_iff_ne_none.mp hs
    by_cases hr : 1 ≤ (pkt.id - x).toNat ∧ (pkt.id - x).toNat ≤ p.skipped pkt.id
    · rw [if_neg (not_or.mpr ⟨hs, not_not.mpr hr⟩)]
      exact iff_of_true (Option.some_ne_none _) (Or.inr hr)
    · rw [if_pos (Or.inr hr), Option.not_isSome_iff_eq_none.mp hs]
      exact iff_of_false (not_not.mpr rfl) (not_or.mpr ⟨Bool.false_ne_true, hr⟩)
  · -- the expected packet: the list is left as it is, and no id is skipped
    have hid := h.id_eq hg
    have hr : ¬ (1 ≤ (pkt.id - x).toNat ∧ (pkt.id - x).toNat ≤ p.skipped pkt.id) := by
      have hskip : p.skipped pkt.id = 0 := by
        rw [skipped, if_neg (by rw [hid]; omega), hid, toNat_sub]
        have := p.nextRxMsgId.toNat_lt
        omega
      omega
    rw [(next_afterTest env h.1 hg).2.1]
    simp only [hg, hr, false_and, not_false_eq_true, and_true, or_false]
    exact Option.ne_none_iff_exists'

/-- **What a packet skips is within the 100 ids before it exactly when it is near.** -/
theorem skipped_le_iff (p : Protocol) (msgId : UInt8) :
    p.skipped msgId ≤ 100 ↔ (msgId.toNat < p.nextRxMsgId.toNat → (msgId - p.nextRxMsgId).toNat ≤ 100) := by
  have hm := msgId.toNat_lt
  have hn := p.nextRxMsgId.toNat_lt
  simp only [skipped, toNat_sub]
  split_ifs <;> omega

/-- **The list fits the window after a packet exactly when the condition holds before it.** -/
theorem inWindow_iff (h : p.Advances pkt) (env : Env) :
    (p.afterTest pkt env).InWindow pkt.id ↔ p.Keeps pkt env.now₁ := by
  constructor
  · intro hw
    refine ⟨(p.skipped_le_iff pkt.id).mp ?_, fun x tp hx hout => ?_⟩
    · -- the id furthest back that was skipped is listed
      by_contra hfar
      have hm := pkt.id.toNat_lt
      have hback : (pkt.id - (pkt.id - 101)).toNat = 101 := by
        rw [toNat_sub, toNat_sub, show (101 : UInt8).toNat = 101 from rfl]
        omega
      have hlisted := (h.mem_lost env (pkt.id - 101)).mpr (Or.inr (by omega))
      have := hw.recent _ hlisted
      omega
    · by_contra hkept
      have hlisted := (h.mem_lost env x).mpr (Or.inl ⟨tp, hx, hkept⟩)
      have hr := hw.recent x hlisted
      rcases hout with rfl | hfar
      · exact one_le_sub.mp hr.1 rfl
      · omega
  · intro hk
    have hskip := (p.skipped_le_iff pkt.id).mpr hk.near
    have hrecent : ∀ x, (p.afterTest pkt env).lostMsgList x ≠ none →
        1 ≤ (pkt.id - x).toNat ∧ (pkt.id - x).toNat ≤ 100 := by
      intro x hx
      rcases (h.mem_lost env x).mp hx with ⟨tp, htp, hkept⟩ | hr
      · have hin := mt (hk.dropped x tp htp) hkept
        rw [not_or, not_lt] at hin
        exact ⟨one_le_sub.mpr hin.1, hin.2⟩
      · exact ⟨hr.1, hr.2.trans hskip⟩
    refine ⟨h.nextRxMsgId env, ?_, hrecent⟩
    by_contra hm
    exact one_le_sub.mp (hrecent pkt.id hm).1 rfl

/-! ## Runs -/

theorem unlisted_step (hidle : ∀ x, p.fragmentedMessages x = none) {a : Action}
    (hun : ∀ pkt ∈ arrivals [a], pkt.Unfragmented qt) {x : UInt8} (hx : p.lostMsgList x = none)
    (hs : ¬ p.SkipsOver x a) : (p.step qt a).1.lostMsgList x = none := by
  cases a with
  | receive pkt env =>
      rw [(sameWindow_receive hidle (hun pkt List.mem_cons_self)).lost]
      by_cases hadv : p.Advances pkt
      · by_contra hl
        rcases (hadv.mem_lost env x).mp hl with ⟨tp, htp, _⟩ | hr
        · rw [hx] at htp
          cases htp
        · exact hs ⟨hadv, hr⟩
      · by_cases hm : p.MaybeLost pkt.id pkt.flags
        · rw [(maybeLost_afterTest env hm).2, Function.update_apply]
          split_ifs
          · rfl
          · exact hx
        · have hg : ¬ p.Gap pkt.id := fun hg => hadv ⟨hm, Or.inl hg⟩
          rw [(next_afterTest env hm hg).2.1]
          exact hx
  | _ =>
      rw [(sameWindow_step hidle (by simp)).lost]
      exact hx

/-- The run moves the window over `x` at no step. -/
def NotSkipped (qt : Qt) (x : UInt8) : Protocol → List Action → Prop :=
  Along (fun p a => some (p.step qt a).1) (fun p a => ¬ p.SkipsOver x a)

theorem unlisted_run (hidle : ∀ x, p.fragmentedMessages x = none) {acts : List Action}
    (hun : ∀ pkt ∈ arrivals acts, pkt.Unfragmented qt) {x : UInt8} (hx : p.lostMsgList x = none)
    (hs : NotSkipped qt x p acts) : (p.run qt acts).lostMsgList x = none := by
  induction acts generalizing p with
  | nil => exact hx
  | cons a acts ih =>
      rw [arrivals_cons] at hun
      have hun₁ : ∀ pkt ∈ arrivals [a], pkt.Unfragmented qt := fun pkt hp =>
        hun pkt (List.mem_append_left _ hp)
      have hun₂ : ∀ pkt ∈ arrivals acts, pkt.Unfragmented qt := fun pkt hp =>
        hun pkt (List.mem_append_right _ hp)
      exact ih (idle_step hidle hun₁) hun₂ (unlisted_step hidle hun₁ hx hs.1) (hs.2 _ rfl)

/-- After every packet that moves the window the list fits it, and the packet's id is not taken for a
lost one later, unless the window has been moved over it again. -/
def KeepsWindow (qt : Qt) (acts : List Action) : Prop :=
  ∀ pre pkt env later, pre ++ .receive pkt env :: later <+: acts → (fresh.run qt pre).Advances pkt →
    (fresh.run qt (pre ++ [.receive pkt env])).InWindow pkt.id ∧
      (NotSkipped qt pkt.id (fresh.run qt (pre ++ [.receive pkt env])) later → ∀ now,
        ((fresh.run qt (pre ++ .receive pkt env :: later)).isLostMessage now pkt.id).1 = false)

/-- **The list fits the window throughout a run exactly when every packet that moves the window finds the
list in a state that `fill_lost_msg` can handle.** -/
theorem lostWindow_iff (qt : Qt) (acts : List Action) (hun : ∀ pkt ∈ arrivals acts, pkt.Unfragmented qt) :
    KeepsWindow qt acts ↔ ∀ pre pkt env, pre ++ [.receive pkt env] <+: acts →
      (fresh.run qt pre).Advances pkt → (fresh.run qt pre).Keeps pkt env.now₁ := by
  have hidle : ∀ pre, pre <+: acts → ∀ x, (fresh.run qt pre).fragmentedMessages x = none := by
    intro pre hpre
    refine idle_run (fun _ => rfl) fun pkt hp => hun pkt ?_
    obtain ⟨post, rfl⟩ := hpre
    rw [arrivals_append]
    exact List.mem_append_left _ hp
  -- the window right after the packet is the one the acceptance test leaves
  have hstep : ∀ pre pkt env, pre ++ [.receive pkt env] <+: acts → (fresh.run qt pre).Advances pkt →
      ((fresh.run qt (pre ++ [.receive pkt env])).InWindow pkt.id ↔ (fresh.run qt pre).Keeps pkt env.now₁) := by
    intro pre pkt env hpre hadv
    have hmem : pkt ∈ arrivals acts := by
      obtain ⟨post, rfl⟩ := hpre
      simp [arrivals]
    have hsame : ((fresh.run qt pre).afterTest pkt env).SameWindow ((fresh.run qt pre).step qt (.receive pkt env)).1 :=
      sameWindow_receive (hidle pre ((List.prefix_append _ _).trans hpre)) (hun pkt hmem)
    rw [run_append, ← inWindow_iff hadv env]
    constructor
    · intro hw
      exact ⟨hsame.next ▸ hw.next, hsame.lost ▸ hw.received, hsame.lost ▸ hw.recent⟩
    · intro hw
      exact ⟨hsame.next.trans hw.next, hsame.lost ▸ hw.received, hsame.lost ▸ hw.recent⟩
  constructor
  · intro h pre pkt env hpre hadv
    exact (hstep pre pkt env hpre hadv).mp (h pre pkt env [] hpre hadv).1
  · intro h pre pkt env later hpre hadv
    have hsplit : pre ++ .receive pkt env :: later = pre ++ [.receive pkt env] ++ later := by simp
    rw [hsplit] at hpre ⊢
    have hone := (List.prefix_append _ _).trans hpre
    have hw := (hstep pre pkt env hone hadv).mpr (h pre pkt env hone hadv)
    refine ⟨hw, fun hs now => ?_⟩
    have hlater : ∀ pkt ∈ arrivals later, pkt.Unfragmented qt := by
      obtain ⟨post, rfl⟩ := hpre
      intro pkt hp
      exact hun pkt (by simp only [arrivals_append, List.mem_append]; exact Or.inl (Or.inr hp))
    rw [run_append, isLostMessage, unlisted_run (hidle _ hone) hlater hw.received hs]

/-- The first packet to arrive is the sixth that was sent. -/
def gapRun : List Action := [.receive ⟨5, 16, 0, []⟩ Env.quiet]

theorem keepsWindow_gapRun :
    (∀ pkt ∈ arrivals gapRun, pkt.Unfragmented Qt.storing) ∧ KeepsWindow Qt.storing gapRun := by
  have hun : ∀ pkt ∈ arrivals gapRun, pkt.Unfragmented Qt.storing := by
    intro pkt hp
    rw [List.mem_singleton.mp hp]
    exact Packet.unfragmented_of_flag (by decide)
  refine ⟨hun, (lostWindow_iff Qt.storing gapRun hun).mpr fun pre pkt env hpre _ => ?_⟩
  have hnil : pre = [] := by
    have := hpre.length_le
    simp only [List.length_append, List.length_singleton, gapRun] at this
    exact List.length_eq_zero_iff.mp (by omega)
  subst hnil
  exact ⟨fun h => absurd h (Nat.not_lt_zero _), fun x tp hx => (nomatch hx)⟩

/-- The first packet is lost, and the next hundred and one arrive in order, at the same time. -/
def firstLostRun : List Action :=
  (List.range 101).map fun n => .receive ⟨UInt8.ofNat (n + 1), 16, 0, []⟩ Env.quiet

/-- Here packet 101 is the expected one, so the list is not looked at: id 0 stays in it. -/
theorem old_id_stays_listed : ¬ ∀ (qt : Qt) (acts : List Action),
    (∀ pkt ∈ arrivals acts, pkt.Unfragmented qt) → KeepsWindow qt acts := by
  intro h
  have hun : ∀ pkt ∈ arrivals firstLostRun, pkt.Unfragmented Qt.storing := by
    intro pkt hp
    obtain ⟨a, ha, he⟩ := List.mem_filterMap.mp hp
    obtain ⟨n, _, rfl⟩ := List.mem_map.mp ha
    obtain rfl := Option.some.inj he
    exact Packet.unfragmented_of_flag (hasFlag_zero _)
  have hsplit : firstLostRun = firstLostRun.take 100 ++ [.receive ⟨101, 16, 0, []⟩ Env.quiet] := by decide
  have hadv : (fresh.run Qt.storing (firstLostRun.take 100)).Advances ⟨101, 16, 0, []⟩ := by
    unfold Advances
    decide +kernel
  have hw := (h Qt.storing firstLostRun hun _ _ _ [] ⟨[], (List.append_nil _).trans hsplit.symm⟩ hadv).1
  rw [← hsplit] at hw
  have hlisted : (fresh.run Qt.storing firstLostRun).lostMsgList 0 ≠ none := by decide +kernel
  have hfar := (hw.recent 0 hlisted).2
  revert hfar
  decide

end Protocol

end HelpzNet
