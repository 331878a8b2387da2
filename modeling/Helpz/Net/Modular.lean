import Helpz.Net.Cyclic
import Helpz.Lib.Run

/-!
# Shifting the ids

Ids are counted modulo 256, so the window should treat a sequence of packets in the same way when all ids,
those of the packets and those of the state, are shifted. The comparisons of the source are made on the
numbers, so this holds as long as they do not depend on where the wrap lies.

* `Arrival`, `Protocol.testAll`, `Protocol.verdicts`: the receive window alone, over a sequence of packets;
* `Shifted k p p'`: `p'` has the window of `p` with all ids shifted by `k`;
* `Agrees`: the numbers compare as they do before the shift, where it matters;
* `Shifted.test`, `shifted_run`: one packet, and a sequence.
-/

namespace HelpzNet

open HelpzLib

/-- What the acceptance test reads of a packet, and the clock. -/
structure Arrival where
  id : UInt8
  flags : UInt8
  now : TimePoint
  deriving DecidableEq, Repr

/-- The same packet under another id. -/
def Arrival.shift (k : UInt8) (r : Arrival) : Arrival := { r with id := r.id + k }

namespace Protocol

/-- The acceptance test. -/
def test (p : Protocol) (r : Arrival) : Bool × Protocol := p.acceptMessage r.now r.id r.flags

/-- Which packets of a sequence are accepted. -/
def verdicts : Protocol → List Arrival → List Bool
  | _, [] => []
  | p, r :: rs => (p.test r).1 :: (p.test r).2.verdicts rs

/-- The window after a sequence of packets. -/
def testAll (p : Protocol) (rs : List Arrival) : Protocol := rs.foldl (fun p r => (p.test r).2) p

/-- The window of `p'` is that of `p` with all ids shifted, and so are the reports of losses. -/
structure Shifted (k : UInt8) (p p' : Protocol) : Prop where
  next : p'.nextRxMsgId = p.nextRxMsgId + k
  lost : ∀ x, p'.lostMsgList (x + k) = p.lostMsgList x
  calls : lostCalls p'.log = (lostCalls p.log).map fun c => (c.1 + k, c.2 + k)

/-- An original packet more than 100 ahead of the expected one is on the same side of it after the shift;
and if it is behind a gap while an id more than 100 back was noted within the last ten seconds, its id is
below 100 after the shift when it is before. -/
structure Agrees (k : UInt8) (p : Protocol) (r : Arrival) : Prop where
  order : hasFlag r.flags Flag.repeated = false → 100 < (r.id - p.nextRxMsgId).toNat →
    (r.id.toNat < p.nextRxMsgId.toNat ↔ (r.id + k).toNat < (p.nextRxMsgId + k).toNat)
  age : hasFlag r.flags Flag.repeated = false → p.Gap r.id → ∀ x tp, p.lostMsgList x = some tp →
    100 < (r.id - x).toNat → r.now - seconds 10 ≤ tp → (r.id.toNat < 100 ↔ (r.id + k).toNat < 100)

variable {k : UInt8} {p p' : Protocol} {r : Arrival}

theorem add_sub_add (a b k : UInt8) : a + k - (b + k) = a - b := by
  have ha := a.toNat_lt
  have hb := b.toNat_lt
  apply UInt8.toNat_inj.mp
  rw [toNat_sub, toNat_sub, UInt8.toNat_add, UInt8.toNat_add]
  omega

/-! ## The comparisons -/

theorem Shifted.maybeLost_iff (h : Shifted k p p') (ha : Agrees k p r) :
    p'.MaybeLost (r.id + k) r.flags ↔ p.MaybeLost r.id r.flags := by
  unfold MaybeLost
  rw [h.next]
  by_cases hr : hasFlag r.flags Flag.repeated = true
  · simp only [hr, true_or]
  · have hord := ha.order (Bool.not_eq_true _ ▸ hr)
    have hm := r.id.toNat_lt
    have hn := p.nextRxMsgId.toNat_lt
    rw [toNat_sub] at hord
    rw [or_iff_right hr, or_iff_right hr]
    rw [UInt8.toNat_add, UInt8.toNat_add] at hord ⊢
    omega

theorem Shifted.gap_iff (h : Shifted k p p') (ha : Agrees k p r) (hr : hasFlag r.flags Flag.repeated = false) :
    p'.Gap (r.id + k) ↔ p.Gap r.id := by
  have hord := ha.order hr
  have hm := r.id.toNat_lt
  have hn := p.nextRxMsgId.toNat_lt
  unfold Gap
  rw [h.next]
  rw [toNat_sub] at hord
  rw [UInt8.toNat_add, UInt8.toNat_add] at hord ⊢
  omega

theorem Shifted.skipped_eq (h : Shifted k p p') (ha : Agrees k p r)
    (hr : hasFlag r.flags Flag.repeated = false) : p'.skipped (r.id + k) = p.skipped r.id := by
  have hord := ha.order hr
  have hm := r.id.toNat_lt
  have hn := p.nextRxMsgId.toNat_lt
  have hfar : (r.id + k).toNat > (p.nextRxMsgId + k).toNat + 100 ↔
      r.id.toNat > p.nextRxMsgId.toNat + 100 := by
    rw [toNat_sub] at hord
    rw [UInt8.toNat_add, UInt8.toNat_add] at hord ⊢
    omega
  simp only [skipped, h.next, add_sub_add, hfar]

theorem Shifted.le_iff (h : Shifted k p p') (ha : Agrees k p r) (hr : hasFlag r.flags Flag.repeated = false)
    (hg : ¬ p.Gap r.id) (hm : ¬ p.MaybeLost r.id r.flags) :
    p'.nextRxMsgId.toNat ≤ (r.id + k).toNat ↔ p.nextRxMsgId.toNat ≤ r.id.toNat := by
  have hord := ha.order hr
  have hid := r.id.toNat_lt
  have hn := p.nextRxMsgId.toNat_lt
  have hback : ¬ (r.id.toNat < p.nextRxMsgId.toNat ∧ p.nextRxMsgId.toNat - r.id.toNat < 100) :=
    fun hb => hm (Or.inr hb)
  unfold Gap at hg
  rw [h.next]
  rw [toNat_sub] at hord
  rw [UInt8.toNat_add, UInt8.toNat_add] at hord ⊢
  omega

theorem Shifted.kept_eq (h : Shifted k p p') (ha : Agrees k p r) (hr : hasFlag r.flags Flag.repeated = false)
    (hg : p.Gap r.id) (x : UInt8) : p'.kept r.now (r.id + k) (x + k) = p.kept r.now r.id x := by
  unfold kept
  rw [h.lost x]
  cases hx : p.lostMsgList x with
  | none => rfl
  | some tp =>
      have hstale : isStale r.now (r.id + k) (x + k) tp = isStale r.now r.id x tp := by
        rw [Bool.eq_iff_iff, isStale_iff, isStale_iff, add_sub_add]
        have hage := ha.age hr hg x tp hx
        by_cases hold : tp < r.now - seconds 10
        · simp only [hold, true_or]
        · simp only [hold, false_or]
          by_cases hfar : 100 < (r.id - x).toNat
          · simp only [hfar, and_true]
            exact (hage hfar (not_lt.mp hold)).symm
          · simp only [hfar, and_false]
      rw [Option.any_some, Option.any_some, hstale]

/-! ## One packet -/

/-- **A packet that agrees is treated in the same way.** -/
theorem Shifted.test (h : Shifted k p p') (ha : Agrees k p r) :
    (p'.test (r.shift k)).1 = (p.test r).1 ∧ Shifted k (p.test r).2 (p'.test (r.shift k)).2 := by
  unfold Protocol.test
  simp only [Arrival.shift]
  by_cases hm : p.MaybeLost r.id r.flags
  · obtain ⟨h1, h2, h3, h4⟩ := maybeLost_acceptMessage r.now hm
    obtain ⟨g1, g2, g3, g4⟩ := maybeLost_acceptMessage r.now ((h.maybeLost_iff ha).mpr hm)
    refine ⟨by rw [g1, h1, h.lost], by rw [g2, h2, h.next], fun x => ?_, by rw [g4, h4, h.calls]⟩
    rw [g3, h3, Function.update_apply, Function.update_apply, h.lost]
    simp only [UInt8.add_left_inj]
  have hm' := mt (h.maybeLost_iff ha).mp hm
  have hr : hasFlag r.flags Flag.repeated = false := by
    rw [← Bool.not_eq_true]
    exact fun hr => hm (Or.inl hr)
  by_cases hg : p.Gap r.id
  · obtain ⟨h1, h2, h3, h4⟩ := gap_acceptMessage r.now hm hg
    obtain ⟨g1, g2, g3, g4⟩ := gap_acceptMessage r.now hm' ((h.gap_iff ha hr).mpr hg)
    refine ⟨by rw [g1, h1], ?_, fun x => ?_, ?_⟩
    · rw [g2, h2, UInt8.add_assoc, UInt8.add_assoc, UInt8.add_comm k]
    · rw [g3, h3]
      simp only [h.kept_eq ha hr hg x, add_sub_add, h.skipped_eq ha hr]
    · rw [g4, h4, lostCalls_append, lostCalls_append, List.map_append, h.calls]
      simp [lostCalls, Event.lostCall, h.next]
  · obtain ⟨h1, h2, h3, h4⟩ := next_acceptMessage r.now hm hg
    obtain ⟨g1, g2, g3, g4⟩ := next_acceptMessage r.now hm' (mt (h.gap_iff ha hr).mp hg)
    refine ⟨by rw [g1, h1], ?_, fun x => by rw [g3, h3, h.lost], by rw [g4, h4, h.calls]⟩
    rw [g2, h2]
    simp only [h.le_iff ha hr hg hm]
    split_ifs
    · rw [UInt8.add_assoc, UInt8.add_assoc, UInt8.add_comm k]
    · exact h.next

/-! ## A sequence -/

/-- **The window counts modulo 256 as long as every packet agrees**: the packets accepted, the losses
reported and the window at the end are the same, with all ids shifted. -/
theorem shifted_run (k : UInt8) {p p' : Protocol} (h : Shifted k p p') (rs : List Arrival)
    (ha : Along (fun p r => some (p.test r).2) (Agrees k) p rs) :
    p'.verdicts (rs.map (Arrival.shift k)) = p.verdicts rs ∧
      Shifted k (p.testAll rs) (p'.testAll (rs.map (Arrival.shift k))) := by
  induction rs generalizing p p' with
  | nil => exact ⟨rfl, h⟩
  | cons r rs ih =>
      obtain ⟨hv, hs⟩ := h.test ha.1
      obtain ⟨hvs, hss⟩ := ih hs (ha.2 _ rfl)
      refine ⟨?_, hss⟩
      rw [List.map_cons, verdicts, verdicts, hv, hvs]

/-- A packet behind a gap, shifted so that the gap lies across the wrap. -/
theorem shifted_overWrap :
    Protocol.verdicts { fresh with nextRxMsgId := 254 } [⟨1, 0, 0⟩] = fresh.verdicts [⟨3, 0, 0⟩] ∧
      Shifted 254 (fresh.testAll [⟨3, 0, 0⟩])
        (Protocol.testAll { fresh with nextRxMsgId := 254 } [⟨1, 0, 0⟩]) := by
  have h : Shifted 254 fresh { fresh with nextRxMsgId := 254 } := ⟨rfl, fun _ => rfl, rfl⟩
  have hagrees : Agrees 254 fresh ⟨3, 0, 0⟩ := by
    refine ⟨fun _ hfar => ?_, fun _ _ x tp hx => (nomatch hx)⟩
    exact absurd hfar (by decide)
  exact shifted_run 254 h [⟨3, 0, 0⟩] ⟨hagrees, fun _ _ => trivial⟩

/-- The id before the expected one is 255 when 0 is expected, and is taken for one far ahead: its loss is
reported. Shifted by one, it is one that may be lost. -/
theorem last_id_taken_for_far_ahead : ¬ ∀ (k : UInt8) (p p' : Protocol), Shifted k p p' →
    ∀ rs : List Arrival, p'.verdicts (rs.map (Arrival.shift k)) = p.verdicts rs ∧
      Shifted k (p.testAll rs) (p'.testAll (rs.map (Arrival.shift k))) := by
  intro h
  have hs : Shifted 1 fresh { fresh with nextRxMsgId := 1 } := ⟨rfl, fun _ => rfl, rfl⟩
  have hcalls := (h 1 _ _ hs [⟨255, 0, 0⟩]).2.calls
  revert hcalls
  decide

end Protocol

end HelpzNet
