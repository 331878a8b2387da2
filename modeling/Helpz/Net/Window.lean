import Helpz.Net.State

/-!
# The receive window

`is_lost_message`, `fill_lost_msg` and the acceptance test at the head of
`internal_process_message`. Ids are 8-bit; the comparisons of the source are made on `int`, so they
are comparisons of the numbers and not modulo 256.
-/

namespace HelpzNet

namespace Protocol

/-- `Protocol::is_lost_message`: the id leaves the list whether or not it is still recent. -/
def isLostMessage (p : Protocol) (now : TimePoint) (msgId : UInt8) : Bool × Protocol :=
  match p.lostMsgList msgId with
  | none => (false, p)
  | some tp => (decide (now - tp < seconds 10),
      { p with lostMsgList := Function.update p.lostMsgList msgId none })

/-- The entry `x` recorded at `tp` is dropped when `fill_lost_msg` runs for `msgId`. -/
def isStale (now : TimePoint) (msgId x : UInt8) (tp : TimePoint) : Bool :=
  decide (now - seconds 10 > tp) ||
    (decide (255 + (msgId - 100).toNat > 255 + x.toNat) && decide (255 + x.toNat > 255 + msgId.toNat))

/-- The first loop of `fill_lost_msg`: stale ids leave the list, and their transfers are given up. -/
def pruneLost (p : Protocol) (now : TimePoint) (msgId : UInt8) : Protocol :=
  let stale := fun x => (p.lostMsgList x).any (isStale now msgId x)
  { p with
    lostMsgList := fun x => if stale x then none else p.lostMsgList x
    fragmentedMessages := fun x => if stale x then none else p.fragmentedMessages x }

/-- `lost_msg_list_.emplace`: an id that is there keeps its time. -/
def emplaceLost (l : UInt8 → Option TimePoint) (x : UInt8) (now : TimePoint) :
    UInt8 → Option TimePoint :=
  if (l x).isSome then l else Function.update l x (some now)

/-- `k` turns of the second loop of `fill_lost_msg`, from id `x` on. -/
def emplaceRange (now : TimePoint) : ℕ → UInt8 → (UInt8 → Option TimePoint) → UInt8 → Option TimePoint
  | 0, _, l => l
  | k + 1, x, l => emplaceRange now k (x + 1) (emplaceLost l x now)

theorem toNat_sub (a b : UInt8) : (a - b).toNat = (a.toNat + 256 - b.toNat) % 256 := by
  have hb := b.toNat_lt
  rw [UInt8.toNat_sub]
  congr 1
  omega

/-- **The second loop of `fill_lost_msg` adds exactly the ids it counts over**, modulo 256. -/
theorem emplaceRange_apply (now : TimePoint) {k : ℕ} (hk : k ≤ 256) (x : UInt8)
    (l : UInt8 → Option TimePoint) (y : UInt8) :
    emplaceRange now k x l y = if (l y).isSome ∨ ¬ (y - x).toNat < k then l y else some now := by
  induction k generalizing x l with
  | zero => rw [emplaceRange, if_pos (Or.inr (Nat.not_lt_zero _))]
  | succ k ih =>
      have hx := x.toNat_lt
      have hy := y.toNat_lt
      have hsucc : (y - (x + 1)).toNat = (y.toNat + 256 - (x.toNat + 1) % 256) % 256 := by
        rw [toNat_sub, UInt8.toNat_add]
        rfl
      rw [emplaceRange, ih (by omega)]
      by_cases he : y = x
      · subst he
        rw [if_pos (Or.inr (by omega)), emplaceLost, show (y - y).toNat = 0 by rw [toNat_sub]; omega]
        by_cases hs : (l y).isSome
        · rw [if_pos hs, if_pos (Or.inl hs)]
        · rw [if_neg hs, if_neg (not_or.mpr ⟨hs, not_not.mpr (Nat.succ_pos k)⟩), Function.update_self]
      · have hsame : emplaceLost l x now y = l y := by
          unfold emplaceLost
          split_ifs
          · rfl
          · exact Function.update_of_ne he _ _
        have hne : y.toNat ≠ x.toNat := fun h => he (UInt8.toNat_inj.mp h)
        have hrange : (y - (x + 1)).toNat < k ↔ (y - x).toNat < k + 1 := by
          rw [hsucc, toNat_sub]
          omega
        simp only [hsame, hrange]

/-- `Protocol::fill_lost_msg`. The last loop counts `next_rx_msg_id_` up to `msgId` modulo 256. -/
def fillLostMsg (p : Protocol) (now : TimePoint) (msgId : UInt8) : Protocol :=
  let p := p.pruneLost now msgId
  let next := if msgId.toNat > p.nextRxMsgId.toNat + 100 then msgId - 100 else p.nextRxMsgId
  { p with
    lostMsgList := emplaceRange now (msgId - next).toNat next p.lostMsgList
    nextRxMsgId := msgId }

/-- The acceptance test: whether the packet is processed further, and the window afterwards. -/
def acceptMessage (p : Protocol) (now : TimePoint) (msgId flags : UInt8) : Bool × Protocol :=
  let next := p.nextRxMsgId.toNat
  if hasFlag flags Flag.repeated || (decide (msgId.toNat < next) && decide (next - msgId.toNat < 100)) then
    let r := p.isLostMessage now msgId
    (r.1 || !hasFlag flags Flag.repeated, r.2)
  else
    let q :=
      if msgId.toNat > next || next - msgId.toNat > 100 then
        (p.emit [.lostMsgDetected msgId p.nextRxMsgId]).fillLostMsg now msgId
      else p
    (true, if msgId.toNat + 1 ≥ q.nextRxMsgId.toNat + 1 then { q with nextRxMsgId := msgId + 1 } else q)

/-- The packet may be one that is thought lost: it is marked as repeated, or its id lies less than 100
before the one expected next. -/
def MaybeLost (p : Protocol) (msgId flags : UInt8) : Prop :=
  hasFlag flags Flag.repeated = true ∨
    msgId.toNat < p.nextRxMsgId.toNat ∧ p.nextRxMsgId.toNat - msgId.toNat < 100

instance (p : Protocol) (msgId flags : UInt8) : Decidable (p.MaybeLost msgId flags) := by
  unfold MaybeLost
  infer_instance

/-- There is a gap before the packet, or it lies more than 100 back. -/
def Gap (p : Protocol) (msgId : UInt8) : Prop :=
  msgId.toNat > p.nextRxMsgId.toNat ∨ p.nextRxMsgId.toNat - msgId.toNat > 100

instance (p : Protocol) (msgId : UInt8) : Decidable (p.Gap msgId) := by
  unfold Gap
  infer_instance

section Accept

variable {p : Protocol} {msgId flags : UInt8} (now : TimePoint)

theorem acceptMessage_lost (h : p.MaybeLost msgId flags) :
    p.acceptMessage now msgId flags =
      ((p.isLostMessage now msgId).1 || !hasFlag flags Flag.repeated, (p.isLostMessage now msgId).2) := by
  unfold acceptMessage
  exact if_pos (by simpa [MaybeLost] using h)

theorem acceptMessage_gap (h : ¬ p.MaybeLost msgId flags) (hg : p.Gap msgId) :
    p.acceptMessage now msgId flags =
      (true, { (p.emit [.lostMsgDetected msgId p.nextRxMsgId]).fillLostMsg now msgId with
        nextRxMsgId := msgId + 1 }) := by
  unfold acceptMessage
  refine (if_neg (by simpa [MaybeLost] using h)).trans ?_
  simp only [if_pos (show (decide (msgId.toNat > p.nextRxMsgId.toNat) ||
    decide (p.nextRxMsgId.toNat - msgId.toNat > 100)) = true by simpa [Gap] using hg)]
  exact congrArg (Prod.mk true) (if_pos le_rfl)

theorem acceptMessage_next (h : ¬ p.MaybeLost msgId flags) (hg : ¬ p.Gap msgId) :
    p.acceptMessage now msgId flags =
      (true, if p.nextRxMsgId.toNat ≤ msgId.toNat then { p with nextRxMsgId := msgId + 1 } else p) := by
  unfold acceptMessage
  refine (if_neg (by simpa [MaybeLost] using h)).trans ?_
  simp only [if_neg (show ¬ (decide (msgId.toNat > p.nextRxMsgId.toNat) ||
    decide (p.nextRxMsgId.toNat - msgId.toNat > 100)) = true by simpa [Gap] using hg), ge_iff_le,
    Nat.add_le_add_iff_right]

end Accept

/-- The first id that `fill_lost_msg` for `msgId` may add to the lost ones. -/
def fillFrom (p : Protocol) (msgId : UInt8) : ℕ :=
  if msgId.toNat > p.nextRxMsgId.toNat + 100 then msgId.toNat - 100 else p.nextRxMsgId.toNat

theorem fillFrom_le_iff (p : Protocol) {msgId y : UInt8} (h : y.toNat < msgId.toNat) :
    p.fillFrom msgId ≤ y.toNat ↔ p.nextRxMsgId.toNat ≤ y.toNat ∧ msgId.toNat ≤ y.toNat + 100 := by
  unfold fillFrom
  split_ifs <;> omega

/-- What the acceptance test does to the window for a packet that is not far behind it: a packet at or
after the end of the window moves the end, and the ids it leaves out become lost ones; any other is
taken out of the lost ones. -/
inductive WindowStep (p : Protocol) (now : TimePoint) (msgId : UInt8) (isRepeated : Bool) :
    Bool × Protocol → Prop
  | old (q : Protocol) : isRepeated = true ∨ msgId.toNat < p.nextRxMsgId.toNat →
      q.nextRxMsgId = p.nextRxMsgId → q.lostMsgList = Function.update p.lostMsgList msgId none →
      WindowStep p now msgId isRepeated
        ((p.lostMsgList msgId).any (fun tp => decide (now - tp < seconds 10)) || !isRepeated, q)
  | new (q : Protocol) (kept : UInt8 → Option TimePoint) : isRepeated = false →
      p.nextRxMsgId.toNat ≤ msgId.toNat → q.nextRxMsgId.toNat = msgId.toNat + 1 →
      (∀ y, kept y = p.lostMsgList y ∨
        kept y = none ∧ ∃ tp, p.lostMsgList y = some tp ∧ isStale now msgId y tp = true) →
      (∀ y, q.lostMsgList y = if (kept y).isSome ∨ ¬ (p.fillFrom msgId ≤ y.toNat ∧ y.toNat < msgId.toNat)
        then kept y else some now) →
      WindowStep p now msgId isRepeated (true, q)

theorem toNat_succ {x : UInt8} (h : x ≠ 255) : (x + 1).toNat = x.toNat + 1 := by
  have hlt : x.toNat < 255 := by
    have hne : x.toNat ≠ 255 := fun he => h (UInt8.toNat_inj.mp he)
    have := x.toNat_lt
    omega
  rw [UInt8.toNat_add]
  exact Nat.mod_eq_of_lt (show x.toNat + 1 < 2 ^ 8 by omega)

/-- How many ids before `msgId` the call of `fill_lost_msg` counts over. -/
def skipped (p : Protocol) (msgId : UInt8) : ℕ :=
  if msgId.toNat > p.nextRxMsgId.toNat + 100 then 100 else (msgId - p.nextRxMsgId).toNat

/-- **The ids `fill_lost_msg` adds are the ones it skips, counted back from the new packet.** -/
theorem lostMsgList_fillLostMsg (p : Protocol) (now : TimePoint) (msgId y : UInt8) :
    (p.fillLostMsg now msgId).lostMsgList y =
      if ((p.pruneLost now msgId).lostMsgList y).isSome ∨
          ¬ (1 ≤ (msgId - y).toNat ∧ (msgId - y).toNat ≤ p.skipped msgId)
      then (p.pruneLost now msgId).lostMsgList y else some now := by
  have hm := msgId.toNat_lt
  have hy := y.toNat_lt
  have hn := p.nextRxMsgId.toNat_lt
  have h100 : (100 : UInt8).toNat = 100 := rfl
  simp only [fillLostMsg, skipped, show (p.pruneLost now msgId).nextRxMsgId = p.nextRxMsgId from rfl]
  by_cases hfar : msgId.toNat > p.nextRxMsgId.toNat + 100
  · have hsub : (msgId - (msgId - 100)).toNat = 100 := by
      rw [toNat_sub, toNat_sub, h100]
      omega
    have hrange : (y - (msgId - 100)).toNat < 100 ↔ 1 ≤ (msgId - y).toNat ∧ (msgId - y).toNat ≤ 100 := by
      rw [toNat_sub, toNat_sub, toNat_sub, h100]
      omega
    simp only [if_pos hfar, hsub]
    rw [emplaceRange_apply now (by omega)]
    simp only [hrange]
  · have hrange : (y - p.nextRxMsgId).toNat < (msgId - p.nextRxMsgId).toNat ↔
        1 ≤ (msgId - y).toNat ∧ (msgId - y).toNat ≤ (msgId - p.nextRxMsgId).toNat := by
      rw [toNat_sub, toNat_sub, toNat_sub]
      omega
    simp only [if_neg hfar]
    rw [emplaceRange_apply now (le_of_lt (UInt8.toNat_lt _))]
    simp only [hrange]

theorem skipped_iff (p : Protocol) {msgId : UInt8} (h : p.nextRxMsgId.toNat ≤ msgId.toNat) (y : UInt8) :
    1 ≤ (msgId - y).toNat ∧ (msgId - y).toNat ≤ p.skipped msgId ↔
      p.fillFrom msgId ≤ y.toNat ∧ y.toNat < msgId.toNat := by
  have hm := msgId.toNat_lt
  have hy := y.toNat_lt
  simp only [skipped, fillFrom, toNat_sub]
  split_ifs <;> omega

/-- **The window after the acceptance test.** -/
theorem windowStep_acceptMessage (p : Protocol) (now : TimePoint) {msgId flags : UInt8} (hid : msgId ≠ 255)
    (hnear : hasFlag flags Flag.repeated = false → p.nextRxMsgId.toNat < msgId.toNat + 100) :
    WindowStep p now msgId (hasFlag flags Flag.repeated) (p.acceptMessage now msgId flags) := by
  by_cases h : p.MaybeLost msgId flags
  · rw [acceptMessage_lost now h, isLostMessage]
    have hold : hasFlag flags Flag.repeated = true ∨ msgId.toNat < p.nextRxMsgId.toNat := h.imp_right And.left
    have hupd : p.lostMsgList msgId = none → p.lostMsgList = Function.update p.lostMsgList msgId none :=
      fun hl => by rw [← hl, Function.update_eq_self]
    cases hl : p.lostMsgList msgId with
    | none => simpa only [hl, Option.any_none] using WindowStep.old p hold rfl (hupd hl)
    | some tp =>
        simpa only [hl, Option.any_some] using WindowStep.old
          { p with lostMsgList := Function.update p.lostMsgList msgId none } hold rfl rfl
  obtain ⟨hrep, hold⟩ := not_or.mp h
  rw [Bool.not_eq_true] at hrep
  have hle : p.nextRxMsgId.toNat ≤ msgId.toNat := by
    have := hnear hrep
    omega
  by_cases hg : p.Gap msgId
  · rw [acceptMessage_gap now h hg]
    refine .new _ ((p.pruneLost now msgId).lostMsgList) hrep hle (toNat_succ hid) (fun y => ?_) fun y => ?_
    · simp only [pruneLost]
      split_ifs with hs
      · obtain ⟨tp, htp, hst⟩ := (Option.any_eq_true _ _).mp hs
        exact Or.inr ⟨rfl, tp, htp, hst⟩
      · exact Or.inl rfl
    · refine (lostMsgList_fillLostMsg _ now msgId y).trans ?_
      have hskip : (p.emit [.lostMsgDetected msgId p.nextRxMsgId]).skipped msgId = p.skipped msgId := rfl
      simp only [hskip, skipped_iff p hle y]
      rfl
  · have heq : p.nextRxMsgId.toNat = msgId.toNat := by
      unfold Gap at hg
      omega
    rw [acceptMessage_next now h hg, if_pos hle]
    refine .new _ p.lostMsgList hrep hle (toNat_succ hid) (fun y => Or.inl rfl) fun y => ?_
    rw [if_pos]
    refine Or.inr fun hy => ?_
    have := (p.fillFrom_le_iff hy.2).mp hy.1
    omega

/-- **What the acceptance test may change**: the window, and transfers that are given up. -/
theorem acceptMessage_frame (p : Protocol) (now : TimePoint) (msgId flags : UInt8) :
    ∃ next lost frag evs, (p.acceptMessage now msgId flags).2 =
        { p with
          nextRxMsgId := next, lostMsgList := lost, fragmentedMessages := frag, log := p.log ++ evs } ∧
      (evs = [] ∨ evs = [.lostMsgDetected msgId p.nextRxMsgId]) ∧
      ∀ x, frag x = p.fragmentedMessages x ∨ frag x = none := by
  by_cases h : p.MaybeLost msgId flags
  · rw [acceptMessage_lost now h, isLostMessage]
    cases p.lostMsgList msgId with
    | none => exact ⟨_, _, _, [], by rw [List.append_nil], Or.inl rfl, fun x => Or.inl rfl⟩
    | some tp => exact ⟨_, _, _, [], by rw [List.append_nil], Or.inl rfl, fun x => Or.inl rfl⟩
  by_cases hg : p.Gap msgId
  · rw [acceptMessage_gap now h hg]
    refine ⟨_, _, fun x => if (p.lostMsgList x).any (isStale now msgId x) then none
      else p.fragmentedMessages x, _, rfl, Or.inr rfl, fun x => ?_⟩
    simp only
    split_ifs
    · exact Or.inr rfl
    · exact Or.inl rfl
  · rw [acceptMessage_next now h hg]
    split_ifs
    · exact ⟨_, _, _, [], by rw [List.append_nil], Or.inl rfl, fun x => Or.inl rfl⟩
    · exact ⟨_, _, _, [], by rw [List.append_nil], Or.inl rfl, fun x => Or.inl rfl⟩

end Protocol

end HelpzNet
