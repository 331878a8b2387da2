import Helpz.Net.Parcel

/-!
# A transfer over a connection that loses nothing

A message that is sent in parts, from the moment it is posted to the moment neither end holds anything of it. The
packets arrive in order, and each end acts as soon as it can; the clock readings are any that lie close enough.

* `Lap`: a query and its answer; `asked`: how many bytes some laps ask for;
* `Asking`, `Reporting`, `Settled`: both ends between the laps; `lap_asking`, `lap_reporting`, `lap_settled`;
* `delivered`: both ends after any number of laps.
-/

namespace HelpzNet

open HelpzLib FragmentedMessage MessageItem

/-- The clock readings of a lap: the receiver sends a query, the query arrives, the sender sends a packet, and the
packet arrives. -/
structure Lap where
  queried : TimePoint
  asked : TimePoint
  sent : TimePoint
  arrived : TimePoint

def Lap.moves (a : Lap) : List Move :=
  [.own .right (.write 0 a.queried a.queried), .deliver .left 0 false ⟨a.asked, a.asked, false, false⟩,
    .own .left (.write 0 a.sent a.sent), .deliver .right 0 false ⟨a.arrived, a.arrived, false, false⟩]

/-- The clock is not negative, and at most ten seconds pass between two packets of the message. -/
def Prompt : TimePoint → List Lap → Prop
  | _, [] => True
  | t, a :: laps => (0 ≤ a.queried ∧ 0 ≤ a.sent ∧ a.arrived ≤ t + seconds 10) ∧ Prompt a.arrived laps

/-- How many bytes are asked for in so many laps, the first of which asks for `size`. -/
def asked : ℕ → ℕ → ℕ
  | _, 0 => 0
  | size, k + 1 => size + asked (Protocol.growFragmentSize size) k

namespace System

open Protocol

variable {qt : Qt} {l r : Protocol} {x : Parcel} {pos size : ℕ} {t : TimePoint} {a : Lap} {laps : List Lap}

/-- Bytes are missing, and asked for. -/
structure Asking (x : Parcel) (pos size : ℕ) (t : TimePoint) (l r : Protocol) : Prop where
  left : l.Offers x
  right : r.Asks x pos size t
  ids : r.nextTxMsgId = l.nextRxMsgId
  sized : 32 ≤ size ∧ size ≤ maxPacketDataSize
  small : clampFragmentSize (min size (x.data.length - pos)) < x.data.length

/-- No byte is missing any more. -/
structure Reporting (x : Parcel) (l r : Protocol) : Prop where
  left : l.Offers x
  right : r.Reports x
  ids : r.nextTxMsgId = l.nextRxMsgId

/-- Both ends are done. -/
structure Settled (x : Parcel) (l r : Protocol) : Prop where
  left : l.Withdrawn x
  right : r.fragmentedMessages x.id = none
  left_posted : l.posted = []
  right_posted : r.posted = []

theorem run_lap {q pkt : Packet} (hq : (r.write qt 0 a.queried a.queried).2 = [q])
    (hpkt : (((l.step qt (.receive q ⟨a.asked, a.asked, false, false⟩)).1).write qt 0 a.sent a.sent).2 = [pkt]) :
    (both l r [] []).run qt a.moves =
      both (((l.step qt (.receive q ⟨a.asked, a.asked, false, false⟩)).1).write qt 0 a.sent a.sent).1
        ((r.write qt 0 a.queried a.queried).1.step qt (.receive pkt ⟨a.arrived, a.arrived, false, false⟩)).1 [] [] := by
  have h₁ : (both l r [] []).step qt (.own .right (.write 0 a.queried a.queried)) =
      both l (r.write qt 0 a.queried a.queried).1 [q] [] := by
    rw [← hq]
    exact act_right _
  have h₃ : ∀ r' : Protocol, (both (l.step qt (.receive q ⟨a.asked, a.asked, false, false⟩)).1 r' [] []).step qt
      (.own .left (.write 0 a.sent a.sent)) =
        both (((l.step qt (.receive q ⟨a.asked, a.asked, false, false⟩)).1).write qt 0 a.sent a.sent).1 r' [] [pkt] :=
    fun r' => by
      rw [← hpkt]
      exact act_left _
  simp only [run, Lap.moves, List.foldl_cons, List.foldl_nil, h₁, deliver_left, h₃, deliver_right]

theorem nextTx_receive (qt : Qt) (p : Protocol) (pkt : Packet) (env : Env) :
    (p.step qt (.receive pkt env)).1.nextTxMsgId = p.nextTxMsgId :=
  (effects_step_receive (C := fun _ => True) (fun _ _ => trivial) (fun _ => trivial) qt p pkt env trivial).nextTx

theorem sized_grow {size : ℕ} (h : 32 ≤ size ∧ size ≤ maxPacketDataSize) :
    32 ≤ growFragmentSize size ∧ growFragmentSize size ≤ maxPacketDataSize := by
  have hmax : 32 ≤ maxMessageDataSize ∧ maxMessageDataSize ≤ maxPacketDataSize := by decide
  unfold growFragmentSize
  split_ifs <;> omega

theorem small_of_pos {L : ℕ} (hpos : 0 < pos) (hlt : pos < L) (hL : 32 < L) :
    clampFragmentSize (min size (L - pos)) < L := by
  unfold clampFragmentSize
  split_ifs <;> omega

/-- **A lap while bytes are missing.** -/
theorem lap_asking (qt : Qt) (h : Asking x pos size t l r) (hq : 0 ≤ a.queried) (ht : a.arrived ≤ t + seconds 10) :
    ∃ l' r', (both l r [] []).run qt a.moves = both l' r' [] [] ∧
      (pos + size < x.data.length → Asking x (pos + size) (growFragmentSize size) a.arrived l' r' ∧
        handovers r'.log = handovers r.log) ∧
      (x.data.length ≤ pos + size → Reporting x l' r' ∧
        handovers r'.log = handovers r.log ++ [(x.id, x.data)]) := by
  have hlt := h.right.pos_lt
  have hL := x.size_lt
  obtain ⟨uid, hposted⟩ := h.right.posted
  obtain ⟨hr₁posted, hr₁w, hr₁tx, q, hqs, hqid, hqo, hqc⟩ := write_query qt hposted hq
  have hle : min size (x.data.length - pos) < 2 ^ 32 := by omega
  rw [Nat.mod_eq_of_lt (by omega : pos < 2 ^ 32), Nat.mod_eq_of_lt hle] at hqc
  have hr₁ : (r.write qt 0 a.queried a.queried).1.Gathers x pos size t := by
    have hs := sameRx_write qt r 0 a.queried a.queried
    refine ⟨?_, hlt, ?_, hs.next.trans h.right.next, hr₁w.trans h.right.writer⟩
    · rw [hs.frag]
      exact h.right.entry
    · rw [hs.lost]
      exact h.right.lost
  obtain ⟨hl₁, hl₁rx⟩ := step_query ⟨a.asked, a.asked, false, false⟩ h.left (hqid.trans h.ids) hqo hqc hlt
  obtain ⟨hl₂, pkt, hpkts, hpid, hpcmd, hpo, hpc⟩ := write_offering qt a.sent hl₁ h.small
  rw [if_neg (ne_of_lt hlt), take_clamp h.sized] at hpc
  have hl₂rx := (sameRx_write qt (l.step qt (.receive q ⟨a.asked, a.asked, false, false⟩)).1 0 a.sent a.sent).next
  have hids : ((r.write qt 0 a.queried a.queried).1.step qt
      (.receive pkt ⟨a.arrived, a.arrived, false, false⟩)).1.nextTxMsgId =
        (((l.step qt (.receive q ⟨a.asked, a.asked, false, false⟩)).1).write qt 0 a.sent a.sent).1.nextRxMsgId := by
    rw [nextTx_receive, hr₁tx, hl₂rx, hl₁rx, hqid]
  have henv : (⟨a.arrived, a.arrived, false, false⟩ : Env).throws = false := rfl
  obtain ⟨hmore, hdone⟩ := step_part hr₁ hr₁posted hpid hpcmd hpo rfl henv ht
    (lt_of_lt_of_le (by decide) h.sized.1) hpc
  have hhanded := (sameRx_write qt r 0 a.queried a.queried).handed
  refine ⟨_, _, run_lap hqs hpkts, fun hlt' => ?_, fun hge => ?_⟩
  · obtain ⟨hasks, hsame⟩ := hmore hlt'
    refine ⟨⟨hl₂, hasks, hids, sized_grow h.sized, ?_⟩, hsame.trans hhanded⟩
    have hsmall := h.small
    have h32 := (clampFragmentSize_mem (min size (x.data.length - pos))).1
    have := h.sized.1
    exact small_of_pos (by omega) hlt' (by omega)
  · obtain ⟨hreports, hnew⟩ := hdone hge
    exact ⟨⟨hl₂, hreports, hids⟩, hnew.trans (by rw [hhanded])⟩

/-- **A lap once no byte is missing**: the sender lets go of the message. -/
theorem lap_reporting (qt : Qt) (h : Reporting x l r) (hq : 0 ≤ a.queried) (hs : 0 ≤ a.sent) :
    ∃ l' r', (both l r [] []).run qt a.moves = both l' r' [] [] ∧ Settled x l' r' ∧
      handovers r'.log = handovers r.log := by
  have hL := x.size_lt
  obtain ⟨uid, size, hposted⟩ := h.right.posted
  obtain ⟨hr₁posted, _, _, q, hqs, hqid, hqo, hqc⟩ := write_query qt hposted hq
  rw [Nat.mod_eq_of_lt (by omega : x.data.length < 2 ^ 32)] at hqc
  obtain ⟨hl₁, ⟨uid', hl₁posted⟩, hl₁tx⟩ :=
    step_report ⟨a.asked, a.asked, false, false⟩ h.left (hqid.trans h.ids) hqo hqc
  obtain ⟨hl₂, hl₂posted, pkt, hpkts, hpid, hpo, hpc⟩ := write_withdrawn qt hl₁ hl₁posted hs
  have hsame := sameRx_write qt r 0 a.queried a.queried
  have hnext : pkt.id = (r.write qt 0 a.queried a.queried).1.nextRxMsgId := by
    rw [hpid, hl₁tx, hsame.next, h.right.next]
  refine ⟨_, _, run_lap hqs hpkts, ⟨hl₂, ?_, hl₂posted, ?_⟩, ?_⟩
  all_goals rw [step_expected _ hnext hpo hpc (by simp), dispatch]
  · exact Function.update_self _ _ _
  · exact hr₁posted
  · refine Eq.trans ?_ hsame.handed
    simp [eraseFragment, expected, emit, handovers, Event.handover]

theorem lap_settled (h : Settled x l r) : (both l r [] []).run qt a.moves = both l r [] [] := by
  have hr : r.write qt 0 a.queried a.queried = (r, []) := write_of_none (by rw [h.right_posted]; rfl) _ _ _
  have hl : l.write qt 0 a.sent a.sent = (l, []) := write_of_none (by rw [h.left_posted]; rfl) _ _ _
  have h₁ : (both l r [] []).step qt (.own .right (.write 0 a.queried a.queried)) = both l r [] [] := by
    refine (act_right _).trans ?_
    simp only [Protocol.step, hr, List.append_nil]
  have h₃ : (both l r [] []).step qt (.own .left (.write 0 a.sent a.sent)) = both l r [] [] := by
    refine (act_left _).trans ?_
    simp only [Protocol.step, hl, List.append_nil]
  have h₂ : ∀ s env, (both l r [] []).step qt (.deliver s 0 false env) = both l r [] [] := by
    intro s env
    cases s <;> rfl
  simp only [run, Lap.moves, List.foldl_cons, List.foldl_nil, h₁, h₂, h₃]

/-! ## Any number of laps -/

theorem run_laps (y : System) (a : Lap) (laps : List Lap) :
    y.run qt ((a :: laps).flatMap Lap.moves) = (y.run qt a.moves).run qt (laps.flatMap Lap.moves) := by
  rw [List.flatMap_cons, run, List.foldl_append]
  rfl

theorem run_settled (h : Settled x l r) (laps : List Lap) :
    (both l r [] []).run qt (laps.flatMap Lap.moves) = both l r [] [] := by
  induction laps with
  | nil => rfl
  | cons a laps ih => rw [run_laps, lap_settled h, ih]

theorem run_reporting (qt : Qt) (h : Reporting x l r) (hp : Prompt t laps) :
    ∃ l' r', (both l r [] []).run qt (laps.flatMap Lap.moves) = both l' r' [] [] ∧
      handovers r'.log = handovers r.log ∧ (laps ≠ [] → Settled x l' r') := by
  cases laps with
  | nil => exact ⟨l, r, rfl, rfl, fun hne => absurd rfl hne⟩
  | cons a laps =>
      obtain ⟨l', r', hlap, hsettled, hhanded⟩ := lap_reporting qt h hp.1.1 hp.1.2.1
      exact ⟨l', r', by rw [run_laps, hlap, run_settled hsettled], hhanded, fun _ => hsettled⟩

theorem run_asking (qt : Qt) (h : Asking x pos size t l r) (hp : Prompt t laps) :
    ∃ l' r', (both l r [] []).run qt (laps.flatMap Lap.moves) = both l' r' [] [] ∧
      (pos + asked size laps.length < x.data.length → handovers r'.log = handovers r.log ∧
        ∃ size' t', Asking x (pos + asked size laps.length) size' t' l' r') ∧
      (x.data.length ≤ pos + asked size laps.length →
        handovers r'.log = handovers r.log ++ [(x.id, x.data)]) ∧
      (x.data.length ≤ pos + asked size (laps.length - 1) → Settled x l' r') := by
  induction laps generalizing pos size t l r with
  | nil =>
      have hlt := h.right.pos_lt
      exact ⟨l, r, rfl, fun _ => ⟨rfl, size, t, h⟩, fun hle => absurd hle (not_le.mpr hlt),
        fun hle => absurd hle (not_le.mpr hlt)⟩
  | cons a laps ih =>
      obtain ⟨l₁, r₁, hlap, hmore, hdone⟩ := lap_asking qt h hp.1.1 hp.1.2.2
      have hsum : pos + asked size (a :: laps).length =
          pos + size + asked (growFragmentSize size) laps.length := (add_assoc _ _ _).symm
      rw [run_laps, hlap, hsum, List.length_cons, Nat.add_sub_cancel]
      by_cases hlt : pos + size < x.data.length
      · obtain ⟨hasking, hsame⟩ := hmore hlt
        obtain ⟨l', r', hrun, hpart, hall, hend⟩ := ih hasking hp.2
        rw [hsame] at hpart hall
        refine ⟨l', r', hrun, hpart, hall, fun hle => hend ?_⟩
        cases laps with
        | nil => exact absurd hle (not_le.mpr h.right.pos_lt)
        | cons b laps => exact hle.trans (le_of_eq (add_assoc _ _ _).symm)
      · obtain ⟨hreporting, hnew⟩ := hdone (not_lt.mp hlt)
        obtain ⟨l', r', hrun, hsame, hend⟩ := run_reporting qt hreporting hp.2
        refine ⟨l', r', hrun, fun hlt' => absurd hlt' (by omega), fun _ => hsame.trans hnew, fun hle => hend ?_⟩
        rintro rfl
        exact absurd hle (not_le.mpr h.right.pos_lt)

/-- The first two moves: the message is announced. -/
def opening (t : TimePoint) : List Move := [.own .left (.write 0 t t), .deliver .right 0 false ⟨t, t, false, false⟩]

theorem run_opening (qt : Qt) (t : TimePoint) (hl : l.Offering x x.data.length size) (hw : r.hasWriter = true)
    (hposted : r.posted = []) (hnone : r.fragmentedMessages x.id = none) (hnext : r.nextRxMsgId = x.id)
    (hids : r.nextTxMsgId = l.nextRxMsgId) (hsize : 32 ≤ size ∧ size ≤ maxPacketDataSize)
    (hgrow : growFragmentSize size < x.data.length) :
    ∃ l' r', (both l r [] []).run qt (opening t) = both l' r' [] [] ∧
      Asking x 0 (growFragmentSize size) t l' r' ∧ handovers r'.log = handovers r.log := by
  have hgrown := sized_grow hsize
  have hle : size ≤ growFragmentSize size := by
    unfold growFragmentSize
    split_ifs <;> omega
  obtain ⟨hl₁, pkt, hpkts, hpid, hpcmd, hpo, hpc⟩ := write_offering qt t hl (lt_of_le_of_lt hle hgrow)
  rw [if_pos rfl] at hpc
  have henv : (⟨t, t, false, false⟩ : Env).openFails = false := rfl
  have hone : 1 ≤ size ∧ size ≤ maxPacketDataSize := ⟨by omega, hsize.2⟩
  obtain ⟨hasks, hhanded⟩ := step_first hw hposted hnone hpid hnext hpcmd hpo henv (by omega) hone hpc
  have h₁ : (both l r [] []).step qt (.own .left (.write 0 t t)) = both (l.write qt 0 t t).1 r [] [pkt] := by
    rw [← hpkts]
    exact act_left _
  refine ⟨(l.write qt 0 t t).1, (r.step qt (.receive pkt ⟨t, t, false, false⟩)).1, ?_, ⟨hl₁, hasks, ?_, hgrown, ?_⟩,
    hhanded⟩
  · simp only [run, opening, List.foldl_cons, List.foldl_nil, h₁, deliver_right]
  · rw [nextTx_receive, hids, (sameRx_write qt l 0 t t).next]
  · rw [Nat.sub_zero, min_eq_left (le_of_lt hgrow), clampFragmentSize, if_neg (by omega), if_neg (by omega)]
    exact hgrow

theorem run_transfer (qt : Qt) (hl : l.Offering x x.data.length size) (hw : r.hasWriter = true)
    (hposted : r.posted = []) (hnone : r.fragmentedMessages x.id = none) (hnext : r.nextRxMsgId = x.id)
    (hids : r.nextTxMsgId = l.nextRxMsgId) (hgrow : growFragmentSize size < x.data.length) (hp : Prompt t laps) :
    let n := asked (growFragmentSize size) laps.length
    ∃ l' r', (both l r [] []).run qt (opening t ++ laps.flatMap Lap.moves) = both l' r' [] [] ∧
      (n < x.data.length → handovers r'.log = handovers r.log ∧ ∃ size' t', Asking x n size' t' l' r') ∧
      (x.data.length ≤ n → handovers r'.log = handovers r.log ++ [(x.id, x.data)]) ∧
      (x.data.length ≤ asked (growFragmentSize size) (laps.length - 1) → Settled x l' r') := by
  intro n
  have hsize := hl.sized
  obtain ⟨l₁, r₁, hopen, hasking, hsame⟩ := run_opening qt t hl hw hposted hnone hnext hids hsize hgrow
  obtain ⟨l', r', hrun, hpart, hall, hend⟩ := run_asking qt hasking hp
  simp only [hsame, Nat.zero_add] at hpart hall hend
  refine ⟨l', r', ?_, hpart, hall, hend⟩
  rw [run, List.foldl_append]
  change ((both l r [] []).run qt (opening t)).run qt _ = _
  rw [hopen, hrun]

theorem mul_le_asked (h : 32 ≤ size ∧ size ≤ maxPacketDataSize) (k : ℕ) : 32 * k ≤ asked size k := by
  induction k generalizing size with
  | zero => exact le_rfl
  | succ k ih =>
      have hk := ih (sized_grow h)
      rw [asked]
      omega

/-- Thirty-two bytes a lap are enough. -/
theorem delivered_within (qt : Qt) (hl : l.Offering x x.data.length size) (hw : r.hasWriter = true)
    (hposted : r.posted = []) (hnone : r.fragmentedMessages x.id = none) (hnext : r.nextRxMsgId = x.id)
    (hids : r.nextTxMsgId = l.nextRxMsgId) (hgrow : growFragmentSize size < x.data.length) (hp : Prompt t laps)
    (hlaps : x.data.length ≤ 32 * (laps.length - 1)) :
    ∃ l' r', (both l r [] []).run qt (opening t ++ laps.flatMap Lap.moves) = both l' r' [] [] ∧
      handovers r'.log = handovers r.log ++ [(x.id, x.data)] ∧ Settled x l' r' := by
  obtain ⟨l', r', hrun, _, hall, hend⟩ := run_transfer qt hl hw hposted hnone hnext hids hgrow hp
  have hmost := mul_le_asked (sized_grow hl.sized) (laps.length - 1)
  have hmore := mul_le_asked (sized_grow hl.sized) laps.length
  exact ⟨l', r', hrun, hall (by omega), hend (by omega)⟩

end System

end HelpzNet
