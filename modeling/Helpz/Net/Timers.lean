import Helpz.Net.Effects
import Helpz.Net.Custody
import Helpz.Lib.Run
import Mathlib.Tactic.Linarith

/-!
# The timers of the waiting list

`Protocol_Timer` keeps the time points it was given by `add_timeout_at` and calls `process_wait_list`
for each, at most 10 ms early; `pop_waiting_messages` takes what is due within 20 ms. An item that
`process_fragment_query` puts back on the waiting list gets no timer of its own.

* `TimedProtocol`, `step`: an endpoint with its timers that have not fired;
* `Rearmed`: the condition, on the state before a fragment query;
* `Armed`: each waiting item has a timer that will pop it, kept by each step (`armed_step`);
* `armed_run`: over every run.
-/

namespace HelpzNet

open HelpzLib

/-- The timer the event adds. -/
def Event.timer : Event → Option (TimePoint × TimerData)
  | .addTimeoutAt time data => some (time, data)
  | _ => none

/-- An endpoint with the timers that were added for it and have not fired. A timer has fired when
`process_wait_list` was called for it. -/
structure TimedProtocol where
  protocol : Protocol
  pending : List (TimePoint × TimerData)

/-- What can happen at the endpoint: an action other than the call of `process_wait_list`, or this call
for a timer. -/
inductive TimedAction
  | act (a : Action)
  | fire (time : TimePoint) (data : TimerData) (now₁ now₂ : TimePoint)

theorem due_within {t time now : TimePoint} (ht : t - milliseconds 10 ≤ time)
    (hdue : time ≤ now + milliseconds 10) : t ≤ now + milliseconds 20 := by
  have h20 : milliseconds 20 = milliseconds 10 + milliseconds 10 := by decide
  linarith

namespace TimedProtocol

def fresh : TimedProtocol := ⟨.fresh, []⟩

/-- The endpoint with protocol object `q`, whose new timers are pending. -/
def advance (s : TimedProtocol) (pending : List (TimePoint × TimerData)) (q : Protocol) : TimedProtocol :=
  ⟨q, pending ++ (q.log.drop s.protocol.log.length).filterMap Event.timer⟩

/-- `Protocol_Timer::run` fires a timer from 10 ms before its time on. -/
def step (qt : Qt) (s : TimedProtocol) : TimedAction → Option TimedProtocol
  | .act (.timer _ _ _) => none
  | .act a => some (s.advance s.pending (s.protocol.step qt a).1)
  | .fire time data now₁ now₂ =>
      if (time, data) ∈ s.pending ∧ time ≤ now₁ + milliseconds 10 then
        some (s.advance (s.pending.erase (time, data)) (s.protocol.step qt (.timer data now₁ now₂)).1)
      else none

/-- When a fragment query puts an item back on the waiting list, a timer is pending that does not fire too
early for it. -/
def Rearmed (qt : Qt) (s : TimedProtocol) : TimedAction → Prop
  | .act a => ∀ x, s.protocol.PutsBack qt a x → ∃ t, (t, .null) ∈ s.pending ∧ x.1 - milliseconds 10 ≤ t
  | .fire _ _ _ _ => True

variable {qt : Qt} {s s' : TimedProtocol}

theorem pending_advance {pending : List (TimePoint × TimerData)} {q : Protocol} {evs : List Event}
    (h : q.log = s.protocol.log ++ evs) :
    (s.advance pending q).pending = pending ++ evs.filterMap Event.timer := by
  rw [advance, h, List.drop_left]

end TimedProtocol

namespace Protocol

theorem timer_write (qt : Qt) {p : Protocol} (hw : p.hasWriter = true) (i : ℕ) (now₁ now₂ : TimePoint) :
    (p.write qt i now₁ now₂).1.hasWriter = true ∧ ∃ evs, (p.write qt i now₁ now₂).1.log = p.log ++ evs ∧
      ∀ x ∈ (p.write qt i now₁ now₂).1.waitingMessages.items,
        x ∈ p.waitingMessages.items ∨ .addTimeoutAt x.1 .null ∈ evs := by
  cases hm : p.posted[i]? with
  | none =>
      rw [write_of_none hm]
      exact ⟨hw, [], (List.append_nil _).symm, fun x hx => Or.inl hx⟩
  | some m =>
  let q : Protocol := { p with posted := p.posted.eraseIdx i }
  have hwrite : (p.write qt i now₁ now₂).1 = (preparePacketToSend qt q m now₁ now₂).2 :=
    write_of_posted hm qt now₁ now₂
  rw [hwrite]
  cases hd : m.dataDevice with
  | none =>
      simp only [preparePacketToSend, hd]
      exact ⟨hw, _, rfl, fun x hx => Or.inl hx⟩
  | some d =>
  have hassign : (q.afterSent qt m d now₂).hasWriter = true ∧
      (q.afterSent qt m d now₂).waitingMessages = p.waitingMessages ∧
      ∃ evs, (q.afterSent qt m d now₂).log = p.log ++ evs := by
    unfold afterSent assignId
    cases m.id with
    | none => exact ⟨hw, rfl, _, List.append_assoc _ _ _⟩
    | some j => exact ⟨hw, rfl, _, rfl⟩
  obtain ⟨hw', hwait, evs, hlog⟩ := hassign
  rw [preparePacketToSend_some qt q hd]
  generalize q.afterSent qt m d now₂ = r at hw' hwait hlog ⊢
  generalize packedItem m d (q.assignId m).1 now₁ = m'
  split_ifs with hend
  · have heff := effects_addToWaiting (C := fun _ => True) (fun _ _ => trivial) r (waitPoint m' now₂) m'
    obtain ⟨evs', hlog', _⟩ := heff.log
    have hwr : (r.addToWaiting (waitPoint m' now₂) m').hasWriter = true := heff.hasWriter.trans hw'
    rw [addTimeoutAt, if_pos hwr]
    refine ⟨hwr, evs ++ evs' ++ [.addTimeoutAt (waitPoint m' now₂) .null], ?_, fun x hx => ?_⟩
    · rw [emit, hlog', hlog, List.append_assoc, List.append_assoc, List.append_assoc]
    · rcases heff.waiting x hx with hx | rfl
      · exact Or.inl (hwait ▸ hx)
      · exact Or.inr (List.mem_append_right _ List.mem_cons_self)
  · refine ⟨hw', evs ++ m'.destroy .unwaited, ?_, fun x hx => Or.inl (hwait ▸ hx)⟩
    rw [emit, hlog, List.append_assoc]

end Protocol

namespace TimedProtocol

variable {qt : Qt} {s s' : TimedProtocol}

/-- Each waiting item has a pending timer, at most 10 ms before the time it is listed under. -/
structure Armed (s : TimedProtocol) : Prop where
  hasWriter : s.protocol.hasWriter = true
  timer : ∀ x ∈ s.protocol.waitingMessages.items, ∃ t, (t, .null) ∈ s.pending ∧ x.1 - milliseconds 10 ≤ t

theorem armed_fresh : fresh.Armed := ⟨rfl, fun _ h => (nomatch h)⟩

theorem Armed.advance (h : s.Armed) {q : Protocol} (hw : q.hasWriter = true) {evs : List Event}
    (hlog : q.log = s.protocol.log ++ evs) (hnew : ∀ x ∈ q.waitingMessages.items,
      x ∈ s.protocol.waitingMessages.items ∨ .addTimeoutAt x.1 .null ∈ evs ∨
        ∃ t, (t, .null) ∈ s.pending ∧ x.1 - milliseconds 10 ≤ t) : (s.advance s.pending q).Armed := by
  refine ⟨hw, fun x hx => ?_⟩
  rw [pending_advance hlog]
  rcases hnew x hx with hx | hx | ⟨t, ht, hle⟩
  · obtain ⟨t, ht, hle⟩ := h.timer x hx
    exact ⟨t, List.mem_append_left _ ht, hle⟩
  · refine ⟨x.1, List.mem_append_right _ (List.mem_filterMap.mpr ⟨_, hx, rfl⟩), ?_⟩
    exact sub_le_self _ (by decide)
  · exact ⟨t, List.mem_append_left _ ht, hle⟩

theorem armed_act (h : s.Armed) {a : Action} (hr : s.Rearmed qt (.act a))
    (ha : ∀ data now₁ now₂, a ≠ .timer data now₁ now₂) :
    (s.advance s.pending (s.protocol.step qt a).1).Armed := by
  by_cases hwrite : ∃ i now₁ now₂, a = .write i now₁ now₂
  · obtain ⟨i, now₁, now₂, rfl⟩ := hwrite
    obtain ⟨hw, evs, hlog, hnew⟩ := Protocol.timer_write qt h.hasWriter i now₁ now₂
    exact h.advance hw hlog fun x hx => (hnew x hx).imp_right Or.inl
  · have heff := Protocol.unsent_step qt s.protocol fun i now₁ now₂ he => hwrite ⟨i, now₁, now₂, he⟩
    obtain ⟨evs, hlog, _⟩ := heff.log
    exact h.advance (heff.hasWriter.trans h.hasWriter) hlog fun x hx =>
      (heff.waiting x hx).imp_right fun hx => Or.inr (hr x hx)

/-- **A timer that fires pops what it stands for**: what stays on the list has another one. -/
theorem armed_fire (h : s.Armed) {time now₁ : TimePoint} (hdue : time ≤ now₁ + milliseconds 10)
    (data : TimerData) (now₂ : TimePoint) :
    (s.advance (s.pending.erase (time, data)) (s.protocol.step qt (.timer data now₁ now₂)).1).Armed := by
  have heff := Protocol.unsent_step qt s.protocol (a := .timer data now₁ now₂) fun _ _ _ => nofun
  obtain ⟨evs, hlog, _⟩ := heff.log
  refine ⟨heff.hasWriter.trans h.hasWriter, fun x hx => ?_⟩
  have hold : x ∈ s.protocol.waitingMessages.items := by
    refine (heff.waiting x hx).resolve_right ?_
    rintro ⟨_, _, _, _, _, _, he, _⟩
    cases he
  obtain ⟨t, ht, hle⟩ := h.timer x hold
  refine ⟨t, ?_, hle⟩
  rw [pending_advance hlog]
  refine List.mem_append_left _ ((List.mem_erase_of_ne ?_).mpr ht)
  intro he
  obtain ⟨rfl, rfl⟩ := Prod.mk.inj he
  have hstay := (Protocol.effects_popped (C := fun _ => True) (fun _ _ => trivial) s.protocol now₁ now₂
    fun _ _ _ => trivial).waiting x hx
  have hlt := SortedMap.lt_of_mem_popUpTo (hstay.resolve_right id)
  exact absurd (due_within hle hdue) (not_le.mpr hlt)

theorem armed_step (s : TimedProtocol) (a : TimedAction) (s' : TimedProtocol) (h : s.Armed)
    (hr : s.Rearmed qt a) (hs : s.step qt a = some s') : s'.Armed := by
  cases a with
  | fire time data now₁ now₂ =>
      simp only [step] at hs
      split_ifs at hs with hdue
      exact Option.some.inj hs ▸ armed_fire h hdue.2 data now₂
  | act a =>
      cases a with
      | timer data now₁ now₂ => cases hs
      | send cmd answerId calls => exact Option.some.inj hs ▸ armed_act h hr fun _ _ _ => nofun
      | write i now₁ now₂ => exact Option.some.inj hs ▸ armed_act h hr fun _ _ _ => nofun
      | receive pkt env => exact Option.some.inj hs ▸ armed_act h hr fun _ _ _ => nofun

/-- **Every waiting message has an armed timer**, in each run in which a fragment query puts an item back
only when a timer for it is pending; and when that timer fires, `process_wait_list` pops the item. -/
theorem armed_run (qt : Qt) (acts : List TimedAction) (hr : Along (step qt) (Rearmed qt) fresh acts)
    (s : TimedProtocol) (hrun : acts.foldlM (step qt) fresh = some s) :
    ∀ x ∈ s.protocol.waitingMessages.items, ∃ t, (t, .null) ∈ s.pending ∧ x.1 - milliseconds 20 ≤ t ∧
      ∀ now₁ now₂ s', s.step qt (.fire t .null now₁ now₂) = some s' →
        x.2 ∈ (s.protocol.popWaitingMessages now₁).1 := by
  intro x hx
  obtain ⟨t, ht, hle⟩ := (hr.invariant armed_step armed_fresh hrun).timer x hx
  refine ⟨t, ht, ?_, fun now₁ now₂ s' hs => ?_⟩
  · exact le_trans (sub_le_sub_left (by decide) x.1) hle
  · simp only [step] at hs
    split_ifs at hs with hdue
    refine (SortedMap.mem_popUpTo hx _).resolve_right fun hstay => ?_
    exact absurd (due_within hle hdue.2) (not_le.mpr (SortedMap.lt_of_mem_popUpTo hstay))

/-- A message that waits for an answer until `duration`, to be sent again after `resend`, and a fragment
query past its end. -/
def answeredLate (duration resend : TimePoint) : List TimedAction :=
  [.act (.send 16 none [.write [7], .answer true 0, .timeout true 0 duration resend]), .act (.write 0 0 0),
    .act (.receive ⟨0, 16, Flag.fragmentQuery, Protocol.queryData 0 (1, 1)⟩ Env.quiet)]

/-- The timer at the deadline is pending when the item is put back. -/
theorem armed_run_answeredLate :
    ∃ s, (answeredLate (seconds 5) (seconds 5)).foldlM (step Qt.storing) fresh = some s ∧
      ∀ x ∈ s.protocol.waitingMessages.items, ∃ t, (t, .null) ∈ s.pending ∧ x.1 - milliseconds 20 ≤ t ∧
        ∀ now₁ now₂ s', s.step Qt.storing (.fire t .null now₁ now₂) = some s' →
          x.2 ∈ (s.protocol.popWaitingMessages now₁).1 := by
  refine ⟨_, rfl, armed_run Qt.storing (answeredLate (seconds 5) (seconds 5)) ?_ _ rfl⟩
  refine ⟨?_, fun s₁ h₁ => ⟨?_, fun s₂ h₂ => ⟨?_, fun _ _ => trivial⟩⟩⟩
  · rintro x ⟨_, _, _, _, _, _, he, _⟩
    cases he
  · rintro x ⟨_, _, _, _, _, _, he, _⟩
    cases he
  · rintro x ⟨_, _, id, pos, _, m, _, _, _, hm, rfl⟩
    obtain rfl := Option.some.inj h₁
    obtain rfl := Option.some.inj h₂
    have hend : ∀ y ∈ ((((fresh.protocol.step Qt.storing (.send 16 none [.write [7], .answer true 0,
        .timeout true 0 (seconds 5) (seconds 5)])).1).step Qt.storing (.write 0 0 0)).1).waitingMessages.items,
        y.2.endTime = seconds 5 := by decide
    obtain ⟨k, hk⟩ := SortedMap.mem_values.mp (Protocol.mem_of_pop (Option.filter_eq_some_iff.mp hm).1)
    refine ⟨seconds 5, by decide, ?_⟩
    rw [hend _ hk]
    exact sub_le_self _ (by decide)

/-- Here the timer for sending again, at three seconds, finds nothing to pop and the item has no other. -/
theorem put_back_without_timer : ¬ ∀ (qt : Qt) (acts : List TimedAction) (s : TimedProtocol),
    acts.foldlM (step qt) fresh = some s → ∀ x ∈ s.protocol.waitingMessages.items,
      ∃ t, (t, .null) ∈ s.pending ∧ x.1 - milliseconds 20 ≤ t := by
  intro h
  let acts := answeredLate (seconds 20) (seconds 3) ++ [.fire (seconds 3) .null (seconds 3) (seconds 3)]
  have hend : (acts.foldlM (step Qt.storing) fresh).map (fun s =>
      (s.protocol.waitingMessages.items.map Prod.fst, s.pending)) = some ([seconds 20], []) := by decide
  obtain ⟨s, hs, he⟩ := Option.map_eq_some_iff.mp hend
  obtain ⟨hitems, hpending⟩ := Prod.mk.inj he
  obtain ⟨x, hx, _⟩ := List.mem_map.mp (hitems ▸ List.mem_singleton.mpr rfl)
  obtain ⟨t, ht, _⟩ := h Qt.storing acts s hs x hx
  rw [hpending] at ht
  cases ht

end TimedProtocol

end HelpzNet
