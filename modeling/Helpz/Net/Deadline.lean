import Helpz.Net.Silence

/-!
# The deadline of the caller

`Protocol_Sender::timeout` sets the deadline of a message; `answer` only moves one that has passed. The
timer calls the timeout function of a message that is past its deadline. `prepare_packet_to_send` overwrites
the deadline with ten seconds from now whenever it sends the message as a fragment, also when the caller
has set a later one.

* `le_endTime_buildItem`: the deadline of a message when it is sent;
* `Honours u T`: item `u` does not time out before `T`, and wherever it is held its deadline is not before
  `T`; kept by every action (`Honours.step`) as long as `T` is at most ten seconds away when the item is
  sent as a fragment (`FragmentsLate`).
-/

namespace HelpzNet

open HelpzLib

/-- The call is no call of `timeout`. -/
def SenderCall.SetsNoDeadline : SenderCall → Prop
  | .timeout _ _ _ _ => False
  | _ => True

theorem MessageItem.le_endTime_apply {T : TimePoint} {m : MessageItem} (h : T ≤ m.endTime) {c : SenderCall}
    (hc : c.SetsNoDeadline) : T ≤ (m.apply c).endTime := by
  cases c with
  | timeout func now duration resend => exact hc.elim
  | answer func now =>
      simp only [MessageItem.apply]
      split_ifs with hpassed
      · have hten : (0 : ℤ) ≤ seconds 10 := by decide
        exact (h.trans (le_of_lt hpassed)).trans (le_add_of_nonneg_right hten)
      · exact h
  | _ => exact h

theorem le_endTime_foldl {T : TimePoint} {m : MessageItem} (h : T ≤ m.endTime) {calls : List SenderCall}
    (hc : ∀ c ∈ calls, c.SetsNoDeadline) : T ≤ (calls.foldl MessageItem.apply m).endTime := by
  induction calls generalizing m with
  | nil => exact h
  | cons c calls ih =>
      have hfirst := MessageItem.le_endTime_apply h (hc c List.mem_cons_self)
      exact ih hfirst fun x hx => hc x (List.mem_cons_of_mem _ hx)

/-- **The deadline set by the last call of `timeout` is in force when the message is sent.** -/
theorem le_endTime_buildItem (uid : ℕ) (cmd : UInt8) (a : Option UInt8) (calls later : List SenderCall)
    (func : Bool) (now duration resend : TimePoint) (hc : ∀ c ∈ later, c.SetsNoDeadline) :
    now + duration ≤
      (buildItem uid cmd a (calls ++ .timeout func now duration resend :: later)).endTime := by
  rw [buildItem, List.foldl_append, List.foldl_cons]
  exact le_endTime_foldl le_rfl hc

namespace Protocol

variable {qt : Qt} {u : ℕ} {T : TimePoint} {p : Protocol} {a : Action}

/-- If the action is the writing of a fragment of item `u`, `T` is at most ten seconds away. -/
def FragmentsLate (u : ℕ) (T : TimePoint) (p : Protocol) : Action → Prop
  | .write i now₁ _ => ∀ m d, p.posted[i]? = some m → m.uid = u → m.dataDevice = some d →
      d.size > m.fragmentSize → T ≤ now₁ + seconds 10
  | _ => True

instance (u : ℕ) (T : TimePoint) (p : Protocol) : (a : Action) → Decidable (p.FragmentsLate u T a)
  | .write i now₁ _ => decidable_of_iff ((p.posted[i]?).all (fun m => m.dataDevice.all fun d =>
      decide (m.uid = u → d.size > m.fragmentSize → T ≤ now₁ + seconds 10)) = true) (by
        simp only [FragmentsLate, Option.all_eq_true, decide_eq_true_eq]
        exact ⟨fun h m d hm hu hd => h m hm d hd hu, fun h m hm d hd hu => h m d hm hu hd⟩)
  | .send _ _ _ => isTrue trivial
  | .timer _ _ _ => isTrue trivial
  | .receive _ _ => isTrue trivial

/-- The item exists, wherever it is held its deadline is `T` or later, and its timeout function was not
called before `T`. -/
structure Honours (u : ℕ) (T : TimePoint) (p : Protocol) : Prop where
  created : u < p.alloc
  held : ∀ m ∈ p.held, m.uid = u → T ≤ m.endTime ∧ m.dataDevice.isSome = true
  calls : ∀ t, .timeoutFunc u t ∈ p.log → T ≤ t

/-- The event is no call of the timeout function of `u` before `T`. -/
def NotEarly (u : ℕ) (T : TimePoint) (e : Event) : Prop := ∀ t, e = .timeoutFunc u t → T ≤ t

theorem notEarly_of_calm (e : Event) (h : e.Calm) : NotEarly u T e := by
  rintro t rfl
  cases h.untimed

theorem Honours.notEarly (h : Honours u T p) {now₁ now₂ : TimePoint} {m : MessageItem}
    (hm : m ∈ (p.popWaitingMessages now₁).1) (hr : isResent now₂ m = false) :
    NotEarly u T (.timeoutFunc m.uid now₂) := by
  intro t ht
  obtain ⟨hu, rfl⟩ := Event.timeoutFunc.inj ht
  obtain ⟨hend, hdev⟩ := h.held m (mem_held.mpr (Or.inr (mem_waiting_of_popped hm))) hu
  rw [isResent, hdev, Bool.and_true, decide_eq_false_iff_not] at hr
  exact hend.trans (not_lt.mp hr)

theorem Honours.events (h : Honours u T p) (qt : Qt) (a : Action) :
    ∃ evs, (p.step qt a).1.log = p.log ++ evs ∧ ∀ e ∈ evs, NotEarly u T e := by
  by_cases hw : ∃ i now₁ now₂, a = .write i now₁ now₂
  · obtain ⟨i, now₁, now₂, rfl⟩ := hw
    exact events_write notEarly_of_calm (fun _ _ _ => nofun) (fun _ _ _ _ => nofun) qt p i now₁ now₂
  · refine (effects_step notEarly_of_calm (fun _ _ => nofun) qt p ?_ (fun _ _ _ _ => nofun) ?_).log
    · intro i now₁ now₂ he
      exact hw ⟨i, now₁, now₂, he⟩
    · intro now₁ now₂ _ m hm hr
      exact h.notEarly hm hr

/-- **Every action honours the deadline**, if it does not send a fragment too early. -/
theorem Honours.step (h : Honours u T p) (qt : Qt) (hlate : p.FragmentsLate u T a) :
    Honours u T (p.step qt a).1 := by
  refine ⟨lt_of_lt_of_le h.created (posts_step qt p a).alloc, fun m hm hu => ?_, fun t ht => ?_⟩
  · cases heldBy_step hm with
    | kept hm => exact h.held m hm hu
    | new hnew =>
        have hlt := h.created
        have hle := hnew.1
        omega
    | @resent _ _ x hx _ => exact h.held x hx hu
    | @queried _ _ pos size x hx =>
        obtain ⟨hend, hdev⟩ := h.held x hx hu
        refine ⟨hend, ?_⟩
        simp only [MessageItem.queried, MessageItem.seek, MessageItem.setFragmentSize, Option.isSome_map]
        exact hdev
    | @written i now₁ now₂ x d hx hd =>
        have hxu : x.uid = u := hu
        refine ⟨?_, rfl⟩
        simp only [packedItem]
        split_ifs with hbig
        · exact hlate x d hx hxu hd hbig
        · exact (h.held x (mem_held.mpr (Or.inl (List.mem_of_getElem? hx))) hxu).1
  · obtain ⟨evs, hlog, hevs⟩ := h.events qt a
    rw [hlog] at ht
    rcases List.mem_append.mp ht with ht | ht
    · exact h.calls t ht
    · exact hevs _ ht t rfl

theorem Honours.run (h : Honours u T p) (qt : Qt) {acts : List Action}
    (hlate : Along (fun p a => some (p.step qt a).1) (FragmentsLate u T) p acts) :
    Honours u T (p.run qt acts) := by
  induction acts generalizing p with
  | nil => exact h
  | cons a acts ih => exact ih (h.step qt hlate.1) (hlate.2 _ rfl)

theorem alloc_sendItem (p : Protocol) (m : MessageItem) : (p.sendItem m).alloc = p.alloc + 1 := by
  unfold sendItem sendMessage
  simp only
  split_ifs <;> rfl

theorem honours_send (qt : Qt) (acts : List Action) (cmd : UInt8) (a : Option UInt8) {calls : List SenderCall}
    (hT : T ≤ (buildItem (fresh.run qt acts).alloc cmd a calls).endTime) :
    Honours (fresh.run qt acts).alloc T (fresh.run qt (acts ++ [.send cmd a calls])) := by
  have hl := ledger_run qt acts
  rw [run_append]
  set p := fresh.run qt acts with hp
  have hdev : ((buildItem p.alloc cmd a calls).dataDevice).isSome = true := by
    obtain ⟨d, hd⟩ := (unsent_buildItem p.alloc cmd a calls).device
    rw [hd]
    rfl
  have hposts : Posts (· = (buildItem p.alloc cmd a calls).seek (buildItem p.alloc cmd a calls).payload.length) p
      (p.sendItem (buildItem p.alloc cmd a calls)) := posts_sendItem p rfl
  have heff : Effects (NotEarly p.alloc T) NoEntry p (p.sendItem (buildItem p.alloc cmd a calls)) :=
    effects_sendItem notEarly_of_calm p fun _ => nofun
  have hold : ∀ m ∈ p.held, m.uid ≠ p.alloc := by
    intro m hm
    obtain ⟨x, hx, rfl⟩ := exists_holding hm
    exact ne_of_lt (hl.uid_lt hx)
  refine ⟨?_, fun m hm hu => ?_, fun t ht => ?_⟩
  · exact lt_of_lt_of_eq (Nat.lt_succ_self _) (alloc_sendItem p _).symm
  · rcases mem_held.mp hm with hm | hm
    · rcases hposts.posted m hm with hm | rfl
      · exact absurd hu (hold m (mem_held.mpr (Or.inl hm)))
      · refine ⟨hT, ?_⟩
        simp only [MessageItem.seek, Option.isSome_map]
        exact hdev
    · obtain ⟨k, hk⟩ := SortedMap.mem_values.mp hm
      have hkept := (heff.waiting _ hk).resolve_right id
      exact absurd hu (hold m (mem_held.mpr (Or.inr (SortedMap.mem_values.mpr ⟨k, hkept⟩))))
  · obtain ⟨evs, hlog, hevs⟩ := heff.log
    change Event.timeoutFunc p.alloc t ∈ (p.sendItem _).log at ht
    rw [hlog] at ht
    rcases List.mem_append.mp ht with ht | ht
    · -- nothing was recorded for an identity that was not given out
      have hmem : Event.timeoutFunc p.alloc t ∈ history p.alloc p.log :=
        List.mem_filter.mpr ⟨ht, decide_eq_true rfl⟩
      rw [show history p.alloc p.log = [] from hl.fresh p.alloc le_rfl] at hmem
      cases hmem
    · exact hevs _ ht t rfl

/-- **The deadline of the caller is honoured** in every run in which the message is sent as a fragment only
when the deadline is at most ten seconds away. -/
theorem deadline_honoured (qt : Qt) (before : List Action) (cmd : UInt8) (a : Option UInt8)
    (calls later : List SenderCall) (func : Bool) (now duration resend : TimePoint)
    (hlast : ∀ c ∈ later, c.SetsNoDeadline) (after : List Action)
    (hlate : Along (fun p act => some (p.step qt act).1)
      (FragmentsLate (fresh.run qt before).alloc (now + duration))
      (fresh.run qt (before ++ [.send cmd a (calls ++ .timeout func now duration resend :: later)])) after) :
    ∀ t, .timeoutFunc (fresh.run qt before).alloc t ∈ (fresh.run qt
        (before ++ .send cmd a (calls ++ .timeout func now duration resend :: later) :: after)).log →
      now + duration ≤ t := by
  have hT := le_endTime_buildItem (fresh.run qt before).alloc cmd a calls later func now duration resend hlast
  have hrun := (honours_send qt before cmd a hT).run qt hlate
  rw [← run_append, List.append_assoc] at hrun
  exact hrun.calls

/-- A message of one byte, with a deadline after twenty seconds; it is resent once and then times out. -/
def oneByte : List SenderCall := [.write [7], .answer true 0, .timeout true 0 (seconds 20) (seconds 15)]

theorem deadline_honoured_oneByte :
    (.timeoutFunc 0 (seconds 20) ∈ (fresh.run Qt.storing [.send 16 none oneByte, .write 0 0 0,
      .timer .null (seconds 15) (seconds 15), .write 0 (seconds 15) (seconds 15),
      .timer .null (seconds 20) (seconds 20)]).log) ∧
    ∀ t, .timeoutFunc 0 t ∈ (fresh.run Qt.storing [.send 16 none oneByte, .write 0 0 0,
      .timer .null (seconds 15) (seconds 15), .write 0 (seconds 15) (seconds 15),
      .timer .null (seconds 20) (seconds 20)]).log → 0 + seconds 20 ≤ t := by
  refine ⟨by decide, deadline_honoured Qt.storing [] 16 none [.write [7], .answer true 0] [] true 0 (seconds 20)
    (seconds 15) (fun c hc => (nomatch hc)) _ ?_⟩
  decide

/-- **A fragment forgets the deadline**: a message of two fragments with a deadline after twenty seconds
times out after ten. -/
theorem fragment_forgets_deadline : ¬ ∀ (qt : Qt) (before : List Action) (cmd : UInt8) (a : Option UInt8)
    (calls later : List SenderCall) (func : Bool) (now duration resend : TimePoint),
    (∀ c ∈ later, c.SetsNoDeadline) → ∀ (after : List Action) (t : TimePoint),
      .timeoutFunc (fresh.run qt before).alloc t ∈ (fresh.run qt
        (before ++ .send cmd a (calls ++ .timeout func now duration resend :: later) :: after)).log →
      now + duration ≤ t := by
  intro h
  have hten := h Qt.storing [] 16 none [.setFragmentSize 32, .write (List.replicate 33 0)] [] true 0 (seconds 20)
    (seconds 30) (fun c hc => (nomatch hc)) [.write 0 0 0, .timer .null (seconds 10) (seconds 10)] (seconds 10)
    (by decide)
  revert hten
  decide

end Protocol

end HelpzNet
