import Helpz.Net.Posting
import Helpz.Net.Effects
import Helpz.Net.Outcome
import Helpz.Net.Traffic
import Helpz.Lib.Run

/-!
# A peer that is silent

An item that was written waits until its deadline and is sent again by `process_wait_list` from time to
time. `prepare_packet_to_send` moves the deadline when it sends the item as a fragment, also when this is a
repetition; and each repetition halves the fragment size.

* `deadlineAfter`: the deadline in force after an item was written;
* `Fits`: the item is written again whole, and before its deadline;
* `Stops`: what is expected of each action then; `silence_stops`: over every run without an arrival.
-/

namespace HelpzNet

open HelpzLib

namespace Protocol

/-- The deadline of an item after it was written. -/
def deadlineAfter (m : MessageItem) (d : Device) (now : TimePoint) : TimePoint :=
  if d.size > m.fragmentSize then now + seconds 10 else m.endTime

/-- If the action is the writing of item `u`, it is sent whole and before `E`. -/
def Fits (u : ℕ) (E : TimePoint) (p : Protocol) : Action → Prop
  | .write i _ now₂ => ∀ m, p.posted[i]? = some m → m.uid = u →
      m.payload.length ≤ m.fragmentSize ∧ now₂ < E
  | _ => True

/-- What is expected of an action for item `u` with the deadline `E`: the deadline is not moved, the item
is neither sent nor posted again from it on, and when the timer takes it then, its timeout function is
called. -/
structure Stops (qt : Qt) (u : ℕ) (E : TimePoint) (p : Protocol) (a : Action) : Prop where
  before : ∀ m ∈ p.held, m.uid = u → m.endTime = E
  after : ∀ m ∈ (p.step qt a).1.held, m.uid = u → m.endTime = E
  sent : ∀ i now₁ now₂ m, a = .write i now₁ now₂ → p.posted[i]? = some m → m.uid = u → now₂ < E
  resent : ∀ now₁ now₂, a = .timer .null now₁ now₂ → ∀ m ∈ (p.step qt a).1.posted, m.uid = u →
    m ∈ p.posted ∨ now₂ < E
  timedOut : ∀ now₁ now₂ m, a = .timer .null now₁ now₂ → m ∈ (p.popWaitingMessages now₁).1 → m.uid = u →
    E ≤ now₂ → m.timeoutFunc = true → ∃ evs, (p.step qt a).1.log = p.log ++ evs ∧ .timeoutFunc u now₂ ∈ evs

variable {qt : Qt} {u : ℕ} {E : TimePoint} {p : Protocol} {a : Action}

theorem mem_waiting_of_popped {now : TimePoint} {m : MessageItem} (h : m ∈ (p.popWaitingMessages now).1) :
    m ∈ p.waitingMessages.values := by
  rw [SortedMap.values_popUpTo p.waitingMessages (now + milliseconds 20), Multiset.mem_add, Multiset.mem_coe]
  exact Or.inl h

/-! ## What is held -/

/-- Where an item that is held after an action comes from. -/
inductive HeldBy (p : Protocol) : Action → MessageItem → Prop
  | kept {a : Action} {m : MessageItem} : m ∈ p.held → HeldBy p a m
  | new {a : Action} {m : MessageItem} : p.IsNew m → HeldBy p a m
  | resent {now₁ now₂ : TimePoint} {m : MessageItem} : m ∈ p.held → isResent now₂ m = true →
      HeldBy p (.timer .null now₁ now₂) m.resent
  | queried {pkt : Packet} {env : Env} {pos size : ℕ} {m : MessageItem} : m ∈ p.held →
      HeldBy p (.receive pkt env) (m.queried pos size)
  | written {i : ℕ} {now₁ now₂ : TimePoint} {m : MessageItem} {d : Device} : p.posted[i]? = some m →
      m.dataDevice = some d → HeldBy p (.write i now₁ now₂) (packedItem m d (p.assignId m).1 now₁)

/-- **Whatever is held was held before, is new, was taken from the waiting list to be sent again, or was
written just now.** -/
theorem heldBy_step {m : MessageItem} (hm : m ∈ (p.step qt a).1.held) : HeldBy p a m := by
  have hwaits : ∀ {x : MessageItem}, x ∈ p.waitingMessages.values → x ∈ p.held :=
    fun hx => mem_held.mpr (Or.inr hx)
  rcases mem_held.mp hm with hm | hm
  · rcases (posts_step qt p a).posted m hm with hm | hm
    · exact .kept (mem_held.mpr (Or.inl hm))
    cases hm with
    | new hnew => exact .new hnew
    | resent hx hr => exact .resent (hwaits (mem_waiting_of_popped hx)) hr
    | queried _ hx => exact .queried (hwaits (mem_of_pop hx))
  · obtain ⟨k, hk⟩ := SortedMap.mem_values.mp hm
    by_cases hw : ∃ i now₁ now₂, a = .write i now₁ now₂
    · obtain ⟨i, now₁, now₂, rfl⟩ := hw
      rcases waiting_write hk with hk | ⟨x, d, hx, hd, he⟩
      · exact .kept (hwaits (SortedMap.mem_values.mpr ⟨k, hk⟩))
      · obtain ⟨_, rfl⟩ := Prod.mk.inj he
        exact .written hx hd
    · have heff := unsent_step qt p fun i now₁ now₂ he => hw ⟨i, now₁, now₂, he⟩
      rcases heff.waiting _ hk with hk | ⟨pkt, env, id, pos, size, x, _, _, _, hx, he⟩
      · exact .kept (hwaits (SortedMap.mem_values.mpr ⟨k, hk⟩))
      · -- put back as it was
        obtain ⟨_, rfl⟩ := Prod.mk.inj he
        obtain ⟨hpop, _⟩ := Option.filter_eq_some_iff.mp hx
        exact .kept (hwaits (mem_of_pop hpop))

/-! ## The deadline -/

/-- The item exists, and wherever it is held its deadline is `E`. -/
structure Keeping (u : ℕ) (E : TimePoint) (p : Protocol) : Prop where
  created : u < p.alloc
  held : ∀ m ∈ p.held, m.uid = u → m.endTime = E

/-- **Without an arrival no action moves the deadline of an item that fits.** -/
theorem Keeping.step (h : Keeping u E p) (qt : Qt) (ha : ∀ pkt env, a ≠ .receive pkt env) (hfit : p.Fits u E a) :
    Keeping u E (p.step qt a).1 := by
  refine ⟨lt_of_lt_of_le h.created (posts_step qt p a).alloc, fun m hm hu => ?_⟩
  cases heldBy_step hm with
  | kept hm => exact h.held m hm hu
  | new hnew =>
      have hlt := h.created
      have hle := hnew.1
      omega
  | @resent _ _ x hx _ => exact h.held x hx hu
  | queried _ => exact absurd rfl (ha _ _)
  | @written i now₁ now₂ x d hx hd =>
      have hxu : x.uid = u := hu
      have hlen : x.payload = d.data := by rw [MessageItem.payload, hd]; rfl
      have hsize := (hfit x hx hxu).1
      rw [hlen] at hsize
      simp only [packedItem, if_neg (not_lt.mpr hsize), gt_iff_lt, Device.size]
      exact h.held x (mem_held.mpr (Or.inl (List.mem_of_getElem? hx))) hxu

theorem held_write {i : ℕ} {now₁ now₂ : TimePoint} {x m : MessageItem} (hm : p.posted[i]? = some m)
    (hx : x ∈ (p.write qt i now₁ now₂).1.held) :
    (x ∈ p.posted.eraseIdx i ∨ x ∈ p.waitingMessages.values) ∨
      ∃ d, m.dataDevice = some d ∧ x = packedItem m d (p.assignId m).1 now₁ := by
  rcases mem_held.mp hx with hx | hx
  · rw [write_of_posted hm] at hx
    have hposted := (posts_preparePacketToSend (X := fun _ => False) qt _ m now₁ now₂).posted x hx
    exact Or.inl (Or.inl (hposted.resolve_right id))
  · obtain ⟨k, hk⟩ := SortedMap.mem_values.mp hx
    rcases waiting_write hk with hk | ⟨m', d, hm', hd, he⟩
    · exact Or.inl (Or.inr (SortedMap.mem_values.mpr ⟨k, hk⟩))
    · obtain rfl := Option.some.inj (hm.symm.trans hm')
      exact Or.inr ⟨d, hd, (Prod.mk.inj he).2⟩

theorem keeping_write (qt : Qt) (acts : List Action) {i : ℕ} {m : MessageItem} {d : Device}
    (hm : (fresh.run qt acts).posted[i]? = some m) (hd : m.dataDevice = some d) (now₁ now₂ : TimePoint) :
    Keeping m.uid (deadlineAfter m d now₁) (fresh.run qt (acts ++ [.write i now₁ now₂])) := by
  have hl := ledger_run qt acts
  rw [run_append]
  set p := fresh.run qt acts with hp
  obtain ⟨y, hy, hym⟩ := exists_holding (mem_held.mpr (Or.inl (List.mem_of_getElem? hm)))
  have hpost := posts_write (X := fun _ => False) qt p i now₁ now₂
  refine ⟨lt_of_lt_of_le (hym ▸ hl.uid_lt hy) hpost.alloc, fun x hx hu => ?_⟩
  rcases held_write hm hx with hold | ⟨d', hd', rfl⟩
  · exact absurd hu (hl.uid_ne hm hold)
  · obtain rfl := Option.some.inj (hd.symm.trans hd')
    rfl

/-! ## The timer -/

theorem timeoutFunc_resendAll (now : TimePoint) (l : List MessageItem) (p : Protocol) :
    ∃ evs, (l.foldl (resendOrExpire now) p).log = p.log ++ evs ∧
      ∀ m ∈ l, isResent now m = false → m.timeoutFunc = true → .timeoutFunc m.uid now ∈ evs := by
  induction l generalizing p with
  | nil => exact ⟨[], (List.append_nil _).symm, fun m hm => (nomatch hm)⟩
  | cons m l ih =>
      obtain ⟨evs, he, hevs⟩ := ih (resendOrExpire now p m)
      obtain ⟨first, hf, hfirst⟩ : ∃ first, (resendOrExpire now p m).log = p.log ++ first ∧
          (isResent now m = false → m.timeoutFunc = true → .timeoutFunc m.uid now ∈ first) := by
        unfold resendOrExpire
        split_ifs with hr ht
        · obtain ⟨evs, hl, _⟩ := (effects_sendMessage (C := fun _ => True) (fun _ _ => trivial) p m.resent).log
          exact ⟨evs, hl, fun hn => by rw [hr] at hn; cases hn⟩
        · exact ⟨[.timeoutFunc m.uid now], rfl, fun _ _ => List.mem_singleton.mpr rfl⟩
        · exact ⟨[], (List.append_nil _).symm, fun _ h => absurd h ht⟩
      refine ⟨first ++ evs, by rw [List.foldl_cons, he, hf, List.append_assoc], fun x hx hn ht => ?_⟩
      rcases List.mem_cons.mp hx with rfl | hx
      · exact List.mem_append_left _ (hfirst hn ht)
      · exact List.mem_append_right _ (hevs x hx hn ht)

theorem timeoutFunc_processWaitList (p : Protocol) {now₁ now₂ : TimePoint} {m : MessageItem}
    (hm : m ∈ (p.popWaitingMessages now₁).1) (hend : m.endTime ≤ now₂) (ht : m.timeoutFunc = true) :
    ∃ evs, (p.processWaitList .null now₁ now₂).log = p.log ++ evs ∧ .timeoutFunc m.uid now₂ ∈ evs := by
  obtain ⟨evs, he, hevs⟩ := timeoutFunc_resendAll now₂ (p.popWaitingMessages now₁).1
    (p.popWaitingMessages now₁).2
  have hn : isResent now₂ m = false := by
    rw [isResent, decide_eq_false (not_lt.mpr hend), Bool.false_and]
  refine ⟨evs ++ ((p.popWaitingMessages now₁).1.filter fun m => !isResent now₂ m).flatMap fun m =>
    m.destroy .timedOut, ?_, List.mem_append_left _ (hevs m hm hn ht)⟩
  simp only [processWaitList, emit, he, List.append_assoc]
  rfl

/-! ## Runs -/

theorem Keeping.stops (h : Keeping u E p) (qt : Qt) (ha : ∀ pkt env, a ≠ .receive pkt env) (hfit : p.Fits u E a) :
    Stops qt u E p a := by
  refine ⟨h.held, (h.step qt ha hfit).held, ?_, ?_, ?_⟩
  · rintro i now₁ now₂ m rfl hm hu
    exact (hfit m hm hu).2
  · rintro now₁ now₂ rfl m hm hu
    rcases (posts_step qt p (.timer .null now₁ now₂)).posted m hm with hm | hm
    · exact Or.inl hm
    cases hm with
    | new hnew =>
        have hlt := h.created
        have hle := hnew.1
        omega
    | @resent _ _ x hx hr =>
        have hE := h.held x (mem_held.mpr (Or.inr (mem_waiting_of_popped hx))) hu
        rw [isResent, Bool.and_eq_true, decide_eq_true_eq, hE] at hr
        exact Or.inr hr.1
  · rintro now₁ now₂ m rfl hm hu hle ht
    have hE := h.held m (mem_held.mpr (Or.inr (mem_waiting_of_popped hm))) hu
    obtain ⟨evs, hlog, hmem⟩ := timeoutFunc_processWaitList p hm (hE ▸ hle) ht
    exact ⟨evs, hlog, hu ▸ hmem⟩

theorem Keeping.run (h : Keeping u E p) (qt : Qt) {acts : List Action} (ha : arrivals acts = [])
    (hfit : Along (fun p a => some (p.step qt a).1) (Fits u E) p acts) {mid rest : List Action}
    (hsplit : acts = mid ++ a :: rest) : Stops qt u E (p.run qt mid) a := by
  induction mid generalizing p acts with
  | nil =>
      subst hsplit
      refine h.stops qt (fun pkt env he => ?_) hfit.1
      subst he
      cases ha
  | cons b mid ih =>
      subst hsplit
      have hb : ∀ pkt env, b ≠ .receive pkt env := by
        rintro pkt env rfl
        cases ha
      rw [List.cons_append, arrivals_cons, List.append_eq_nil_iff] at ha
      exact ih (h.step qt hb hfit.1) ha.2 (hfit.2 _ rfl) rfl

/-- **Repetitions to a silent peer stop**, if each is sent whole and before the deadline: in every run after
an item was written in which nothing arrives, its deadline stays, it is not sent again from then on, and
the timer that takes it calls its timeout function. -/
theorem silence_stops (qt : Qt) (acts : List Action) {i : ℕ} {m : MessageItem} {d : Device}
    (hm : (fresh.run qt acts).posted[i]? = some m) (hd : m.dataDevice = some d) (now₁ now₂ : TimePoint)
    (later : List Action) (hsilent : arrivals later = [])
    (hfit : Along (fun p a => some (p.step qt a).1) (Fits m.uid (deadlineAfter m d now₁))
      (fresh.run qt (acts ++ [.write i now₁ now₂])) later) :
    ∀ mid a rest, later = mid ++ a :: rest →
      Stops qt m.uid (deadlineAfter m d now₁) (fresh.run qt (acts ++ .write i now₁ now₂ :: mid)) a := by
  intro mid a rest hsplit
  have h := (keeping_write qt acts hm hd now₁ now₂).run qt hsilent hfit hsplit
  rwa [← run_append, List.append_assoc] at h

/-- A small message that may be sent twice before its timeout. -/
def patientRun : List Action := [.send 16 none [.write [7], .timeout true 0 (seconds 5) (seconds 3)]]

theorem silence_stops_patientRun :
    ∃ m d, (fresh.run Qt.storing patientRun).posted[0]? = some m ∧ m.dataDevice = some d ∧
      deadlineAfter m d 0 = seconds 5 ∧
      Stops Qt.storing m.uid (deadlineAfter m d 0)
        (fresh.run Qt.storing (patientRun ++ .write 0 0 0 :: [.timer .null (seconds 3) (seconds 3)]))
        (.write 0 (seconds 3) (seconds 3)) := by
  let m : MessageItem := (buildItem 0 16 none [.write [7], .timeout true 0 (seconds 5) (seconds 3)]).seek 1
  let d : Device := ⟨[7], 1, le_rfl⟩
  refine ⟨m, d, rfl, rfl, rfl, ?_⟩
  refine silence_stops Qt.storing patientRun (i := 0) (m := m) (d := d) rfl rfl 0 0
    [.timer .null (seconds 3) (seconds 3), .write 0 (seconds 3) (seconds 3)] rfl ?_ [_] _ [] rfl
  refine ⟨trivial, fun p hp => ⟨fun x hx _ => ?_, fun _ _ => trivial⟩⟩
  obtain rfl := Option.some.inj hp
  have hfit : ((fresh.run Qt.storing (patientRun ++ [.write 0 0 0])).step Qt.storing
      (.timer .null (seconds 3) (seconds 3))).1.posted[0]?.all
        (fun x => decide (x.payload.length ≤ x.fragmentSize)) = true := by decide
  rw [hx] at hfit
  exact ⟨of_decide_eq_true hfit, by decide⟩

/-- A message of two fragments, the first of which is sent again after three seconds. -/
def fragmentsRun : List Action :=
  [.send 16 none [.setFragmentSize 32, .write (List.replicate 33 0), .timeout true 0 (seconds 20) (seconds 3)]]

/-- Here the deadline is moved from ten to thirteen seconds. -/
theorem repetition_moves_deadline : ¬ ∀ (qt : Qt) (acts : List Action) (i : ℕ) (m : MessageItem) (d : Device),
    (fresh.run qt acts).posted[i]? = some m → m.dataDevice = some d → ∀ (now₁ now₂ : TimePoint)
      (later : List Action), arrivals later = [] → ∀ mid a rest, later = mid ++ a :: rest →
      Stops qt m.uid (deadlineAfter m d now₁) (fresh.run qt (acts ++ .write i now₁ now₂ :: mid)) a := by
  intro h
  let calls : List SenderCall :=
    [.setFragmentSize 32, .write (List.replicate 33 0), .timeout true 0 (seconds 20) (seconds 3)]
  let m : MessageItem := (buildItem 0 16 none calls).seek 33
  let d : Device := ⟨List.replicate 33 0, 33, le_rfl⟩
  have hs := h Qt.storing fragmentsRun 0 m d (by decide) (by decide) 0 0
    [.timer .null (seconds 3) (seconds 3), .write 0 (seconds 3) (seconds 3)] rfl [_] _ [] rfl
  have hitems : ((fresh.run Qt.storing (fragmentsRun ++ [.write 0 0 0, .timer .null (seconds 3) (seconds 3),
      .write 0 (seconds 3) (seconds 3)])).waitingMessages.items.map fun x => (x.2.uid, x.2.endTime)) =
      [(0, seconds 13)] := by decide
  obtain ⟨x, hx, he⟩ := List.mem_map.mp (hitems ▸ List.mem_singleton.mpr rfl)
  obtain ⟨hu, hend⟩ := Prod.mk.inj he
  have hmem := mem_held.mpr (Or.inr (SortedMap.mem_values.mpr ⟨x.1, hx⟩))
  have hten := hs.after x.2 hmem hu
  rw [hend] at hten
  revert hten
  decide

end Protocol

end HelpzNet
