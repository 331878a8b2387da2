import Helpz.Net.Receive

/-!
# What a function may leave behind

The events a function of the protocol adds to the log and the entries it adds to the waiting list.
Most events are routine: no id is given out, `lost_msg_detected` is not called, and the items created
are no queries for a part. Outside the resend timer they are also calm: no timeout function is called.

* `Effects C W p q`: from `p` to `q` the log grows by events of the class `C`, and the waiting list by
  entries in `W`; no id is given out and the writer stays;
* one lemma for each function. `C` is any class that holds the calm events and, for the functions that
  ask for a part, the creation of their query; for the resend timer, the calls of the timeout functions.
-/

namespace HelpzNet

open HelpzLib

/-- No id is given out, nothing is transmitted, no loss is reported, and no query is created. -/
def Event.Routine : Event → Prop
  | .lostMsgDetected _ _ => False
  | .assigned _ _ => False
  | .transmitted _ _ _ => False
  | .created m => m.flags = 0
  | _ => True

/-- A call of a timeout function. -/
def Event.timeoutCall : Event → Option (ℕ × TimePoint)
  | .timeoutFunc uid now => some (uid, now)
  | _ => none

/-- A routine event, and no timeout function is called. -/
structure Event.Calm (e : Event) : Prop where
  routine : e.Routine
  untimed : e.timeoutCall = none

/-- No id is given out and nothing is transmitted. -/
def Event.Unsent : Event → Prop
  | .assigned _ _ => False
  | .transmitted _ _ _ => False
  | _ => True

/-- The packet is not read as a fragment. -/
def Packet.Unfragmented (qt : Qt) (pkt : Packet) : Prop :=
  ∀ a fullSize pos mx data, pkt.content qt ≠ some (.fragment a fullSize pos mx data)

theorem Packet.unfragmented_of_flag {qt : Qt} {pkt : Packet} (h : hasFlag pkt.flags Flag.fragment = false) :
    pkt.Unfragmented qt := by
  intro a fullSize pos mx data hc
  rw [Protocol.fragment_of_content hc] at h
  cases h

theorem calm_destroy (m : MessageItem) (why : Release) : ∀ e ∈ m.destroy why, e.Calm := by
  intro e he
  unfold MessageItem.destroy at he
  split_ifs at he <;> simp only [List.mem_cons, List.not_mem_nil, or_false] at he
  · rcases he with rfl | rfl <;> exact ⟨trivial, rfl⟩
  · subst he
    exact ⟨trivial, rfl⟩

namespace Protocol

/-- The log grows by events in `C`, the waiting list by entries in `W`. -/
structure Effects (C : Event → Prop) (W : TimePoint × MessageItem → Prop) (p q : Protocol) : Prop where
  hasWriter : q.hasWriter = p.hasWriter
  nextTx : q.nextTxMsgId = p.nextTxMsgId
  waiting : ∀ a ∈ q.waitingMessages.items, a ∈ p.waitingMessages.items ∨ W a
  log : ∃ evs, q.log = p.log ++ evs ∧ ∀ e ∈ evs, C e

/-- Nothing is added to the waiting list. -/
abbrev NoEntry : TimePoint × MessageItem → Prop := fun _ => False

variable {C C' : Event → Prop} {W W' : TimePoint × MessageItem → Prop} {p q r : Protocol}

theorem Effects.refl (p : Protocol) : Effects C W p p :=
  ⟨rfl, rfl, fun _ => Or.inl, [], (List.append_nil _).symm, fun _ h => (nomatch h)⟩

theorem Effects.trans (h : Effects C W p q) (h' : Effects C W q r) : Effects C W p r := by
  obtain ⟨evs, hl, hc⟩ := h.log
  obtain ⟨evs', hl', hc'⟩ := h'.log
  refine ⟨h'.hasWriter.trans h.hasWriter, h'.nextTx.trans h.nextTx, fun a ha => ?_, evs ++ evs', ?_,
    fun e he => ?_⟩
  · exact (h'.waiting a ha).elim (h.waiting a) Or.inr
  · rw [hl', hl, List.append_assoc]
  · exact (List.mem_append.mp he).elim (hc e) (hc' e)

theorem Effects.mono (h : Effects C W p q) (hC : ∀ e, C e → C' e) (hW : ∀ a, W a → W' a) :
    Effects C' W' p q := by
  obtain ⟨evs, hl, hc⟩ := h.log
  exact ⟨h.hasWriter, h.nextTx, fun a ha => (h.waiting a ha).imp_right (hW a), evs, hl,
    fun e he => hC e (hc e he)⟩

theorem Effects.quiet (h : Effects C NoEntry p q) : Effects C W p q := h.mono (fun _ => id) fun _ => False.elim

theorem effects_of_eq (h1 : q.hasWriter = p.hasWriter) (h2 : q.nextTxMsgId = p.nextTxMsgId)
    (h3 : q.log = p.log) (h4 : q.waitingMessages = p.waitingMessages) : Effects C W p q :=
  ⟨h1, h2, fun _ ha => Or.inl (h4 ▸ ha), [], h3.trans (List.append_nil _).symm, fun _ h => (nomatch h)⟩

theorem effects_emit (p : Protocol) {evs : List Event} (h : ∀ e ∈ evs, C e) : Effects C W p (p.emit evs) :=
  ⟨rfl, rfl, fun _ => Or.inl, evs, rfl, h⟩

theorem effects_pop (p : Protocol) (check : MessageItem → Bool) :
    Effects C NoEntry p (p.popWaitingMessage check).2 :=
  ⟨rfl, rfl, fun _ ha => Or.inl (List.eraseP_sublist.subset ha), [], (List.append_nil _).symm,
    fun _ h => (nomatch h)⟩

section Functions

variable (hC : ∀ e : Event, e.Calm → C e)

include hC

theorem effects_destroy (p : Protocol) (m : MessageItem) (why : Release) :
    Effects C NoEntry p (p.emit (m.destroy why)) :=
  effects_emit p fun e he => hC e (calm_destroy m why e he)

theorem effects_sendMessage (p : Protocol) (m : MessageItem) : Effects C NoEntry p (p.sendMessage m) := by
  unfold sendMessage
  split_ifs
  · exact effects_of_eq rfl rfl rfl rfl
  · exact effects_destroy hC p m _

theorem effects_sendItem (p : Protocol) {m : MessageItem} (hm : C (.created m)) :
    Effects C NoEntry p (p.sendItem m) := by
  have hcreated : Effects C NoEntry p { p with alloc := p.alloc + 1, log := p.log ++ [.created m] } :=
    ⟨rfl, rfl, fun _ => Or.inl, [.created m], rfl, fun e he => List.mem_singleton.mp he ▸ hm⟩
  unfold sendItem
  split_ifs
  · exact hcreated.trans (effects_sendMessage hC _ _)
  · exact hcreated.trans (effects_destroy hC _ m _)

theorem effects_send (p : Protocol) (cmd : UInt8) (a : Option UInt8) (data : Bytes) :
    Effects C NoEntry p (p.send cmd a 0 data) := effects_sendItem hC p (hC _ ⟨rfl, rfl⟩)

theorem effects_addTimeoutAt (p : Protocol) (time : TimePoint) (data : TimerData) :
    Effects C NoEntry p (p.addTimeoutAt time data) := by
  unfold addTimeoutAt
  split_ifs
  · exact effects_emit p fun e he => hC e (List.mem_singleton.mp he ▸ ⟨trivial, rfl⟩)
  · exact .refl p

theorem effects_addToWaiting (p : Protocol) (time : TimePoint) (m : MessageItem) :
    Effects C (· = (time, m)) p (p.addToWaiting time m) := by
  have hevict : Effects C NoEntry p (p.evictSameId m) := by
    unfold evictSameId
    split
    · exact (effects_pop p _).trans (effects_destroy hC _ _ _)
    · exact effects_pop p _
  rw [addToWaiting_eq]
  refine hevict.quiet.trans ?_
  generalize p.evictSameId m = q
  split_ifs with hc
  · exact (effects_destroy hC q m _).quiet
  · refine ⟨rfl, rfl, fun a ha => ?_, [.waiting m.uid time], rfl,
      fun e he => hC e (List.mem_singleton.mp he ▸ ⟨trivial, rfl⟩)⟩
    have hmem := (SortedMap.emplace_perm (Bool.not_eq_true _ ▸ hc) m).mem_iff.mp ha
    exact (List.mem_cons.mp hmem).symm

/-! ## A packet arrives -/

theorem effects_callAnswerFunc (p : Protocol) (m : MessageItem) (msgId cmd : UInt8) (data : Bytes)
    (throws : Bool) : Effects C NoEntry p (p.callAnswerFunc m msgId cmd data throws) := by
  refine effects_emit p fun e he => hC e ?_
  rcases List.mem_cons.mp he with rfl | he
  · exact ⟨trivial, rfl⟩
  · exact calm_destroy _ _ e he

theorem effects_deliverFragmented (p : Protocol) (msgId cmd : UInt8) (a : Option UInt8) (data : Bytes)
    (throws : Bool) : Effects C NoEntry p (p.deliverFragmented msgId cmd a data throws) := by
  cases a with
  | none => exact effects_emit p fun e he => hC e (List.mem_singleton.mp he ▸ ⟨trivial, rfl⟩)
  | some a =>
      simp only [deliverFragmented]
      have hpop : Effects C NoEntry p (p.popWaitingAnswer a cmd).2 := effects_pop p _
      split
      · exact hpop.trans (effects_emit _ fun e he => hC e (List.mem_singleton.mp he ▸ ⟨trivial, rfl⟩))
      · split_ifs
        · exact hpop.trans (effects_callAnswerFunc hC _ _ _ _ _ _)
        · refine hpop.trans (effects_emit _ fun e he => hC e ?_)
          rcases List.mem_cons.mp he with rfl | he
          · exact ⟨trivial, rfl⟩
          · exact calm_destroy _ _ e he

/-- The query for a part as the protocol creates it. -/
def query (uid : ℕ) (cmd msgId : UInt8) (part : ℕ × ℕ) : MessageItem :=
  { MessageItem.new uid cmd none with
    flags := Flag.fragmentQuery, dataDevice := some (Device.full (queryData msgId part)) }

theorem effects_sendQuery (p : Protocol) {cmd msgId : UInt8} {part : ℕ × ℕ}
    (hq : ∀ uid, C (.created (query uid cmd msgId part))) :
    Effects C NoEntry p (p.send cmd none Flag.fragmentQuery (queryData msgId part)) :=
  effects_sendItem hC p (hq p.alloc)

theorem effects_completeFragment (p : Protocol) (env : Env) (msgId cmd : UInt8) (a : Option UInt8)
    (fullSize : ℕ) (m : FragmentedMessage)
    (hdone : ∀ uid, C (.created (query uid cmd msgId (fullSize, m.maxFragmentSize)))) :
    Effects C NoEntry p (p.completeFragment env msgId cmd a fullSize m).1 := by
  refine Effects.trans ?_ (effects_sendQuery hC _ hdone)
  have hset : Effects C NoEntry p (p.setFragment msgId m) := effects_of_eq rfl rfl rfl rfl
  have hdeliver := hset.trans (effects_deliverFragmented hC _ msgId cmd a m.data env.throws)
  split_ifs
  · exact hdeliver
  · exact hdeliver.trans (effects_of_eq rfl rfl rfl rfl)

theorem effects_continueFragment (p : Protocol) (now : TimePoint) (msgId cmd : UInt8) (m : FragmentedMessage)
    (hnext : ∀ uid, C (.created (query uid cmd msgId (nextEntry m now).getNextPart))) :
    Effects C NoEntry p (p.continueFragment now msgId cmd m) := by
  refine Effects.trans ?_ (effects_sendQuery hC _ hnext)
  refine Effects.trans ?_ (effects_addTimeoutAt hC _ _ _)
  exact effects_of_eq rfl rfl rfl rfl

theorem effects_processFragment (p : Protocol) (env : Env) (msgId cmd : UInt8) (a : Option UInt8)
    (fullSize pos mx : ℕ) (data : Bytes)
    (hcreated : ∀ uid part, C (.created (query uid cmd msgId part))) :
    Effects C NoEntry p (p.processFragment env msgId cmd a fullSize pos mx data).1 := by
  rcases p.processFragment_cases env msgId cmd a fullSize pos mx data with he | ⟨_, ⟨_, he⟩ | ⟨_, he⟩⟩
  · rw [he]
    exact effects_of_eq rfl rfl rfl rfl
  · rw [he]
    exact effects_completeFragment hC p env msgId cmd a fullSize _ fun uid => hcreated uid _
  · rw [he]
    exact effects_continueFragment hC p env.now₂ msgId cmd _ fun uid => hcreated uid _

theorem effects_processAnswer (p : Protocol) (env : Env) (msgId cmd a : UInt8) (data : Bytes) :
    Effects C NoEntry p (p.processAnswer env msgId cmd a data).1 := by
  have hpop : Effects C NoEntry p (p.popWaitingAnswer a cmd).2 := effects_pop p _
  simp only [processAnswer]
  split
  · exact hpop
  · split_ifs
    · exact hpop.trans (effects_callAnswerFunc hC _ _ _ _ _ _)
    · exact hpop.trans (effects_destroy hC _ _ _)

theorem effects_processPlain (p : Protocol) (env : Env) (msgId cmd : UInt8) (data : Bytes) :
    Effects C NoEntry p (p.processPlain env msgId cmd data).1 := by
  unfold processPlain
  split_ifs
  · exact effects_send hC p _ _ _
  · exact effects_emit p fun e he => hC e (List.mem_singleton.mp he ▸ ⟨trivial, rfl⟩)

/-- The item a fragment query puts back on the waiting list: it asks for a position past the end, and
the item found still waits for an answer. -/
def putBack (p : Protocol) (msgId : UInt8) (pos : ℕ) : Option MessageItem :=
  (p.popWaitingFragment msgId).1.filter fun m =>
    !m.dataDevice.any (fun d => decide (pos < d.size)) && m.answerFunc

theorem effects_processFragmentQuery (p : Protocol) (msgId : UInt8) (pos size : ℕ) :
    Effects C (fun a => ∃ m, p.putBack msgId pos = some m ∧ a = (m.endTime, m)) p
      (p.processFragmentQuery msgId pos size) := by
  have hpop : Effects C NoEntry p (p.popWaitingFragment msgId).2 := effects_pop p _
  unfold processFragmentQuery
  cases hm : (p.popWaitingFragment msgId).1 with
  | none =>
      simp only [hm]
      exact (hpop.trans (effects_send hC _ _ _ _)).quiet
  | some m =>
      simp only [hm]
      split_ifs with hpos
      · exact (hpop.trans (effects_sendMessage hC _ _)).quiet
      · simp only [refuseFragmentQuery]
        split_ifs with ha
        · refine (hpop.quiet.trans ((effects_addToWaiting hC _ _ _).mono (fun _ => id) fun a h => ?_)).trans
            (effects_send hC _ _ _ _).quiet
          refine ⟨m, ?_, h⟩
          rw [putBack, hm, Option.filter_some, if_pos]
          rw [Bool.not_eq_true] at hpos
          simp [hpos, ha]
        · exact ((hpop.trans (effects_send hC _ _ _ _)).trans (effects_destroy hC _ _ _)).quiet

theorem effects_dispatch (p : Protocol) (env : Env) (msgId cmd : UInt8) {c : Content}
    (hf : ∀ a fullSize pos mx data, c ≠ .fragment a fullSize pos mx data) :
    Effects C (fun a => ∃ id pos size m, c = .fragmentQuery id pos size ∧ p.putBack id pos = some m ∧
      a = (m.endTime, m)) p (p.dispatch env msgId cmd c).1 := by
  cases c with
  | removeFragment id => exact effects_of_eq rfl rfl rfl rfl
  | fragmentQuery id pos size =>
      refine (effects_processFragmentQuery hC p id pos size).mono (fun _ h => h) ?_
      rintro a ⟨m, hm, ha⟩
      exact ⟨id, pos, size, m, rfl, hm, ha⟩
  | fragment a fullSize pos mx data => exact absurd rfl (hf a fullSize pos mx data)
  | answer a data => exact (effects_processAnswer hC p env msgId cmd a data).quiet
  | message data => exact (effects_processPlain hC p env msgId cmd data).quiet

/-! ## A timer fires -/

theorem effects_resendAll (now : TimePoint) (l : List MessageItem) (p : Protocol)
    (htime : ∀ m ∈ l, isResent now m = false → C (.timeoutFunc m.uid now)) :
    Effects C NoEntry p (l.foldl (resendOrExpire now) p) := by
  induction l generalizing p with
  | nil => exact .refl p
  | cons m l ih =>
      refine Effects.trans ?_ (ih _ fun x hx => htime x (List.mem_cons_of_mem _ hx))
      unfold resendOrExpire
      split_ifs with hr
      · exact effects_sendMessage hC p _
      · have hgiven := htime m List.mem_cons_self (Bool.eq_false_iff.mpr hr)
        exact effects_emit p fun e he => List.mem_singleton.mp he ▸ hgiven
      · exact .refl p

theorem effects_popped (p : Protocol) (now₁ now₂ : TimePoint)
    (htime : ∀ m ∈ (p.popWaitingMessages now₁).1, isResent now₂ m = false → C (.timeoutFunc m.uid now₂)) :
    Effects C NoEntry (p.popWaitingMessages now₁).2 (p.processWaitList .null now₁ now₂) := by
  refine (effects_resendAll hC now₂ _ _ htime).trans (effects_emit _ fun e he => hC e ?_)
  obtain ⟨m, _, hm⟩ := List.mem_flatMap.mp he
  exact calm_destroy m _ e hm

theorem effects_processWaitList_null (p : Protocol) (now₁ now₂ : TimePoint)
    (htime : ∀ m ∈ (p.popWaitingMessages now₁).1, isResent now₂ m = false → C (.timeoutFunc m.uid now₂)) :
    Effects C NoEntry p (p.processWaitList .null now₁ now₂) := by
  have hpop : Effects C NoEntry p (p.popWaitingMessages now₁).2 :=
    ⟨rfl, rfl, fun _ ha => Or.inl ((List.dropWhile_sublist _).subset ha), [], (List.append_nil _).symm,
      fun _ h => (nomatch h)⟩
  exact hpop.trans (effects_popped hC p now₁ now₂ htime)

theorem effects_requery (now : TimePoint) (p : Protocol) (id : UInt8)
    (hnext : ∀ m m' : FragmentedMessage, p.fragmentedMessages id = some m → m'.isPartsEmpty = false →
      m'.id = m.id → m'.partVect = m.partVect → ∀ uid cmd, C (.created (query uid cmd m'.id m'.getNextPart))) :
    Effects C NoEntry p (requery now p id) := by
  unfold requery
  split
  · exact .refl p
  next m hm =>
    split_ifs with h
    · rw [Bool.and_eq_true, Bool.not_eq_true'] at h
      refine Effects.trans ?_ (effects_sendQuery hC _ fun uid => hnext m _ hm ?_ ?_ ?_ uid _)
      · refine Effects.trans ?_ (effects_addTimeoutAt hC _ _ _)
        exact effects_of_eq rfl rfl rfl rfl
      · exact h.1
      · rfl
      · rfl
    · exact .refl p

/-! ## The acceptance test -/

theorem effects_afterTest (p : Protocol) (pkt : Packet) (env : Env)
    (hlost : C (.lostMsgDetected pkt.id p.nextRxMsgId)) : Effects C NoEntry p (p.afterTest pkt env) := by
  obtain ⟨next, lost, frag, evs, he, hevs, _⟩ :=
    (p.emit [.internalProcessMessage pkt]).acceptMessage_frame env.now₁ pkt.id pkt.flags
  rw [afterTest, he]
  refine ⟨rfl, rfl, fun _ => Or.inl, [.internalProcessMessage pkt] ++ evs, List.append_assoc _ _ _,
    fun e hmem => ?_⟩
  rcases List.mem_append.mp hmem with hmem | hmem
  · exact hC e (List.mem_singleton.mp hmem ▸ ⟨trivial, rfl⟩)
  · rcases hevs with rfl | rfl
    · cases hmem
    · exact List.mem_singleton.mp hmem ▸ hlost

theorem effects_processAccepted (qt : Qt) (p : Protocol) (env : Env) {pkt : Packet}
    (hf : pkt.Unfragmented qt) : Effects C (fun _ => True) p (p.processAccepted qt env pkt).1 := by
  unfold processAccepted
  split_ifs
  · exact .refl p
  · cases hc : pkt.content qt with
    | none => exact .refl p
    | some c =>
        refine (effects_dispatch hC p env pkt.id pkt.cmd fun a fullSize pos mx data he => ?_).mono
          (fun _ h => h) fun _ _ => trivial
        exact hf a fullSize pos mx data (he ▸ hc)

end Functions

theorem putBack_afterTest (p : Protocol) (pkt : Packet) (env : Env) (id : UInt8) (pos : ℕ) :
    (p.afterTest pkt env).putBack id pos = p.putBack id pos := by
  unfold putBack popWaitingFragment popWaitingMessage
  rw [waitingMessages_afterTest]

/-! ## A step -/

/-- The entries an action puts back on the waiting list: those of a fragment query past the end. -/
def PutsBack (qt : Qt) (p : Protocol) (a : Action) (x : TimePoint × MessageItem) : Prop :=
  ∃ pkt env id pos size m, a = .receive pkt env ∧ p.accepts pkt env = true ∧
    pkt.content qt = some (.fragmentQuery id pos size) ∧ p.putBack id pos = some m ∧ x = (m.endTime, m)

theorem unsent_of_calm (e : Event) (h : e.Calm) : e.Unsent := by
  have hr := h.routine
  cases e with
  | assigned id data => exact hr
  | transmitted uid pkt now => exact hr
  | _ => exact trivial

section Steps

variable (hC : ∀ e : Event, e.Calm → C e) (hcreated : ∀ m, C (.created m))

include hC hcreated

theorem effects_requeryAll (now : TimePoint) (ids : List UInt8) (p : Protocol) :
    Effects C NoEntry p (ids.foldl (requery now) p) := by
  induction ids generalizing p with
  | nil => exact .refl p
  | cons id ids ih => exact (effects_requery hC now p id fun _ _ _ _ _ _ _ _ => hcreated _).trans (ih _)

theorem effects_processWaitList (p : Protocol) (data : TimerData) (now₁ now₂ : TimePoint)
    (htime : data = .null → ∀ m ∈ (p.popWaitingMessages now₁).1, isResent now₂ m = false →
      C (.timeoutFunc m.uid now₂)) :
    Effects C NoEntry p (p.processWaitList data now₁ now₂) := by
  cases data with
  | null => exact effects_processWaitList_null hC p now₁ now₂ (htime rfl)
  | fragment => exact effects_requeryAll hC hcreated now₁ allIds p

theorem effects_accepted (qt : Qt) (p : Protocol) (env : Env) (pkt : Packet) :
    Effects C (fun x => ∃ id pos size m, pkt.content qt = some (.fragmentQuery id pos size) ∧
      p.putBack id pos = some m ∧ x = (m.endTime, m)) p (p.processAccepted qt env pkt).1 := by
  unfold processAccepted
  split_ifs
  · exact .refl _
  cases hc : pkt.content qt with
  | none => exact .refl _
  | some c =>
      by_cases hfrag : ∃ a fullSize pos mx data, c = .fragment a fullSize pos mx data
      · obtain ⟨a, fullSize, pos, mx, data, rfl⟩ := hfrag
        exact (effects_processFragment hC _ env pkt.id pkt.cmd a fullSize pos mx data
          fun _ _ => hcreated _).quiet
      · refine (effects_dispatch hC _ env pkt.id pkt.cmd
          fun a fullSize pos mx data he => hfrag ⟨a, fullSize, pos, mx, data, he⟩).mono (fun _ h => h) ?_
        rintro x ⟨id, pos, size, m, rfl, hm, hx⟩
        exact ⟨id, pos, size, m, rfl, hm, hx⟩

theorem effects_step_receive (qt : Qt) (p : Protocol) (pkt : Packet) (env : Env)
    (hlost : C (.lostMsgDetected pkt.id p.nextRxMsgId)) :
    Effects C (p.PutsBack qt (.receive pkt env)) p (p.step qt (.receive pkt env)).1 := by
  have htest : Effects C NoEntry p (p.afterTest pkt env) := effects_afterTest hC p pkt env hlost
  rw [step_receive]
  split_ifs with hok
  · refine htest.quiet.trans ((effects_accepted hC hcreated qt _ env pkt).mono (fun _ h => h) ?_)
    rintro x ⟨id, pos, size, m, hc, hm, hx⟩
    rw [putBack_afterTest] at hm
    exact ⟨pkt, env, id, pos, size, m, rfl, hok, hc, hm, hx⟩
  · exact htest.quiet

/-- **Whatever happens but the writing of an item** gives out no id and puts nothing on the waiting list
but what a fragment query past the end puts back. -/
theorem effects_step (qt : Qt) (p : Protocol) {a : Action} (h : ∀ i now₁ now₂, a ≠ .write i now₁ now₂)
    (hlost : ∀ pkt env, a = .receive pkt env → C (.lostMsgDetected pkt.id p.nextRxMsgId))
    (htime : ∀ now₁ now₂, a = .timer .null now₁ now₂ → ∀ m ∈ (p.popWaitingMessages now₁).1,
      isResent now₂ m = false → C (.timeoutFunc m.uid now₂)) :
    Effects C (p.PutsBack qt a) p (p.step qt a).1 := by
  cases a with
  | send cmd answerId calls => exact (effects_sendItem hC p (hcreated _)).quiet
  | write i now₁ now₂ => exact absurd rfl (h i now₁ now₂)
  | timer data now₁ now₂ =>
      refine (effects_processWaitList hC hcreated p data now₁ now₂ ?_).quiet
      rintro rfl
      exact htime now₁ now₂ rfl
  | receive pkt env => exact effects_step_receive hC hcreated qt p pkt env (hlost pkt env rfl)

end Steps

theorem effects_prepare (hC : ∀ e : Event, e.Calm → C e) (qt : Qt) (p : Protocol) {m : MessageItem}
    {d : Device} (hd : m.dataDevice = some d) (now₁ now₂ : TimePoint) :
    Effects C (fun x => x = (waitPoint (packedItem m d (p.assignId m).1 now₁) now₂,
      packedItem m d (p.assignId m).1 now₁)) (p.afterSent qt m d now₂)
      (preparePacketToSend qt p m now₁ now₂).2 := by
  rw [preparePacketToSend_some qt p hd]
  split_ifs
  · exact (effects_addToWaiting hC _ _ _).trans (effects_addTimeoutAt hC _ _ _).quiet
  · exact (effects_destroy hC _ (packedItem m d (p.assignId m).1 now₁) .unwaited).quiet

/-- What is recorded when the item gets an id. -/
def idEvents (p : Protocol) (m : MessageItem) : List Event :=
  match m.id with
  | none => [.assigned p.nextTxMsgId m.payload]
  | some _ => []

/-- **The log after an item was written**: its id, its transmission, and what is routine. -/
theorem log_write (hC : ∀ e : Event, e.Calm → C e) (qt : Qt) {p : Protocol} {i : ℕ} {m : MessageItem}
    (hm : p.posted[i]? = some m) {d : Device} (hd : m.dataDevice = some d) (now₁ now₂ : TimePoint) :
    ∃ pkt evs, (p.write qt i now₁ now₂).1.log =
        p.log ++ (p.idEvents m ++ .transmitted m.uid pkt now₂ :: evs) ∧ ∀ e ∈ evs, C e := by
  let q : Protocol := { p with posted := p.posted.eraseIdx i }
  obtain ⟨evs, hlog, hevs⟩ := (effects_prepare hC qt q hd now₁ now₂).log
  have hw : (p.write qt i now₁ now₂).1 = (preparePacketToSend qt q m now₁ now₂).2 :=
    write_of_posted hm qt now₁ now₂
  have hassign : (q.assignId m).2.log = p.log ++ p.idEvents m := by
    unfold assignId idEvents
    cases m.id with
    | none => rfl
    | some j => exact (List.append_nil _).symm
  refine ⟨packItem qt m d (q.assignId m).1, evs, ?_, hevs⟩
  rw [hw, hlog, afterSent, emit, hassign]
  simp only [List.append_assoc, List.cons_append, List.nil_append]

theorem log_write_dropped {qt : Qt} {p : Protocol} {i : ℕ} {m : MessageItem} (hm : p.posted[i]? = some m)
    (hd : m.dataDevice = none) (now₁ now₂ : TimePoint) :
    (p.write qt i now₁ now₂).1.log = p.log ++ m.destroy .rejected := by
  rw [write_of_posted hm, preparePacketToSend, hd]
  rfl

theorem events_write (hC : ∀ e : Event, e.Calm → C e) (hassigned : ∀ id data, C (.assigned id data))
    (hsent : ∀ u pkt now, C (.transmitted u pkt now)) (qt : Qt) (p : Protocol) (i : ℕ) (now₁ now₂ : TimePoint) :
    ∃ evs, (p.write qt i now₁ now₂).1.log = p.log ++ evs ∧ ∀ e ∈ evs, C e := by
  cases hm : p.posted[i]? with
  | none =>
      rw [write_of_none hm]
      exact ⟨[], (List.append_nil _).symm, fun _ h => (nomatch h)⟩
  | some m =>
      cases hd : m.dataDevice with
      | none =>
          exact ⟨_, log_write_dropped hm hd now₁ now₂, fun e he => hC e (calm_destroy m _ e he)⟩
      | some d =>
          obtain ⟨pkt, evs, hlog, hevs⟩ := log_write hC qt hm hd now₁ now₂
          refine ⟨_, hlog, fun e he => ?_⟩
          rcases List.mem_append.mp he with he | he
          · unfold idEvents at he
            split at he
            · exact List.mem_singleton.mp he ▸ hassigned _ _
            · cases he
          · rcases List.mem_cons.mp he with rfl | he
            · exact hsent _ _ _
            · exact hevs e he

/-- **The waiting list after an item was written**: at most the item was added. -/
theorem waiting_write {qt : Qt} {p : Protocol} {i : ℕ} {now₁ now₂ : TimePoint} {x : TimePoint × MessageItem}
    (hx : x ∈ (p.write qt i now₁ now₂).1.waitingMessages.items) :
    x ∈ p.waitingMessages.items ∨ ∃ m d, p.posted[i]? = some m ∧ m.dataDevice = some d ∧
      x = (waitPoint (packedItem m d (p.assignId m).1 now₁) now₂, packedItem m d (p.assignId m).1 now₁) := by
  unfold write at hx
  cases hm : p.posted[i]? with
  | none =>
      rw [hm] at hx
      exact Or.inl hx
  | some m =>
      rw [hm] at hx
      let q : Protocol := { p with posted := p.posted.eraseIdx i }
      have hid : (q.assignId m).1 = (p.assignId m).1 := by rw [assignId_posted]
      cases hd : m.dataDevice with
      | none =>
          simp only [preparePacketToSend, hd] at hx
          exact Or.inl hx
      | some d =>
          have heff := effects_prepare (C := fun _ => True) (fun _ _ => trivial) qt q hd now₁ now₂
          rcases heff.waiting x hx with h | h
          · rw [show (q.afterSent qt m d now₂).waitingMessages = p.waitingMessages from
              waitingMessages_assignId q m] at h
            exact Or.inl h
          · rw [hid] at h
            exact Or.inr ⟨m, d, rfl, hd, h⟩

theorem unsent_step (qt : Qt) (p : Protocol) {a : Action} (h : ∀ i now₁ now₂, a ≠ .write i now₁ now₂) :
    Effects Event.Unsent (p.PutsBack qt a) p (p.step qt a).1 :=
  effects_step unsent_of_calm (fun _ => trivial) qt p h (fun _ _ _ => trivial) fun _ _ _ _ _ _ => trivial

end Protocol

end HelpzNet
