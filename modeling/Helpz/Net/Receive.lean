import Helpz.Net.Run

/-!
# What an arriving packet does

The receiving half of the state: the window, the transfers, and what was handed over to handlers.

* `handovers`: the message ids and data given to `process_message`, `process_answer_message` and the
  answer functions;
* `SameRx`: the receiving half is left alone. Sending, the waiting list, fragment queries and the
  resend timer do so, with one lemma for each function;
* `Requeried`: what the fragment timer, and so every action but an arrival, may do to it
  (`requeried_step`);
* `Treated`: what an accepted packet does to it (`treated_processAccepted`).
-/

namespace HelpzNet

open HelpzLib

/-- The message id and the data of a call of a handler or of an answer function. -/
def Event.handover : Event → Option (UInt8 × Bytes)
  | .processMessage msgId _ data _ => some (msgId, data)
  | .processAnswerMessage msgId _ data _ => some (msgId, data)
  | .answerFunc _ msgId _ data _ => some (msgId, data)
  | _ => none

/-- What was handed over, in order. -/
def handovers (log : List Event) : List (UInt8 × Bytes) := log.filterMap Event.handover

/-- The ids under which something was handed over. -/
def handedIds (log : List Event) : List UInt8 := (handovers log).map Prod.fst

@[simp] theorem handovers_append (l l' : List Event) :
    handovers (l ++ l') = handovers l ++ handovers l' := List.filterMap_append

theorem handedIds_eq {l l' : List Event} (h : handovers l' = handovers l) : handedIds l' = handedIds l :=
  congrArg (List.map Prod.fst) h

theorem handedIds_append {l l' : List Event} {id : UInt8} {data : Bytes}
    (h : handovers l' = handovers l ++ [(id, data)]) : handedIds l' = handedIds l ++ [id] := by
  rw [handedIds, h, List.map_append]
  rfl

theorem handovers_destroy (m : MessageItem) (why : Release) : handovers (m.destroy why) = [] := by
  unfold MessageItem.destroy
  split_ifs <;> rfl

namespace Protocol

/-- The receiving half of the state is the same. -/
structure SameRx (p q : Protocol) : Prop where
  next : q.nextRxMsgId = p.nextRxMsgId
  lost : q.lostMsgList = p.lostMsgList
  frag : q.fragmentedMessages = p.fragmentedMessages
  handed : handovers q.log = handovers p.log

variable {p q r : Protocol}

theorem SameRx.refl (p : Protocol) : p.SameRx p := ⟨rfl, rfl, rfl, rfl⟩

theorem SameRx.trans (h : p.SameRx q) (h' : q.SameRx r) : p.SameRx r :=
  ⟨h'.next.trans h.next, h'.lost.trans h.lost, h'.frag.trans h.frag, h'.handed.trans h.handed⟩

theorem sameRx_emit (p : Protocol) {evs : List Event} (h : handovers evs = []) : p.SameRx (p.emit evs) :=
  ⟨rfl, rfl, rfl, by rw [emit, handovers_append, h, List.append_nil]⟩

theorem sameRx_destroy (p : Protocol) (m : MessageItem) (why : Release) :
    p.SameRx (p.emit (m.destroy why)) := sameRx_emit p (handovers_destroy m why)

theorem sameRx_sendMessage (p : Protocol) (m : MessageItem) : p.SameRx (p.sendMessage m) := by
  unfold sendMessage
  split_ifs
  · exact ⟨rfl, rfl, rfl, rfl⟩
  · exact sameRx_destroy p m _

theorem sameRx_sendItem (p : Protocol) (m : MessageItem) : p.SameRx (p.sendItem m) := by
  have hq : p.SameRx { p with alloc := p.alloc + 1, log := p.log ++ [.created m] } :=
    ⟨rfl, rfl, rfl, by rw [handovers_append]; exact List.append_nil _⟩
  unfold sendItem
  split_ifs
  · exact hq.trans (sameRx_sendMessage _ _)
  · exact hq.trans (sameRx_destroy _ _ _)

theorem sameRx_send (p : Protocol) (cmd : UInt8) (a : Option UInt8) (flags : UInt8) (data : Bytes) :
    p.SameRx (p.send cmd a flags data) := sameRx_sendItem p _

theorem sameRx_pop (p : Protocol) (check : MessageItem → Bool) : p.SameRx (p.popWaitingMessage check).2 :=
  ⟨rfl, rfl, rfl, rfl⟩

theorem sameRx_evictSameId (p : Protocol) (m : MessageItem) : p.SameRx (p.evictSameId m) := by
  unfold evictSameId
  split
  next old _ => exact (p.sameRx_pop _).trans (sameRx_destroy _ _ _)
  next _ => exact p.sameRx_pop _

theorem sameRx_addToWaiting (p : Protocol) (time : TimePoint) (m : MessageItem) :
    p.SameRx (p.addToWaiting time m) := by
  rw [addToWaiting_eq]
  refine (p.sameRx_evictSameId m).trans ?_
  generalize p.evictSameId m = q
  split_ifs
  · exact sameRx_destroy _ _ _
  · refine ⟨rfl, rfl, rfl, ?_⟩
    rw [handovers_append]
    exact List.append_nil _

theorem sameRx_refuseFragmentQuery (p : Protocol) (found : Option MessageItem) (msgId : UInt8) :
    p.SameRx (p.refuseFragmentQuery found msgId) := by
  cases found with
  | none => exact sameRx_send p _ _ _ _
  | some m =>
      simp only [refuseFragmentQuery]
      split_ifs
      · exact (sameRx_addToWaiting p _ m).trans (sameRx_send _ _ _ _ _)
      · exact (sameRx_send p _ _ _ _).trans (sameRx_destroy _ _ _)

theorem sameRx_processFragmentQuery (p : Protocol) (msgId : UInt8) (pos size : ℕ) :
    p.SameRx (p.processFragmentQuery msgId pos size) := by
  have hpop : p.SameRx (p.popWaitingFragment msgId).2 := sameRx_pop p _
  unfold processFragmentQuery
  cases h : (p.popWaitingFragment msgId).1 with
  | none => simp only [h]; exact hpop.trans (sameRx_refuseFragmentQuery _ _ _)
  | some m =>
      simp only [h]
      split_ifs
      · exact hpop.trans (sameRx_sendMessage _ _)
      · exact hpop.trans (sameRx_refuseFragmentQuery _ _ _)

theorem sameRx_addTimeoutAt (p : Protocol) (time : TimePoint) (data : TimerData) :
    p.SameRx (p.addTimeoutAt time data) := by
  unfold addTimeoutAt
  split_ifs
  · exact sameRx_emit p rfl
  · exact .refl p

theorem sameRx_preparePacketToSend (qt : Qt) (p : Protocol) (m : MessageItem) (now₁ now₂ : TimePoint) :
    p.SameRx (preparePacketToSend qt p m now₁ now₂).2 := by
  unfold preparePacketToSend
  cases m.dataDevice with
  | none => exact sameRx_destroy p m _
  | some d =>
      have hassign : p.SameRx (p.assignId m).2 := by
        unfold assignId
        cases m.id with
        | some id => exact .refl p
        | none => exact ⟨rfl, rfl, rfl, by rw [handovers_append]; exact List.append_nil _⟩
      have hsent : ∀ pkt, p.SameRx
          { (p.assignId m).2.emit [.transmitted m.uid pkt now₂] with lastMsgSendTime := now₂ } :=
        fun pkt => hassign.trans ⟨rfl, rfl, rfl, (sameRx_emit (p.assignId m).2 rfl).handed⟩
      simp only
      split_ifs
      · exact ((hsent _).trans (sameRx_addToWaiting _ _ _)).trans (sameRx_addTimeoutAt _ _ _)
      · exact (hsent _).trans (sameRx_destroy _ _ _)

theorem sameRx_write (qt : Qt) (p : Protocol) (i : ℕ) (now₁ now₂ : TimePoint) :
    p.SameRx (p.write qt i now₁ now₂).1 := by
  unfold write
  cases p.posted[i]? with
  | none => exact .refl p
  | some m =>
      have h := sameRx_preparePacketToSend qt { p with posted := p.posted.eraseIdx i } m now₁ now₂
      exact ⟨h.next, h.lost, h.frag, h.handed⟩

theorem sameRx_resendOrExpire (now : TimePoint) (p : Protocol) (m : MessageItem) :
    p.SameRx (resendOrExpire now p m) := by
  unfold resendOrExpire
  split_ifs
  · exact sameRx_sendMessage p _
  · exact sameRx_emit p rfl
  · exact .refl p

theorem sameRx_resendAll (now : TimePoint) (l : List MessageItem) (p : Protocol) :
    p.SameRx (l.foldl (resendOrExpire now) p) := by
  induction l generalizing p with
  | nil => exact .refl p
  | cons m l ih => exact (sameRx_resendOrExpire now p m).trans (ih _)

theorem sameRx_processWaitList_null (p : Protocol) (now₁ now₂ : TimePoint) :
    p.SameRx (p.processWaitList .null now₁ now₂) := by
  have hpop : p.SameRx (p.popWaitingMessages now₁).2 := ⟨rfl, rfl, rfl, rfl⟩
  refine (hpop.trans (sameRx_resendAll now₂ _ _)).trans (sameRx_emit _ ?_)
  induction (p.popWaitingMessages now₁).1.filter fun m => !isResent now₂ m with
  | nil => rfl
  | cons m l ih => rw [List.flatMap_cons, handovers_append, handovers_destroy, ih]; rfl

/-! ## Contents that are no fragments -/

theorem handovers_callAnswerFunc (p : Protocol) (m : MessageItem) (msgId cmd : UInt8) (data : Bytes)
    (throws : Bool) : handovers (p.callAnswerFunc m msgId cmd data throws).log =
      handovers p.log ++ [(msgId, data)] := by
  simp only [callAnswerFunc, emit, handovers_append]
  congr 1
  exact congrArg ((msgId, data) :: ·) (handovers_destroy _ _)

/-- The receiving half is the same but for one message handed over. -/
structure Hands (p q : Protocol) (msgId : UInt8) (data : Bytes) : Prop where
  next : q.nextRxMsgId = p.nextRxMsgId
  lost : q.lostMsgList = p.lostMsgList
  frag : q.fragmentedMessages = p.fragmentedMessages
  handed : handovers q.log = handovers p.log ++ [(msgId, data)]

theorem SameRx.hands {p q r : Protocol} {msgId : UInt8} {data : Bytes} (h : p.SameRx q)
    (h' : q.Hands r msgId data) : p.Hands r msgId data :=
  ⟨h'.next.trans h.next, h'.lost.trans h.lost, h'.frag.trans h.frag, by rw [h'.handed, h.handed]⟩

theorem Hands.sameRx {p q r : Protocol} {msgId : UInt8} {data : Bytes} (h : p.Hands q msgId data)
    (h' : q.SameRx r) : p.Hands r msgId data :=
  ⟨h'.next.trans h.next, h'.lost.trans h.lost, h'.frag.trans h.frag, by rw [h'.handed, h.handed]⟩

theorem processAnswer_rx (p : Protocol) (env : Env) (msgId cmd a : UInt8) (data : Bytes) :
    p.SameRx (p.processAnswer env msgId cmd a data).1 ∨
      p.Hands (p.processAnswer env msgId cmd a data).1 msgId data := by
  have hpop : p.SameRx (p.popWaitingAnswer a cmd).2 := sameRx_pop p _
  unfold processAnswer
  cases h : (p.popWaitingAnswer a cmd).1 with
  | none => simp only [h]; exact Or.inl hpop
  | some m =>
      simp only [h]
      split_ifs
      · exact Or.inr (hpop.hands ⟨rfl, rfl, rfl, handovers_callAnswerFunc _ _ _ _ _ _⟩)
      · exact Or.inl (hpop.trans (sameRx_destroy _ _ _))

theorem processPlain_rx (p : Protocol) (env : Env) (msgId cmd : UInt8) (data : Bytes) :
    (cmd = Cmd.ping ∧ p.SameRx (p.processPlain env msgId cmd data).1) ∨
      (cmd ≠ Cmd.ping ∧ p.Hands (p.processPlain env msgId cmd data).1 msgId data) := by
  unfold processPlain
  split_ifs with h
  · exact Or.inl ⟨h, sameRx_send p _ _ _ _⟩
  · exact Or.inr ⟨h, rfl, rfl, rfl, by simp [emit, handovers, Event.handover]⟩

/-! ## Fragments -/

theorem deliverFragmented_rx (p : Protocol) (msgId cmd : UInt8) (a : Option UInt8) (data : Bytes)
    (throws : Bool) : p.Hands (p.deliverFragmented msgId cmd a data throws) msgId data := by
  unfold deliverFragmented
  cases a with
  | none => exact ⟨rfl, rfl, rfl, by simp [emit, handovers, Event.handover]⟩
  | some a =>
      have hpop : p.SameRx (p.popWaitingAnswer a cmd).2 := sameRx_pop p _
      cases h : (p.popWaitingAnswer a cmd).1 with
      | none => simp only [h]; exact hpop.hands ⟨rfl, rfl, rfl, by simp [emit, handovers, Event.handover]⟩
      | some m =>
          simp only [h]
          split_ifs
          · exact hpop.hands ⟨rfl, rfl, rfl, handovers_callAnswerFunc _ _ _ _ _ _⟩
          · refine hpop.hands ⟨rfl, rfl, rfl, ?_⟩
            simp only [emit, handovers_append]
            congr 1
            exact congrArg ((msgId, data) :: ·) (handovers_destroy _ _)

/-- The entry of a transfer after the data of a fragment was added. -/
def grownEntry (p : Protocol) (msgId cmd : UInt8) (fullSize pos maxFragmentSize : ℕ) (data : Bytes) :
    FragmentedMessage :=
  addFragment (p.fragmentEntry msgId cmd maxFragmentSize fullSize) pos data

/-- What the FRAGMENT branch does to the receiving half: the transfer is given up, or it is complete
and handed over, or it goes on. -/
inductive FragmentStep (p q : Protocol) (env : Env) (msgId : UInt8) (fullSize : ℕ) (m : FragmentedMessage) :
    Prop
  | dropped : q.nextRxMsgId = p.nextRxMsgId → q.lostMsgList = p.lostMsgList →
      q.fragmentedMessages = Function.update p.fragmentedMessages msgId none →
      handovers q.log = handovers p.log → FragmentStep p q env msgId fullSize m
  | complete : fullSize < protocolMaxMessageSize → m.isPartsEmpty = true → q.nextRxMsgId = p.nextRxMsgId →
      q.lostMsgList = p.lostMsgList →
      q.fragmentedMessages = Function.update p.fragmentedMessages msgId (if env.throws then some m else none) →
      handovers q.log = handovers p.log ++ [(msgId, m.data)] → FragmentStep p q env msgId fullSize m
  | goesOn (m' : FragmentedMessage) : fullSize < protocolMaxMessageSize → m.isPartsEmpty = false →
      m'.data = m.data → m'.partVect = m.partVect → q.nextRxMsgId = p.nextRxMsgId →
      q.lostMsgList = Function.update p.lostMsgList msgId (some env.now₂) →
      q.fragmentedMessages = Function.update p.fragmentedMessages msgId (some m') →
      handovers q.log = handovers p.log → FragmentStep p q env msgId fullSize m

/-- **The FRAGMENT branch, case by case.** -/
theorem processFragment_cases (p : Protocol) (env : Env) (msgId cmd : UInt8) (a : Option UInt8)
    (fullSize pos mx : ℕ) (data : Bytes) :
    p.processFragment env msgId cmd a fullSize pos mx data = (p.eraseFragment msgId, false) ∨
      fullSize < protocolMaxMessageSize ∧
        (((p.grownEntry msgId cmd fullSize pos mx data).isPartsEmpty = true ∧
            p.processFragment env msgId cmd a fullSize pos mx data =
              p.completeFragment env msgId cmd a fullSize (p.grownEntry msgId cmd fullSize pos mx data)) ∨
          (p.grownEntry msgId cmd fullSize pos mx data).isPartsEmpty = false ∧
            p.processFragment env msgId cmd a fullSize pos mx data =
              (p.continueFragment env.now₂ msgId cmd (p.grownEntry msgId cmd fullSize pos mx data), false)) := by
  unfold processFragment
  split_ifs with h1
  · exact Or.inl rfl
  simp only
  split_ifs with h2 h3
  · exact Or.inl rfl
  · exact Or.inr ⟨not_le.mp h1, Or.inl ⟨h3, rfl⟩⟩
  · exact Or.inr ⟨not_le.mp h1, Or.inr ⟨Bool.not_eq_true _ ▸ h3, rfl⟩⟩

theorem completeFragment_rx (p : Protocol) (env : Env) (msgId cmd : UInt8) (a : Option UInt8) (fullSize : ℕ)
    (m : FragmentedMessage) :
    Hands { p with fragmentedMessages :=
      Function.update p.fragmentedMessages msgId (if env.throws then some m else none) }
        (p.completeFragment env msgId cmd a fullSize m).1 msgId m.data := by
  have hd := deliverFragmented_rx (p.setFragment msgId m) msgId cmd a m.data env.throws
  have hq : ∀ q : Protocol, q.SameRx (q.send cmd none Flag.fragmentQuery
      (queryData msgId (fullSize, m.maxFragmentSize))) := fun q => sameRx_send q _ _ _ _
  simp only [completeFragment]
  split_ifs with ht
  · exact Hands.sameRx (q := deliverFragmented (p.setFragment msgId m) msgId cmd a m.data env.throws)
      ⟨hd.next, hd.lost, hd.frag, hd.handed⟩ (hq _)
  · have herase : Function.update (deliverFragmented (p.setFragment msgId m) msgId cmd a m.data
        env.throws).fragmentedMessages msgId none = Function.update p.fragmentedMessages msgId none := by
      rw [hd.frag]
      exact Function.update_idem _ _ _
    exact Hands.sameRx (q := (deliverFragmented (p.setFragment msgId m) msgId cmd a m.data
      env.throws).eraseFragment msgId) ⟨hd.next, hd.lost, herase, hd.handed⟩ (hq _)

/-- The entry as it is stored when parts are still missing. -/
def nextEntry (m : FragmentedMessage) (now : TimePoint) : FragmentedMessage :=
  { m with isOpen := false, lastPartTime := now, maxFragmentSize := growFragmentSize m.maxFragmentSize }

theorem continueFragment_rx (p : Protocol) (now : TimePoint) (msgId cmd : UInt8) (m : FragmentedMessage) :
    SameRx { p.setFragment msgId (nextEntry m now) with
      lostMsgList := Function.update p.lostMsgList msgId (some now) } (p.continueFragment now msgId cmd m) :=
  (sameRx_addTimeoutAt _ _ _).trans (sameRx_send _ _ _ _ _)

theorem processFragment_rx (p : Protocol) (env : Env) (msgId cmd : UInt8) (a : Option UInt8)
    (fullSize pos mx : ℕ) (data : Bytes) :
    FragmentStep p (p.processFragment env msgId cmd a fullSize pos mx data).1 env msgId fullSize
      (p.grownEntry msgId cmd fullSize pos mx data) := by
  rcases p.processFragment_cases env msgId cmd a fullSize pos mx data with he | ⟨hlt, ⟨hempty, he⟩ | ⟨hempty, he⟩⟩
  · rw [he]
    exact .dropped rfl rfl rfl rfl
  · rw [he]
    have hs := p.completeFragment_rx env msgId cmd a fullSize (p.grownEntry msgId cmd fullSize pos mx data)
    exact .complete hlt hempty hs.next hs.lost hs.frag hs.handed
  · rw [he]
    have hs := p.continueFragment_rx env.now₂ msgId cmd (p.grownEntry msgId cmd fullSize pos mx data)
    exact .goesOn (nextEntry _ env.now₂) hlt hempty rfl rfl hs.next hs.lost hs.frag hs.handed

/-! ## The fragment timer -/

/-- The same transfer, up to the size of the parts asked for and the time of the last one. -/
structure SameTransfer (m m' : FragmentedMessage) : Prop where
  id : m'.id = m.id
  data : m'.data = m.data
  partVect : m'.partVect = m.partVect

/-- What the fragment timer may do to the receiving half: transfers stay what they are, and the ids
of some become lost ones. -/
structure Requeried (p q : Protocol) : Prop where
  next : q.nextRxMsgId = p.nextRxMsgId
  frag : ∀ x, q.fragmentedMessages x = p.fragmentedMessages x ∨
    ∃ m m', p.fragmentedMessages x = some m ∧ q.fragmentedMessages x = some m' ∧ SameTransfer m m'
  lost : ∀ x, q.lostMsgList x = p.lostMsgList x ∨
    p.lostMsgList x = none ∧ ∃ y m, p.fragmentedMessages y = some m ∧ m.id = x
  handed : handovers q.log = handovers p.log

theorem SameRx.requeried (h : p.SameRx q) : p.Requeried q :=
  ⟨h.next, fun x => Or.inl (by rw [h.frag]), fun x => Or.inl (by rw [h.lost]), h.handed⟩

theorem Requeried.trans (h : p.Requeried q) (h' : q.Requeried r) : p.Requeried r := by
  refine ⟨h'.next.trans h.next, fun x => ?_, fun x => ?_, h'.handed.trans h.handed⟩
  · rcases h.frag x with h1 | ⟨m, m', h1, h2, hs⟩
    · rw [← h1]
      exact h'.frag x
    · rcases h'.frag x with h3 | ⟨m₁, m₂, h3, h4, hs'⟩
      · exact Or.inr ⟨m, m', h1, h3.trans h2, hs⟩
      · obtain rfl : m' = m₁ := Option.some.inj (h2.symm.trans h3)
        exact Or.inr ⟨m, m₂, h1, h4, hs'.id.trans hs.id, hs'.data.trans hs.data,
          hs'.partVect.trans hs.partVect⟩
  · rcases h'.lost x with h1 | ⟨h1, y, m, hy, hm⟩
    · rw [h1]
      exact h.lost x
    · rcases h.lost x with h2 | h2
      · rcases h.frag y with h3 | ⟨m₁, m₂, h3, h4, hs⟩
        · exact Or.inr ⟨h2 ▸ h1, y, m, h3 ▸ hy, hm⟩
        · obtain rfl : m = m₂ := Option.some.inj (hy.symm.trans h4)
          exact Or.inr ⟨h2 ▸ h1, y, m₁, h3, hs.id.symm.trans hm⟩
      · exact Or.inr h2

theorem Requeried.sameRx (h : p.Requeried q) (hidle : ∀ x, p.fragmentedMessages x = none) : p.SameRx q := by
  refine ⟨h.next, funext fun x => ?_, funext fun x => ?_, h.handed⟩
  · rcases h.lost x with h1 | ⟨_, y, m, hy, _⟩
    · exact h1
    · rw [hidle y] at hy
      cases hy
  · rcases h.frag x with h1 | ⟨m, _, h1, _, _⟩
    · exact h1
    · rw [hidle x] at h1
      cases h1

theorem requeried_requery (now : TimePoint) (p : Protocol) (id : UInt8) : p.Requeried (requery now p id) := by
  unfold requery
  split
  · exact (SameRx.refl p).requeried
  next m hm =>
    split_ifs
    · refine Requeried.trans ?_ ((sameRx_addTimeoutAt _ _ _).trans (sameRx_send _ _ _ _ _)).requeried
      refine ⟨rfl, fun x => ?_, fun x => ?_, rfl⟩
      · by_cases hx : x = id
        · subst hx
          exact Or.inr ⟨m, _, hm, Function.update_self _ _ _, rfl, rfl, rfl⟩
        · exact Or.inl (Function.update_of_ne hx _ _)
      · simp only [emplaceLost]
        split_ifs with hl
        · exact Or.inl rfl
        · by_cases hx : x = m.id
          · subst hx
            exact Or.inr ⟨Option.not_isSome_iff_eq_none.mp hl, id, m, hm, rfl⟩
          · exact Or.inl (Function.update_of_ne hx _ _)
    · exact (SameRx.refl p).requeried

theorem requeried_requeryAll (now : TimePoint) (ids : List UInt8) (p : Protocol) :
    p.Requeried (ids.foldl (requery now) p) := by
  induction ids generalizing p with
  | nil => exact (SameRx.refl p).requeried
  | cons id ids ih => exact (requeried_requery now p id).trans (ih _)

theorem requeried_processWaitList (p : Protocol) (data : TimerData) (now₁ now₂ : TimePoint) :
    p.Requeried (p.processWaitList data now₁ now₂) := by
  cases data with
  | null => exact (sameRx_processWaitList_null p now₁ now₂).requeried
  | fragment => exact requeried_requeryAll now₁ allIds p

/-- **Whatever happens at an endpoint but an arrival leaves the receiving half alone**, up to
re-queries. -/
theorem requeried_step (qt : Qt) (p : Protocol) {a : Action} (h : ∀ pkt env, a ≠ .receive pkt env) :
    p.Requeried (p.step qt a).1 := by
  cases a with
  | send cmd answerId calls => exact (sameRx_sendItem p _).requeried
  | write i now₁ now₂ => exact (sameRx_write qt p i now₁ now₂).requeried
  | timer data now₁ now₂ => exact requeried_processWaitList p data now₁ now₂
  | receive pkt env => exact absurd rfl (h pkt env)

theorem sameRx_step (qt : Qt) (p : Protocol) {a : Action} (hidle : ∀ x, p.fragmentedMessages x = none)
    (h : ∀ pkt env, a ≠ .receive pkt env) : p.SameRx (p.step qt a).1 := (requeried_step qt p h).sameRx hidle

/-! ## The acceptance test -/

/-- The packet passes the acceptance test. -/
def accepts (p : Protocol) (pkt : Packet) (env : Env) : Bool :=
  ((p.emit [.internalProcessMessage pkt]).acceptMessage env.now₁ pkt.id pkt.flags).1

/-- The object after the acceptance test. -/
def afterTest (p : Protocol) (pkt : Packet) (env : Env) : Protocol :=
  ((p.emit [.internalProcessMessage pkt]).acceptMessage env.now₁ pkt.id pkt.flags).2

theorem step_receive (qt : Qt) (p : Protocol) (pkt : Packet) (env : Env) :
    (p.step qt (.receive pkt env)).1 =
      if p.accepts pkt env = true then ((p.afterTest pkt env).processAccepted qt env pkt).1
      else p.afterTest pkt env := by
  exact apply_ite Prod.fst (p.accepts pkt env = true) ((p.afterTest pkt env).processAccepted qt env pkt)
    (p.afterTest pkt env, false)

@[simp] theorem handovers_afterTest (p : Protocol) (pkt : Packet) (env : Env) :
    handovers (p.afterTest pkt env).log = handovers p.log := by
  obtain ⟨next, lost, frag, evs, he, hevs, _⟩ :=
    (p.emit [.internalProcessMessage pkt]).acceptMessage_frame env.now₁ pkt.id pkt.flags
  rw [afterTest, he, handovers_append]
  rcases hevs with rfl | rfl <;> rw [emit, handovers_append] <;> simp [handovers, Event.handover]

@[simp] theorem handedIds_afterTest (p : Protocol) (pkt : Packet) (env : Env) :
    handedIds (p.afterTest pkt env).log = handedIds p.log :=
  handedIds_eq (p.handovers_afterTest pkt env)

theorem fragmentedMessages_afterTest (p : Protocol) (pkt : Packet) (env : Env) (x : UInt8) :
    (p.afterTest pkt env).fragmentedMessages x = p.fragmentedMessages x ∨
      (p.afterTest pkt env).fragmentedMessages x = none := by
  obtain ⟨next, lost, frag, evs, he, _, hfrag⟩ :=
    (p.emit [.internalProcessMessage pkt]).acceptMessage_frame env.now₁ pkt.id pkt.flags
  rw [afterTest, he]
  exact hfrag x

theorem idle_afterTest (h : ∀ x, p.fragmentedMessages x = none) (pkt : Packet) (env : Env) (x : UInt8) :
    (p.afterTest pkt env).fragmentedMessages x = none := by
  rcases p.fragmentedMessages_afterTest pkt env x with h1 | h1
  · exact h1.trans (h x)
  · exact h1

theorem idle_eraseFragment (h : ∀ x, p.fragmentedMessages x = none) (id x : UInt8) :
    (p.eraseFragment id).fragmentedMessages x = none := by
  simp only [eraseFragment, Function.update_apply]
  split_ifs
  · rfl
  · exact h x

theorem waitingMessages_afterTest (p : Protocol) (pkt : Packet) (env : Env) :
    (p.afterTest pkt env).waitingMessages = p.waitingMessages := by
  obtain ⟨next, lost, frag, evs, he, _⟩ :=
    (p.emit [.internalProcessMessage pkt]).acceptMessage_frame env.now₁ pkt.id pkt.flags
  rw [afterTest, he]
  rfl

theorem windowStep_afterTest (p : Protocol) (env : Env) {pkt : Packet} (hid : pkt.id ≠ 255)
    (hnear : hasFlag pkt.flags Flag.repeated = false → p.nextRxMsgId.toNat < pkt.id.toNat + 100) :
    WindowStep p env.now₁ pkt.id (hasFlag pkt.flags Flag.repeated)
      (p.accepts pkt env, p.afterTest pkt env) := by
  have h := (p.emit [.internalProcessMessage pkt]).windowStep_acceptMessage env.now₁ hid hnear
  unfold accepts afterTest
  generalize (p.emit [.internalProcessMessage pkt]).acceptMessage env.now₁ pkt.id pkt.flags = r at h ⊢
  cases h with
  | old q h1 h2 h3 => exact .old q h1 h2 h3
  | new q kept h1 h2 h3 h4 h5 => exact .new q kept h1 h2 h3 h4 h5

/-! ## An accepted packet -/

/-- What an accepted packet does to the receiving half. -/
inductive Treated (qt : Qt) (env : Env) (pkt : Packet) (p q : Protocol) : Prop
  | nothing : p.SameRx q → Treated qt env pkt p q
  | erased (id : UInt8) : q = p.eraseFragment id → Treated qt env pkt p q
  | handed (data : Bytes) :
      pkt.content qt = some (.message data) ∨ (∃ a, pkt.content qt = some (.answer a data)) →
      p.Hands q pkt.id data → Treated qt env pkt p q
  | fragment (a : Option UInt8) (fullSize pos mx : ℕ) (data : Bytes) :
      pkt.content qt = some (.fragment a fullSize pos mx data) →
      FragmentStep p q env pkt.id fullSize (p.grownEntry pkt.id pkt.cmd fullSize pos mx data) →
      Treated qt env pkt p q

theorem exists_fragment_of_parse {a : Option UInt8} {body : Bytes} {c : Content}
    (h : parseFragment a body = some c) : ∃ fullSize pos mx data, c = .fragment a fullSize pos mx data := by
  simp only [parseFragment, Option.bind_eq_bind, Option.bind_eq_some_iff] at h
  obtain ⟨⟨fullSize, r⟩, _, ⟨pos, r'⟩, _, h⟩ := h
  simp only at h
  split_ifs at h
  · simp only [Option.bind_eq_some_iff] at h
    obtain ⟨⟨mx, data⟩, _, h⟩ := h
    exact ⟨fullSize, pos, mx, data, (Option.some.inj h).symm⟩
  · exact ⟨fullSize, pos, 0, r', (Option.some.inj h).symm⟩

/-- **The kind of content is decided by the command and the flags.** -/
theorem content_cases {qt : Qt} {pkt : Packet} {c : Content} (h : pkt.content qt = some c) :
    (∃ id, c = .removeFragment id) ∨
      (hasFlag pkt.flags Flag.fragmentQuery = true ∧ ∃ id pos size, c = .fragmentQuery id pos size) ∨
      (hasFlag pkt.flags Flag.fragment = true ∧
        ∃ a fullSize pos mx data, c = .fragment a fullSize pos mx data) ∨
      (hasFlag pkt.flags Flag.fragment = false ∧
        ((∃ a data, c = .answer a data) ∨ ∃ data, c = .message data)) := by
  obtain ⟨body, _, hb⟩ := Option.bind_eq_some_iff.mp h
  unfold parseContent at hb
  split_ifs at hb with hcmd hq ha hf hf
  · obtain ⟨id, _, rfl⟩ := Option.map_eq_some_iff.mp hb
    exact Or.inl ⟨id, rfl⟩
  · simp only [parseFragmentQuery, Option.bind_eq_bind, Option.bind_eq_some_iff] at hb
    obtain ⟨_, _, _, _, _, _, hb⟩ := hb
    exact Or.inr (Or.inl ⟨hq, _, _, _, (Option.some.inj hb).symm⟩)
  · cases body with
    | nil => cases hb
    | cons x r => exact Or.inr (Or.inr (Or.inl ⟨hf, _, exists_fragment_of_parse hb⟩))
  · cases body with
    | nil => cases hb
    | cons x r =>
        exact Or.inr (Or.inr (Or.inr ⟨Bool.not_eq_true _ ▸ hf, Or.inl ⟨x, r, (Option.some.inj hb).symm⟩⟩))
  · exact Or.inr (Or.inr (Or.inl ⟨hf, _, exists_fragment_of_parse hb⟩))
  · exact Or.inr (Or.inr (Or.inr ⟨Bool.not_eq_true _ ▸ hf, Or.inr ⟨body, (Option.some.inj hb).symm⟩⟩))

theorem fragment_of_content {qt : Qt} {pkt : Packet} {a : Option UInt8} {fullSize pos mx : ℕ} {data : Bytes}
    (h : pkt.content qt = some (.fragment a fullSize pos mx data)) :
    hasFlag pkt.flags Flag.fragment = true := by
  rcases content_cases h with ⟨_, hc⟩ | ⟨_, _, _, _, hc⟩ | ⟨hf, _⟩ | ⟨_, ⟨_, _, hc⟩ | ⟨_, hc⟩⟩
  · cases hc
  · cases hc
  · exact hf
  · cases hc
  · cases hc

theorem fragment_false_of_content {qt : Qt} {pkt : Packet} {c : Content} (h : pkt.content qt = some c)
    (hc : (∃ a data, c = .answer a data) ∨ ∃ data, c = .message data) :
    hasFlag pkt.flags Flag.fragment = false := by
  rcases content_cases h with ⟨_, he⟩ | ⟨_, _, _, _, he⟩ | ⟨_, _, _, _, _, _, he⟩ | ⟨hf, _⟩
  · rcases hc with ⟨_, _, hc⟩ | ⟨_, hc⟩ <;> cases he.symm.trans hc
  · rcases hc with ⟨_, _, hc⟩ | ⟨_, hc⟩ <;> cases he.symm.trans hc
  · rcases hc with ⟨_, _, hc⟩ | ⟨_, hc⟩ <;> cases he.symm.trans hc
  · exact hf

theorem fragmentQuery_of_content {qt : Qt} {pkt : Packet} {id : UInt8} {pos size : ℕ}
    (h : pkt.content qt = some (.fragmentQuery id pos size)) :
    hasFlag pkt.flags Flag.fragmentQuery = true := by
  rcases content_cases h with ⟨_, hc⟩ | ⟨hq, _⟩ | ⟨_, _, _, _, _, _, hc⟩ | ⟨_, ⟨_, _, hc⟩ | ⟨_, hc⟩⟩
  · cases hc
  · exact hq
  · cases hc
  · cases hc
  · cases hc

theorem body_of_content {qt : Qt} {pkt : Packet} {c : Content} (h : pkt.content qt = some c)
    (hf : hasFlag pkt.flags Flag.fragment = false) :
    ¬ (pkt.body = [] ∧ hasFlag pkt.flags (Flag.compressed ||| Flag.fragment) = true) := by
  rintro ⟨hbody, hflags⟩
  rw [hasFlag_or_right, hf, Bool.or_false] at hflags
  obtain ⟨body, hu, _⟩ := Option.bind_eq_some_iff.mp h
  rw [uncompressBody, if_pos hflags, hbody, qt.qUncompress_nil, if_pos rfl] at hu
  cases hu

/-- **What an accepted packet does to the receiving half.** -/
theorem treated_processAccepted (qt : Qt) (p : Protocol) (env : Env) (pkt : Packet) :
    Treated qt env pkt p (p.processAccepted qt env pkt).1 := by
  unfold processAccepted
  split_ifs with hbody
  · exact .nothing (.refl p)
  cases hc : pkt.content qt with
  | none => exact .nothing (.refl p)
  | some c =>
      cases c with
      | removeFragment id => exact .erased id rfl
      | fragmentQuery id pos size => exact .nothing (sameRx_processFragmentQuery p id pos size)
      | fragment a full pos mx data =>
          exact .fragment a full pos mx data hc (processFragment_rx p env pkt.id pkt.cmd a full pos mx data)
      | answer a data =>
          rcases processAnswer_rx p env pkt.id pkt.cmd a data with h | h
          · exact .nothing h
          · exact .handed data (Or.inr ⟨a, hc⟩) h
      | message data =>
          rcases processPlain_rx p env pkt.id pkt.cmd data with ⟨_, h⟩ | ⟨_, h⟩
          · exact .nothing h
          · exact .handed data (Or.inl hc) h

theorem Treated.handovers_eq {qt : Qt} {env : Env} {pkt : Packet} (h : Treated qt env pkt p q) :
    ∃ l, handovers q.log = handovers p.log ++ l := by
  cases h with
  | nothing hs => exact ⟨[], by rw [hs.handed, List.append_nil]⟩
  | erased id he => exact ⟨[], by rw [he, List.append_nil]; rfl⟩
  | handed data _ hh => exact ⟨_, hh.handed⟩
  | fragment a full pos mx data _ hstep =>
      cases hstep with
      | dropped _ _ _ hh => exact ⟨[], by rw [hh, List.append_nil]⟩
      | complete _ _ _ _ _ hh => exact ⟨_, hh⟩
      | goesOn _ _ _ _ _ _ _ _ hh => exact ⟨[], by rw [hh, List.append_nil]⟩

/-- There is a handler for the packet: it is a plain message other than a ping, or an answer to an item
that waits with an answer function. -/
def handles (qt : Qt) (p : Protocol) (pkt : Packet) : Bool :=
  match pkt.content qt with
  | some (.message _) => decide (pkt.cmd ≠ Cmd.ping)
  | some (.answer a _) => (p.popWaitingAnswer a pkt.cmd).1.any (·.answerFunc)
  | _ => false

/-- **A packet for which there is a handler is handed over once it is accepted.** -/
theorem hands_of_handles {qt : Qt} {p : Protocol} (env : Env) {pkt : Packet} (h : p.handles qt pkt = true) :
    ∃ data, (pkt.content qt = some (.message data) ∨ ∃ a, pkt.content qt = some (.answer a data)) ∧
      p.Hands (p.processAccepted qt env pkt).1 pkt.id data := by
  unfold handles at h
  split at h
  next data hc =>
    have hf := fragment_false_of_content hc (Or.inr ⟨data, rfl⟩)
    refine ⟨data, Or.inl hc, ?_⟩
    rw [processAccepted, if_neg (body_of_content hc hf), hc]
    exact ((processPlain_rx p env pkt.id pkt.cmd data).resolve_left fun hp => of_decide_eq_true h hp.1).2
  next a data hc =>
    have hf := fragment_false_of_content hc (Or.inl ⟨a, data, rfl⟩)
    obtain ⟨m, hm, hfunc⟩ := (Option.any_eq_true _ _).mp h
    refine ⟨data, Or.inr ⟨a, hc⟩, ?_⟩
    rw [processAccepted, if_neg (body_of_content hc hf), hc]
    have hpop : p.SameRx (p.popWaitingAnswer a pkt.cmd).2 := sameRx_pop p _
    simp only [dispatch, processAnswer, hm, if_pos hfunc]
    exact hpop.hands ⟨rfl, rfl, rfl, handovers_callAnswerFunc _ _ _ _ _ _⟩
  · cases h

end Protocol

end HelpzNet
