import Helpz.Net.Orderly

/-!
# Outstanding messages

A message that was transmitted with a deadline is outstanding until it is answered, timed out or
completed. It can be found on the waiting list exactly when it is not in the queue of the writer
(`findable_iff`): the timer and the fragment queries take it from the list before the writer has sent
it again. In between an answer to it is lost (`answer_while_posted`).
-/

namespace HelpzNet

open HelpzLib

/-- The item was put on the waiting list when it was transmitted, and it was neither answered, nor
timed out, nor completed by a fragment query. -/
def Outstanding (log : List Event) (u : ℕ) : Prop :=
  (∃ time, .waiting u time ∈ log) ∧
    ∀ why ∈ destructions u log, why ≠ .answered ∧ why ≠ .timedOut ∧ why ≠ .completed

/-- An item is dropped because another one waits for the same time point. -/
def Event.isCollision : Event → Bool
  | .destroyed _ .collided => true
  | _ => false

/-- An answer and a fragment query for the id of the item find it. -/
def Findable (p : Protocol) (u : ℕ) : Prop :=
  ∃ m id, m.uid = u ∧ m.id = some id ∧ (p.popWaitingAnswer id m.cmd).1 = some m ∧
    (p.popWaitingFragment id).1 = some m

/-- The item is in the queue of the writer. -/
def Posted (p : Protocol) (u : ℕ) : Prop := ∃ m ∈ p.posted, m.uid = u

theorem eq_of_id_eq {p : Protocol} (ho : Orderly (p.books 0)) (hn : (assignedIds p.log).length ≤ 256)
    {m m' : MessageItem} (hm : m ∈ p.waitingMessages.values) (hm' : m' ∈ p.waitingMessages.values)
    (hid : m'.id = m.id) (hsome : m.id.isSome) : m' = m := by
  obtain ⟨w, hw⟩ := Multiset.exists_cons_of_mem hm
  rw [hw] at hm'
  rcases Multiset.mem_cons.mp hm' with rfl | hm'
  · rfl
  have hb : p.books 0 = ⟨⟨m, true, []⟩ ::ₘ ((p.posted : Multiset MessageItem).map .idle +
      w.map fun m => ⟨m, true, []⟩), p.alloc, p.nextTxMsgId, p.hasWriter, p.log⟩ := by
    simp only [Protocol.books, Protocol.holdings, hw, Multiset.map_cons, Multiset.add_cons, zero_add]
  rw [hb] at ho
  refine absurd hid (ho.not_evicts hn hsome ⟨m', true, []⟩ ?_)
  exact Multiset.mem_add.mpr (Or.inr (Multiset.mem_map_of_mem _ hm'))

/-- **An item on the waiting list is found by its id.** -/
theorem findable_of_waiting {p : Protocol} (ho : Orderly (p.books 0)) (hw : p.WaitingHaveIds)
    (hn : (assignedIds p.log).length ≤ 256) {m : MessageItem} (hm : m ∈ p.waitingMessages.values) :
    Findable p m.uid := by
  obtain ⟨id, hid⟩ := Option.isSome_iff_exists.mp (hw m hm)
  -- whatever passes the check has the id of `m`, and is `m`
  have hfind : ∀ check : MessageItem → Bool, check m = true →
      (∀ x, check x = true → x.id.getD 0 = id) → (p.popWaitingMessage check).1 = some m := by
    intro check hcm hc
    cases hpop : (p.popWaitingMessage check).1 with
    | none =>
        have := SortedMap.extract_eq_none.mp hpop m hm
        rw [hcm] at this
        cases this
    | some x =>
        have hx := Protocol.mem_of_pop hpop
        obtain ⟨i, hi⟩ := Option.isSome_iff_exists.mp (hw x hx)
        have hxid := hc x (Protocol.check_of_pop hpop)
        rw [hi, Option.getD_some] at hxid
        rw [eq_of_id_eq ho hn hm hx (by rw [hi, hid, hxid]) (by rw [hid]; rfl)]
  refine ⟨m, id, rfl, hid, hfind _ (by simp [hid]) fun x hx => ?_, hfind _ (by simp [hid]) fun x hx => ?_⟩
  · simp only [Bool.and_eq_true, decide_eq_true_eq] at hx
    exact hx.1
  · exact of_decide_eq_true hx

theorem mem_destructions {u : ℕ} {why : Release} {log : List Event} :
    why ∈ destructions u log ↔ .destroyed u why ∈ log := by
  simp only [destructions, List.mem_filterMap]
  constructor
  · rintro ⟨e, he, hw⟩
    cases e with
    | destroyed v w =>
        simp only at hw
        split_ifs at hw with hv
        cases hw
        exact hv ▸ he
    | _ => cases hw
  · intro h
    exact ⟨_, h, if_pos rfl⟩

theorem mem_held_of_findable {p : Protocol} {u : ℕ} (h : Findable p u) :
    ∃ m ∈ p.waitingMessages.values, m.uid = u := by
  obtain ⟨m, id, hu, _, hpop, _⟩ := h
  exact ⟨m, Protocol.mem_of_pop hpop, hu⟩

theorem not_posted_of_waiting {p : Protocol} (hnd : (p.held.map MessageItem.uid).Nodup) {m : MessageItem}
    (hm : m ∈ p.waitingMessages.values) : ¬ Posted p m.uid := by
  rintro ⟨x, hx, hu⟩
  rw [Protocol.held, Multiset.map_add, Multiset.nodup_add] at hnd
  exact Multiset.disjoint_left.mp hnd.2.2 (Multiset.mem_map.mpr ⟨x, hx, hu⟩)
    (Multiset.mem_map_of_mem _ hm)

/-- What is done for an item that is found: an answer calls its answer function, and a query for a
part of it makes it be sent, without a REMOVE_FRAGMENT. -/
def Served (p : Protocol) (m : MessageItem) (id : UInt8) : Prop :=
  (∀ (env : Env) (msgId : UInt8) (data : Bytes), m.answerFunc = true →
    .answerFunc m.uid msgId m.cmd data env.throws ∈ (p.dispatch env msgId m.cmd (.answer id data)).1.log) ∧
  ∀ pos size, pos < m.payload.length →
    (p.processFragmentQuery id pos size).posted = p.posted ++ [(m.setFragmentSize size).seek pos] ∧
      (p.processFragmentQuery id pos size).log = p.log

theorem served_of_found {p : Protocol} (ho : Orderly (p.books 0)) {m : MessageItem} {id : UInt8}
    (ha : (p.popWaitingAnswer id m.cmd).1 = some m) (hf : (p.popWaitingFragment id).1 = some m) :
    Served p m id := by
  refine ⟨fun env msgId data hfunc => ?_, fun pos size hpos => ?_⟩
  · simp only [Protocol.dispatch, Protocol.processAnswer, ha, hfunc, if_true]
    exact List.mem_append_right _ List.mem_cons_self
  · obtain ⟨x, hx, rfl⟩ := Protocol.exists_holding
      (Multiset.mem_add.mpr (Or.inr (Protocol.mem_of_pop hf)) : m ∈ p.held)
    obtain ⟨d, hd⟩ := Option.isSome_iff_exists.mp (ho.device x hx)
    have hpos' : pos < d.size := by simpa [MessageItem.payload, hd, Device.size] using hpos
    have hw : (p.popWaitingFragment id).2.hasWriter = true := ho.hasWriter
    have hdev : ((x.item.setFragmentSize size).seek pos).dataDevice.isSome = true := by
      simp [MessageItem.seek, MessageItem.setFragmentSize, hd]
    simp only [Protocol.processFragmentQuery, hf]
    rw [if_pos (by simp [hd, hpos']), Protocol.sendMessage, hdev, hw]
    exact ⟨rfl, rfl⟩

/-- **An outstanding message can be found exactly when it is not in the queue of the writer**, nor was
dropped because the writer sent it again after its deadline; and what is found is served. Ids are
distinct as long as no more than 256 were given out, and no two messages wait for the same time. -/
theorem findable_iff (qt : Qt) (acts : List Action) (m : MessageItem)
    (hm : .created m ∈ (Protocol.fresh.run qt acts).log)
    (hids : (assignedIds (Protocol.fresh.run qt acts).log).length ≤ 256)
    (htimes : ∀ e ∈ (Protocol.fresh.run qt acts).log, e.isCollision = false)
    (hout : Outstanding (Protocol.fresh.run qt acts).log m.uid) :
    (Findable (Protocol.fresh.run qt acts) m.uid ↔
      ¬ Posted (Protocol.fresh.run qt acts) m.uid ∧
        .destroyed m.uid .unwaited ∉ (Protocol.fresh.run qt acts).log) ∧
    ∀ x id, ((Protocol.fresh.run qt acts).popWaitingAnswer id x.cmd).1 = some x →
      ((Protocol.fresh.run qt acts).popWaitingFragment id).1 = some x →
      Served (Protocol.fresh.run qt acts) x id := by
  have hl := ledger_run qt acts
  have ho := orderly_run qt acts
  have hw := Protocol.waitingHaveIds_run qt acts
  set p := Protocol.fresh.run qt acts with hp
  have hnd : (p.held.map MessageItem.uid).Nodup := by
    rw [← Protocol.map_uid_holdings]
    exact hl.nodup
  refine ⟨⟨fun hfind => ?_, fun ⟨hpost, hunw⟩ => ?_⟩, fun x id ha hf => served_of_found ho ha hf⟩
  · obtain ⟨x, hx, hxu⟩ := mem_held_of_findable hfind
    rcases hl.created hm with ⟨hh, _⟩ | ⟨hnot, _⟩
    · refine ⟨hxu ▸ not_posted_of_waiting hnd hx, fun hmem => ?_⟩
      have := mem_destructions.mpr hmem
      rw [← destructions_history, hh] at this
      exact absurd this List.not_mem_nil
    · exact absurd hxu (hnot x (Multiset.mem_add.mpr (Or.inr hx)))
  · rcases hl.created hm with ⟨_, x, hx, hxu⟩ | ⟨_, evs, hh, houtcome⟩
    · rcases Multiset.mem_add.mp hx with hx | hx
      · exact absurd ⟨x, hx, hxu⟩ hpost
      · exact hxu ▸ findable_of_waiting ho hw hids hx
    · -- the item is gone: of the ways to end, none is left
      exfalso
      have hne := houtcome.single.2
      rw [← hh, destructions_history] at hne
      obtain ⟨why, hwhy⟩ := List.exists_mem_of_ne_nil _ hne
      obtain ⟨h1, h2, h3⟩ := hout.2 why hwhy
      rw [mem_destructions] at hwhy
      cases why with
      | answered => exact h1 rfl
      | timedOut => exact h2 rfl
      | completed => exact h3 rfl
      | evicted => exact ho.not_evicted hids _ hwhy
      | collided => exact nomatch htimes _ hwhy
      | unwaited => exact hunw hwhy
      | rejected => exact ho.not_rejected _ hwhy

/-- A message with an answer function is sent and waits. -/
def waitingRun : List Action := [.send 16 none [.answer true 1], .write 0 2 2]

theorem findable_waitingRun :
    let m := buildItem 0 16 none [.answer true 1]
    let p := Protocol.fresh.run Qt.storing waitingRun
    Outstanding p.log m.uid ∧
      (Findable p m.uid ↔ ¬ Posted p m.uid ∧ .destroyed m.uid .unwaited ∉ p.log) ∧
      ∀ x id, (p.popWaitingAnswer id x.cmd).1 = some x → (p.popWaitingFragment id).1 = some x →
        Served p x id := by
  intro m p
  have hout : Outstanding p.log m.uid := ⟨⟨2 + seconds 3, by decide⟩, by decide⟩
  exact ⟨hout, findable_iff Qt.storing waitingRun m (by decide) (by decide) (by decide) hout⟩

/-- The timer takes the message from the waiting list and posts it to the writer. -/
def postedRun : List Action := waitingRun ++ [.timer .null (seconds 4) (seconds 4)]

/-- Before the writer has sent it again the message is outstanding and cannot be found; an answer
that arrives then does not reach it. -/
theorem answer_while_posted :
    (¬ ∀ (qt : Qt) (acts : List Action) (m : MessageItem), .created m ∈ (Protocol.fresh.run qt acts).log →
      (assignedIds (Protocol.fresh.run qt acts).log).length ≤ 256 →
      (∀ e ∈ (Protocol.fresh.run qt acts).log, e.isCollision = false) →
      Outstanding (Protocol.fresh.run qt acts).log m.uid → Findable (Protocol.fresh.run qt acts) m.uid) ∧
    answerCalls 0 (Protocol.fresh.run Qt.storing (postedRun ++
      [.receive ⟨0, 16, Flag.answer, [0, 9]⟩ Env.quiet])).log = [] := by
  refine ⟨fun h => ?_, by decide⟩
  obtain ⟨x, hx, _⟩ := mem_held_of_findable (h Qt.storing postedRun (buildItem 0 16 none [.answer true 1])
    (by decide) (by decide) (by decide) ⟨⟨2 + seconds 3, by decide⟩, by decide⟩)
  have hempty : (Protocol.fresh.run Qt.storing postedRun).waitingMessages.items = [] := by decide
  obtain ⟨t, ht⟩ := SortedMap.mem_values.mp hx
  rw [hempty] at ht
  exact absurd ht List.not_mem_nil

end HelpzNet
