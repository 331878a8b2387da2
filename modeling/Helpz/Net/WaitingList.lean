import Helpz.Net.Effects
import Helpz.Net.Traffic
import Helpz.Lib.Run

/-!
# The waiting list loses nothing

`waiting_messages_` is keyed by time and searched by id. `add_to_waiting` takes out the message with the id
of the new one, and then `emplace` does nothing if the time point is taken: a message that is due at the same
time as another one is dropped.

* `Distinct`: no two waiting messages have the same id; kept by `add_to_waiting` and so true in every
  reachable state (`distinct_run`);
* `WaitCall`, `call`: the calls of the functions of the list, with arbitrary arguments;
* `LosesNothing`, `TimeFree`: what is expected of a call, and when it is so; `losesNothing_iff`: over
  sequences of calls.
-/

namespace HelpzNet

open HelpzLib

namespace Protocol

/-- No two waiting messages have the same id. -/
def Distinct (p : Protocol) : Prop := ∀ x ∈ p.waitingMessages.items, ∀ y ∈ p.waitingMessages.items,
  x.2.id.getD 0 = y.2.id.getD 0 → x = y

variable {qt : Qt} {p q : Protocol}

theorem Distinct.mono (h : p.Distinct) (hsub : ∀ x ∈ q.waitingMessages.items, x ∈ p.waitingMessages.items) :
    q.Distinct := fun x hx y hy => h x (hsub x hx) y (hsub y hy)

theorem Distinct.nodup (h : p.Distinct) : (p.waitingMessages.items.map fun a => a.2.id.getD 0).Nodup :=
  p.waitingMessages.nodup_items.map_on h

theorem mem_evictSameId (h : p.Distinct) (m : MessageItem) {a : TimePoint × MessageItem} :
    a ∈ (p.evictSameId m).waitingMessages.items ↔
      a ∈ p.waitingMessages.items ∧ a.2.id.getD 0 ≠ m.id.getD 0 := by
  have hlist : (p.evictSameId m).waitingMessages =
      (p.waitingMessages.extract fun x => decide (x.id.getD 0 = m.id.getD 0)).2 := by
    unfold evictSameId
    split <;> rfl
  rw [hlist, SortedMap.mem_extract, decide_eq_false_iff_not]
  intro a ha b hb hda hdb
  exact h a ha b hb ((of_decide_eq_true hda).trans (of_decide_eq_true hdb).symm)

/-- The time point is free of messages with another id. -/
def FreeAt (p : Protocol) (time : TimePoint) (m : MessageItem) : Prop :=
  ∀ x, (time, x) ∈ p.waitingMessages.items → x.id.getD 0 = m.id.getD 0

theorem contains_evictSameId (h : p.Distinct) (time : TimePoint) (m : MessageItem) :
    (p.evictSameId m).waitingMessages.contains time = false ↔ p.FreeAt time m := by
  rw [← Bool.not_eq_true, SortedMap.contains_eq_true]
  constructor
  · intro hno x hx
    by_contra hne
    exact hno ⟨x, (mem_evictSameId h m).mpr ⟨hx, hne⟩⟩
  · rintro hfree ⟨x, hx⟩
    obtain ⟨hmem, hne⟩ := (mem_evictSameId h m).mp hx
    exact hne (hfree x hmem)

/-- **The list after `add_to_waiting`**: the messages with other ids, and the new one if its time point is
free of them. -/
theorem mem_addToWaiting (h : p.Distinct) (time : TimePoint) (m : MessageItem) {a : TimePoint × MessageItem} :
    a ∈ (p.addToWaiting time m).waitingMessages.items ↔
      (a ∈ p.waitingMessages.items ∧ a.2.id.getD 0 ≠ m.id.getD 0) ∨ (p.FreeAt time m ∧ a = (time, m)) := by
  rw [addToWaiting_eq, ← mem_evictSameId h m, ← contains_evictSameId h time m]
  cases hc : (p.evictSameId m).waitingMessages.contains time with
  | true => simp [emit]
  | false =>
      simp only [Bool.false_eq_true, if_false, true_and]
      rw [(SortedMap.emplace_perm hc m).mem_iff, List.mem_cons, or_comm]

theorem Distinct.addToWaiting (h : p.Distinct) (time : TimePoint) (m : MessageItem) :
    (p.addToWaiting time m).Distinct := by
  intro x hx y hy he
  rcases (mem_addToWaiting h time m).mp hx with ⟨hx, hne⟩ | ⟨_, rfl⟩ <;>
    rcases (mem_addToWaiting h time m).mp hy with ⟨hy, hne'⟩ | ⟨_, rfl⟩
  · exact h x hx y hy he
  · exact absurd he hne
  · exact absurd he.symm hne'
  · rfl

/-! ## Reachable states -/

theorem Distinct.effects {C : Event → Prop} (h : p.Distinct) (he : Effects C NoEntry p q) : q.Distinct :=
  h.mono fun x hx => (he.waiting x hx).resolve_right id

/-- Any class of events will do. -/
abbrev anyEvent : Event → Prop := fun _ => True

theorem Distinct.refuseFragmentQuery (h : p.Distinct) (found : Option MessageItem) (msgId : UInt8) :
    (p.refuseFragmentQuery found msgId).Distinct := by
  have hsend : ∀ r : Protocol, Effects anyEvent NoEntry r (r.send Cmd.removeFragment none 0 [msgId]) :=
    fun r => effects_send (fun _ _ => trivial) r _ _ _
  cases found with
  | none => exact h.effects (hsend p)
  | some m =>
      simp only [Protocol.refuseFragmentQuery]
      split_ifs
      · exact (h.addToWaiting m.endTime m).effects (hsend _)
      · exact (h.effects (hsend p)).mono fun _ hx => hx

theorem Distinct.processFragmentQuery (h : p.Distinct) (msgId : UInt8) (pos size : ℕ) :
    (p.processFragmentQuery msgId pos size).Distinct := by
  have hpop : (p.popWaitingFragment msgId).2.Distinct :=
    h.effects (effects_pop (C := anyEvent) p _)
  unfold Protocol.processFragmentQuery
  cases hm : (p.popWaitingFragment msgId).1 with
  | none =>
      simp only [hm]
      exact hpop.refuseFragmentQuery none msgId
  | some m =>
      simp only [hm]
      split_ifs
      · exact hpop.effects (effects_sendMessage (C := anyEvent) (fun _ _ => trivial) _ _)
      · exact hpop.refuseFragmentQuery (some m) msgId

theorem Distinct.processAccepted (h : p.Distinct) (qt : Qt) (env : Env) (pkt : Packet) :
    (p.processAccepted qt env pkt).1.Distinct := by
  by_cases hq : ∃ id pos size, pkt.content qt = some (.fragmentQuery id pos size)
  · obtain ⟨id, pos, size, hq⟩ := hq
    unfold Protocol.processAccepted
    split_ifs
    · exact h
    · rw [hq]
      exact h.processFragmentQuery id pos size
  · -- any other packet puts nothing on the list
    have heff := effects_accepted (C := anyEvent) (fun _ _ => trivial) (fun _ => trivial) qt p env pkt
    refine h.mono fun x hx => (heff.waiting x hx).resolve_right ?_
    rintro ⟨id, pos, size, _, hc, _⟩
    exact hq ⟨id, pos, size, hc⟩

theorem Distinct.write (h : p.Distinct) (qt : Qt) (i : ℕ) (now₁ now₂ : TimePoint) :
    (p.write qt i now₁ now₂).1.Distinct := by
  cases hm : p.posted[i]? with
  | none => rwa [write_of_none hm]
  | some m =>
      rw [write_of_posted hm]
      cases hd : m.dataDevice with
      | none =>
          simp only [preparePacketToSend, hd]
          exact h
      | some d =>
          let r : Protocol := { p with posted := p.posted.eraseIdx i }
          have hsame : (r.afterSent qt m d now₂).waitingMessages = p.waitingMessages :=
            waitingMessages_assignId r m
          have hsent : (r.afterSent qt m d now₂).Distinct := h.mono fun x hx => hsame ▸ hx
          rw [preparePacketToSend_some qt _ hd]
          split_ifs
          · exact (hsent.addToWaiting _ _).effects
              (effects_addTimeoutAt (C := anyEvent) (fun _ _ => trivial) _ _ _)
          · exact hsent

theorem Distinct.step (h : p.Distinct) (qt : Qt) (a : Action) : (p.step qt a).1.Distinct := by
  cases a with
  | send cmd answerId calls => exact h.effects (effects_sendItem (C := anyEvent) (fun _ _ => trivial) p trivial)
  | write i now₁ now₂ => exact h.write qt i now₁ now₂
  | timer data now₁ now₂ =>
      exact h.effects (effects_processWaitList (C := anyEvent) (fun _ _ => trivial) (fun _ => trivial) p data
        now₁ now₂ fun _ _ _ _ => trivial)
  | receive pkt env =>
      have htest : (p.afterTest pkt env).Distinct :=
        h.effects (effects_afterTest (C := anyEvent) (fun _ _ => trivial) p pkt env trivial)
      rw [step_receive]
      split_ifs
      · exact htest.processAccepted qt env pkt
      · exact htest

theorem Distinct.run (h : p.Distinct) (qt : Qt) (acts : List Action) : (p.run qt acts).Distinct := by
  induction acts generalizing p with
  | nil => exact h
  | cons a acts ih => exact ih (h.step qt a)

/-- **In every reachable state no two waiting messages have the same id.** -/
theorem distinct_run (qt : Qt) (acts : List Action) : (fresh.run qt acts).Distinct := by
  refine Distinct.run (fun x hx => ?_) qt acts
  cases hx

end Protocol

/-! ## Calls of the functions of the list -/

/-- A call of a function of the waiting list. -/
inductive WaitCall
  | addToWaiting (time : TimePoint) (m : MessageItem)
  | popWaitingMessages (now : TimePoint)
  | popWaitingAnswer (answerId cmd : UInt8)
  | popWaitingFragment (msgId : UInt8)
  deriving DecidableEq, Repr

namespace Protocol

/-- The messages a call returns, and the object afterwards. -/
def call (p : Protocol) : WaitCall → List MessageItem × Protocol
  | .addToWaiting time m => ([], p.addToWaiting time m)
  | .popWaitingMessages now => p.popWaitingMessages now
  | .popWaitingAnswer answerId cmd =>
      ((p.popWaitingAnswer answerId cmd).1.toList, (p.popWaitingAnswer answerId cmd).2)
  | .popWaitingFragment msgId => ((p.popWaitingFragment msgId).1.toList, (p.popWaitingFragment msgId).2)

/-- What is expected of a call: a message that is added is on the list with all that have other ids, each id
occurs once, and a message leaves the list only by being returned or replaced. -/
structure LosesNothing (p : Protocol) (c : WaitCall) : Prop where
  added : ∀ time m, c = .addToWaiting time m → m ∈ (p.call c).2.waitingMessages.values ∧
    ∀ x ∈ p.waitingMessages.values, x.id.getD 0 ≠ m.id.getD 0 → x ∈ (p.call c).2.waitingMessages.values
  once : ((p.call c).2.waitingMessages.items.map fun a => a.2.id.getD 0).Nodup
  leaves : ∀ x ∈ p.waitingMessages.values, x ∈ (p.call c).2.waitingMessages.values ∨ x ∈ (p.call c).1 ∨
    ∃ time m, c = .addToWaiting time m ∧ x.id.getD 0 = m.id.getD 0

/-- A message is added at a time point that is free of messages with other ids. -/
def TimeFree (p : Protocol) : WaitCall → Prop
  | .addToWaiting time m => p.FreeAt time m
  | _ => True

variable {p : Protocol} {c : WaitCall}

theorem mem_pop {check : MessageItem → Bool} {x : MessageItem} (hx : x ∈ p.waitingMessages.values) :
    x ∈ (p.popWaitingMessage check).2.waitingMessages.values ∨ x ∈ (p.popWaitingMessage check).1.toList := by
  cases hpop : (p.popWaitingMessage check).1 with
  | none =>
      have hsame : (p.popWaitingMessage check).2.waitingMessages = p.waitingMessages :=
        SortedMap.extract_of_none hpop
      exact Or.inl (hsame ▸ hx)
  | some m =>
      have hvalues : p.waitingMessages.values = m ::ₘ (p.popWaitingMessage check).2.waitingMessages.values :=
        SortedMap.values_extract hpop
      rw [hvalues] at hx
      rcases Multiset.mem_cons.mp hx with rfl | hx
      · exact Or.inr (List.mem_singleton.mpr rfl)
      · exact Or.inl hx

theorem Distinct.call (h : p.Distinct) (c : WaitCall) : (p.call c).2.Distinct := by
  cases c with
  | addToWaiting time m => exact h.addToWaiting time m
  | popWaitingMessages now => exact h.mono fun x hx => (List.dropWhile_sublist _).subset hx
  | popWaitingAnswer answerId cmd => exact h.mono fun x hx => List.eraseP_sublist.subset hx
  | popWaitingFragment msgId => exact h.mono fun x hx => List.eraseP_sublist.subset hx

theorem losesNothing_of_timeFree (h : p.Distinct) (hfree : p.TimeFree c) : LosesNothing p c := by
  have hkept : ∀ time m, c = .addToWaiting time m → ∀ x ∈ p.waitingMessages.values,
      x.id.getD 0 ≠ m.id.getD 0 → x ∈ (p.call c).2.waitingMessages.values := by
    rintro time m rfl x hx hne
    obtain ⟨k, hk⟩ := SortedMap.mem_values.mp hx
    exact SortedMap.mem_values.mpr ⟨k, (mem_addToWaiting h time m).mpr (Or.inl ⟨hk, hne⟩)⟩
  refine ⟨fun time m hc => ⟨?_, hkept time m hc⟩, (h.call c).nodup, fun x hx => ?_⟩
  · subst hc
    exact SortedMap.mem_values.mpr ⟨time, (mem_addToWaiting h time m).mpr (Or.inr ⟨hfree, rfl⟩)⟩
  · cases c with
    | addToWaiting time m =>
        by_cases hid : x.id.getD 0 = m.id.getD 0
        · exact Or.inr (Or.inr ⟨time, m, rfl, hid⟩)
        · exact Or.inl (hkept time m rfl x hx hid)
    | popWaitingMessages now =>
        rw [SortedMap.values_popUpTo p.waitingMessages (now + milliseconds 20), Multiset.mem_add,
          Multiset.mem_coe] at hx
        exact hx.symm.imp_right Or.inl
    | popWaitingAnswer answerId cmd => exact (mem_pop hx).imp_right Or.inl
    | popWaitingFragment msgId => exact (mem_pop hx).imp_right Or.inl

theorem timeFree_of_losesNothing (h : p.Distinct) (hl : LosesNothing p c) : p.TimeFree c := by
  cases c with
  | addToWaiting time m =>
      obtain ⟨k, hk⟩ := SortedMap.mem_values.mp (hl.added time m rfl).1
      rcases (mem_addToWaiting h time m).mp hk with ⟨_, hne⟩ | ⟨hfree, _⟩
      · exact absurd rfl hne
      · exact hfree
  | _ => exact trivial

/-- **The waiting list loses nothing, over a sequence of calls from any reachable state, exactly if no
message is added at the time point of one with another id.** -/
theorem losesNothing_iff (qt : Qt) (acts : List Action) (calls : List WaitCall) :
    Along (fun p c => some (p.call c).2) LosesNothing (fresh.run qt acts) calls ↔
      Along (fun p c => some (p.call c).2) TimeFree (fresh.run qt acts) calls := by
  refine along_congr (I := Distinct) (fun p c h => ?_) (fun p c h _ => h.call c) (distinct_run qt acts)
  exact ⟨timeFree_of_losesNothing h, losesNothing_of_timeFree h⟩

/-- **A message is lost when its time point is taken.** -/
theorem collision_loses : ¬ ∀ (qt : Qt) (acts : List Action) (calls : List WaitCall),
    Along (fun p c => some (p.call c).2) LosesNothing (fresh.run qt acts) calls := by
  intro h
  let first : MessageItem := { MessageItem.new 0 16 none with id := some 0 }
  let second : MessageItem := { MessageItem.new 1 16 none with id := some 1 }
  have hl := h Qt.storing [] [.addToWaiting 5 first, .addToWaiting 5 second]
  have hfree := timeFree_of_losesNothing ((distinct_run Qt.storing []).call (.addToWaiting 5 first))
    (hl.2 _ rfl).1
  have hid := hfree first (by decide)
  revert hid
  decide

end Protocol

end HelpzNet
