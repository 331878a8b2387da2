import Helpz.Net.Run
import Mathlib.Logic.Relation
import Mathlib.Algebra.Order.Group.Multiset
import Mathlib.Tactic.Abel

/-!
# Who holds a message item

A message item travels between the caller, the queue of the writer and the waiting list, and ends in
one of several places. What every function of the protocol does with items is a sequence of a few
elementary moves on the bag of items held (`Books.Move`); an invariant of the items has to be checked
on these moves only.

* `Books`: the items held, each with what has already been done to it, and the log;
* `Outcome`: the ways an item can end, as the events it leaves in the log;
* `Books.Steps`: sequences of moves; `Protocol.books p E` is the state with the items `E` in local
  variables;
* one lemma for each function, up to `steps_step` and `steps_run`.
-/

namespace HelpzNet

open HelpzLib

/-- The item whose fate an event belongs to. -/
def Event.subject : Event → Option ℕ
  | .answerFunc uid _ _ _ _ => some uid
  | .timeoutFunc uid _ => some uid
  | .finallyFunc uid _ => some uid
  | .created m => some m.uid
  | .destroyed uid _ => some uid
  | _ => none

/-- The event neither belongs to the fate of an item nor assigns an id. -/
def Event.Plain : Event → Prop
  | .assigned _ _ => False
  | e => e.subject = none

/-- The two items are the same message: only id, position, deadline, fragment size and the REPEATED
flag may differ. -/
structure MessageItem.SameMessage (m m' : MessageItem) : Prop where
  uid : m'.uid = m.uid
  cmd : m'.cmd = m.cmd
  answerId : m'.answerId = m.answerId
  answerFunc : m'.answerFunc = m.answerFunc
  timeoutFunc : m'.timeoutFunc = m.timeoutFunc
  finallyFunc : m'.finallyFunc = m.finallyFunc
  payload : m'.payload = m.payload
  device : m'.dataDevice.isSome = m.dataDevice.isSome
  flags : m'.flags = m.flags ∨ m'.flags = m.flags ||| Flag.repeated

theorem MessageItem.SameMessage.refl (m : MessageItem) : m.SameMessage m :=
  ⟨rfl, rfl, rfl, rfl, rfl, rfl, rfl, rfl, Or.inl rfl⟩

theorem or_repeated_twice (f : UInt8) : f ||| Flag.repeated ||| Flag.repeated = f ||| Flag.repeated := by
  apply UInt8.eq_of_toBitVec_eq
  ext i
  simp

theorem MessageItem.SameMessage.trans {a b c : MessageItem} (h : a.SameMessage b) (h' : b.SameMessage c) :
    a.SameMessage c := by
  refine ⟨h'.uid.trans h.uid, h'.cmd.trans h.cmd, h'.answerId.trans h.answerId,
    h'.answerFunc.trans h.answerFunc, h'.timeoutFunc.trans h.timeoutFunc,
    h'.finallyFunc.trans h.finallyFunc, h'.payload.trans h.payload, h'.device.trans h.device, ?_⟩
  rcases h.flags with hf | hf <;> rcases h'.flags with hf' | hf' <;> rw [hf', hf]
  · exact Or.inl rfl
  · exact Or.inr rfl
  · exact Or.inr rfl
  · exact Or.inr (or_repeated_twice _)

theorem MessageItem.sameMessage_seek (m : MessageItem) (pos : ℕ) :
    m.SameMessage (m.seek pos) := by
  refine ⟨rfl, rfl, rfl, rfl, rfl, rfl, ?_, ?_, Or.inl rfl⟩
  · unfold MessageItem.payload MessageItem.seek
    cases m.dataDevice <;> simp
  · simp [MessageItem.seek]

theorem MessageItem.sameMessage_setFragmentSize (m : MessageItem) (size : ℕ) :
    m.SameMessage (m.setFragmentSize size) :=
  ⟨rfl, rfl, rfl, rfl, rfl, rfl, rfl, rfl, Or.inl rfl⟩

theorem MessageItem.sameMessage_repeated (m : MessageItem) :
    m.SameMessage (m.setFlags (m.flags ||| Flag.repeated)) :=
  ⟨rfl, rfl, rfl, rfl, rfl, rfl, rfl, rfl, Or.inr rfl⟩

/-- How an item ends, as the events it leaves: its answer function is called, or its timeout
function, or neither; then it is destroyed. -/
inductive Outcome (m : MessageItem) : List Event → Prop
  | released (why : Release) : Outcome m (m.destroy why)
  | answered (msgId cmd : UInt8) (data : Bytes) (threw : Bool) : m.answerFunc = true →
      Outcome m (.answerFunc m.uid msgId cmd data threw ::
        MessageItem.destroy { m with answerFunc := threw } .answered)
  | timedOut (now : TimePoint) : m.timeoutFunc = true →
      Outcome m (.timeoutFunc m.uid now :: m.destroy .timedOut)

theorem MessageItem.SameMessage.destroy {m m' : MessageItem} (h : m.SameMessage m') (why : Release) :
    m'.destroy why = m.destroy why := by
  simp only [MessageItem.destroy, h.uid, h.answerFunc, h.finallyFunc]

theorem Outcome.of_same {m m' : MessageItem} (h : m.SameMessage m') {evs : List Event}
    (ho : Outcome m' evs) : Outcome m evs := by
  cases ho with
  | released why => rw [h.destroy]; exact .released why
  | answered msgId cmd data threw ha =>
      have hd : MessageItem.destroy { m' with answerFunc := threw } .answered =
          MessageItem.destroy { m with answerFunc := threw } .answered := by
        simp only [MessageItem.destroy, h.uid, h.finallyFunc]
      rw [hd, h.uid]
      exact .answered msgId cmd data threw (h.answerFunc ▸ ha)
  | timedOut now ht =>
      rw [h.destroy, h.uid]
      exact .timedOut now (h.timeoutFunc ▸ ht)

theorem subject_destroy (m : MessageItem) (why : Release) :
    ∀ e ∈ m.destroy why, e.subject = some m.uid := by
  intro e he
  unfold MessageItem.destroy at he
  split_ifs at he <;> simp only [List.mem_cons, List.not_mem_nil, or_false] at he
  · rcases he with rfl | rfl <;> rfl
  · subst he; rfl

/-- An item that is held: whether it is on the waiting list, and the events of its fate so far. -/
structure Holding where
  item : MessageItem
  waits : Bool
  past : List Event

/-- An item in a local variable or in the queue of the writer, to which nothing has happened yet. -/
abbrev Holding.idle (m : MessageItem) : Holding := ⟨m, false, []⟩

/-- The items held, the next identity and the next id, whether there is a writer, and the log. -/
structure Books where
  bag : Multiset Holding
  alloc : ℕ
  nextTx : UInt8
  hasWriter : Bool
  log : List Event

/-- What lies behind a release: an item is rejected only without a writer or a device, and evicted
only by another one with the same id. -/
def Release.Justified (w : Bool) (others : Multiset Holding) (m : MessageItem) : Release → Prop
  | .rejected => w = false ∨ m.dataDevice = none
  | .evicted => m.id.isSome ∧ ∃ h ∈ others, h.item.id = m.id
  | _ => True

/-- An event of the fate of `m`, justified by what else is held. -/
structure Event.Befalls (w : Bool) (others : Multiset Holding) (m : MessageItem) (e : Event) : Prop where
  subject : e.subject = some m.uid
  justified : ∀ u why, e = .destroyed u why → why.Justified w others m

theorem befalls_destroy {w : Bool} {others : Multiset Holding} {m : MessageItem} {why : Release}
    (h : why.Justified w others m) : ∀ e ∈ m.destroy why, e.Befalls w others m := by
  intro e he
  refine ⟨subject_destroy m why e he, fun u why' heq => ?_⟩
  unfold MessageItem.destroy at he
  subst heq
  split_ifs at he <;> simp only [List.mem_cons, List.not_mem_nil, or_false, reduceCtorEq] at he
  · obtain ⟨_, rfl⟩ := Event.destroyed.inj he
    exact h
  · obtain ⟨_, rfl⟩ := Event.destroyed.inj he
    exact h

namespace Books

/-- The elementary moves. -/
inductive Move : Books → Books → Prop
  /-- something else happens -/
  | note {bag alloc tx w log} (e : Event) : e.Plain →
      Move ⟨bag, alloc, tx, w, log⟩ ⟨bag, alloc, tx, w, log ++ [e]⟩
  /-- an item is created -/
  | create {bag alloc tx w log} (m : MessageItem) : m.uid = alloc → m.id = none → m.dataDevice.isSome →
      m.flags = 0 ∨ m.flags = Flag.fragmentQuery →
      Move ⟨bag, alloc, tx, w, log⟩ ⟨.idle m ::ₘ bag, alloc + 1, tx, w, log ++ [.created m]⟩
  /-- an item changes, but not as a message -/
  | touch {bag alloc tx w log pre} (m m' : MessageItem) : m.SameMessage m' → m'.id = m.id →
      Move ⟨⟨m, false, pre⟩ ::ₘ bag, alloc, tx, w, log⟩ ⟨⟨m', false, pre⟩ ::ₘ bag, alloc, tx, w, log⟩
  /-- an item gets its id -/
  | assign {bag alloc tx w log pre} (m : MessageItem) : m.id = none →
      Move ⟨⟨m, false, pre⟩ ::ₘ bag, alloc, tx, w, log⟩
        ⟨⟨{ m with id := some tx }, false, pre⟩ ::ₘ bag, alloc, tx + 1, w,
          log ++ [.assigned tx m.payload]⟩
  /-- an item is put on the waiting list -/
  | park {bag alloc tx w log} (m : MessageItem) : m.id.isSome →
      Move ⟨.idle m ::ₘ bag, alloc, tx, w, log⟩ ⟨⟨m, true, []⟩ ::ₘ bag, alloc, tx, w, log⟩
  /-- an item is taken from the waiting list -/
  | take {bag alloc tx w log} (m : MessageItem) :
      Move ⟨⟨m, true, []⟩ ::ₘ bag, alloc, tx, w, log⟩ ⟨.idle m ::ₘ bag, alloc, tx, w, log⟩
  /-- an event of the fate of an item -/
  | record {bag alloc tx w log pre} (m : MessageItem) (e : Event) : e.Befalls w bag m →
      Move ⟨⟨m, false, pre⟩ ::ₘ bag, alloc, tx, w, log⟩
        ⟨⟨m, false, pre ++ [e]⟩ ::ₘ bag, alloc, tx, w, log ++ [e]⟩
  /-- an item is gone -/
  | close {bag alloc tx w log pre} (m : MessageItem) : Outcome m pre →
      Move ⟨⟨m, false, pre⟩ ::ₘ bag, alloc, tx, w, log⟩ ⟨bag, alloc, tx, w, log⟩

/-- A sequence of moves. -/
abbrev Steps : Books → Books → Prop := Relation.ReflTransGen Move

variable {bag : Multiset Holding} {alloc : ℕ} {tx : UInt8} {w : Bool} {log : List Event}

theorem Steps.notes (evs : List Event) (h : ∀ e ∈ evs, e.Plain) :
    Steps ⟨bag, alloc, tx, w, log⟩ ⟨bag, alloc, tx, w, log ++ evs⟩ := by
  induction evs generalizing log with
  | nil => rw [List.append_nil]
  | cons e evs ih =>
      obtain ⟨he, hrest⟩ := List.forall_mem_cons.mp h
      refine .head (.note e he) ?_
      rw [List.append_cons log e evs]
      exact ih hrest

theorem Steps.records {pre : List Event} (m : MessageItem) (evs : List Event)
    (h : ∀ e ∈ evs, e.Befalls w bag m) :
    Steps ⟨⟨m, false, pre⟩ ::ₘ bag, alloc, tx, w, log⟩
      ⟨⟨m, false, pre ++ evs⟩ ::ₘ bag, alloc, tx, w, log ++ evs⟩ := by
  induction evs generalizing log pre with
  | nil => rw [List.append_nil, List.append_nil]
  | cons e evs ih =>
      obtain ⟨he, hrest⟩ := List.forall_mem_cons.mp h
      refine .head (.record m e he) ?_
      rw [List.append_cons pre e evs, List.append_cons log e evs]
      exact ih hrest

theorem Steps.settle {pre : List Event} (m : MessageItem) (evs : List Event)
    (h : ∀ e ∈ evs, e.Befalls w bag m) (ho : Outcome m (pre ++ evs)) :
    Steps ⟨⟨m, false, pre⟩ ::ₘ bag, alloc, tx, w, log⟩ ⟨bag, alloc, tx, w, log ++ evs⟩ :=
  (Steps.records m evs h).tail (.close m ho)

theorem Steps.log_prefix {b b' : Books} (h : Steps b b') : b.log <+: b'.log := by
  induction h with
  | refl => exact List.prefix_rfl
  | tail _ hm ih =>
      refine ih.trans ?_
      cases hm <;> first | exact List.prefix_append _ _ | exact List.prefix_rfl

theorem Steps.forall_items {P : MessageItem → Prop} {b b' : Books}
    (hnew : ∀ m : MessageItem, m.flags = 0 ∨ m.flags = Flag.fragmentQuery → P m)
    (hsame : ∀ m m' : MessageItem, m.SameMessage m' → P m → P m') (h : ∀ x ∈ b.bag, P x.item)
    (hs : Steps b b') : ∀ x ∈ b'.bag, P x.item := by
  induction hs with
  | refl => exact h
  | tail _ hm ih =>
      cases hm with
      | note e he => exact ih
      | create m hu hid hd hf => exact Multiset.forall_mem_cons.mpr ⟨hnew m hf, ih⟩
      | touch m m' hm hid =>
          obtain ⟨hx, hrest⟩ := Multiset.forall_mem_cons.mp ih
          exact Multiset.forall_mem_cons.mpr ⟨hsame m m' hm hx, hrest⟩
      | assign m hid =>
          obtain ⟨hx, hrest⟩ := Multiset.forall_mem_cons.mp ih
          exact Multiset.forall_mem_cons.mpr
            ⟨hsame m _ ⟨rfl, rfl, rfl, rfl, rfl, rfl, rfl, rfl, Or.inl rfl⟩ hx, hrest⟩
      | park m hid => exact Multiset.forall_mem_cons.mpr (Multiset.forall_mem_cons.mp ih)
      | take m => exact Multiset.forall_mem_cons.mpr (Multiset.forall_mem_cons.mp ih)
      | record m e he => exact Multiset.forall_mem_cons.mpr (Multiset.forall_mem_cons.mp ih)
      | close m ho => exact (Multiset.forall_mem_cons.mp ih).2

end Books

namespace Protocol

open Books

/-- The items an object holds: those posted to the writer and those waiting. -/
def holdings (p : Protocol) : Multiset Holding :=
  (p.posted : Multiset MessageItem).map .idle + p.waitingMessages.values.map fun m => ⟨m, true, []⟩

/-- The books of an object while the items `E` are in local variables. -/
def books (p : Protocol) (E : Multiset Holding) : Books :=
  ⟨E + p.holdings, p.alloc, p.nextTxMsgId, p.hasWriter, p.log⟩

/-- Every item on the waiting list has an id. -/
def WaitingHaveIds (p : Protocol) : Prop := ∀ m ∈ p.waitingMessages.values, m.id.isSome

variable {p : Protocol} {m m' : MessageItem} {E : Multiset Holding}

theorem books_cons (p : Protocol) (x : Holding) (E : Multiset Holding) :
    p.books (x ::ₘ E) = ⟨x ::ₘ (E + p.holdings), p.alloc, p.nextTxMsgId, p.hasWriter, p.log⟩ := by
  rw [books, Multiset.cons_add]

/-! ## Elementary functions -/

theorem steps_pop {check : MessageItem → Bool} (h : (p.popWaitingMessage check).1 = some m) :
    Steps (p.books E) ((p.popWaitingMessage check).2.books (.idle m ::ₘ E)) := by
  have hv := SortedMap.values_extract (m := p.waitingMessages) (p := check) h
  have hb : p.books E = ⟨⟨m, true, []⟩ ::ₘ (E + (p.popWaitingMessage check).2.holdings), p.alloc,
      p.nextTxMsgId, p.hasWriter, p.log⟩ := by
    simp only [books, holdings, popWaitingMessage, hv]
    congr 1
    simp only [Multiset.map_cons, Multiset.add_cons]
  rw [hb, books_cons]
  exact .single (.take m)

theorem mem_of_pop {check : MessageItem → Bool} (h : (p.popWaitingMessage check).1 = some m) :
    m ∈ p.waitingMessages.values := by
  rw [SortedMap.values_extract (m := p.waitingMessages) (p := check) h]
  exact Multiset.mem_cons_self _ _

theorem check_of_pop {check : MessageItem → Bool} (h : (p.popWaitingMessage check).1 = some m) :
    check m = true :=
  (SortedMap.extract_of_some (m := p.waitingMessages) (p := check) h).1

theorem pop_none {check : MessageItem → Bool} (h : (p.popWaitingMessage check).1 = none) :
    (p.popWaitingMessage check).2 = p := by
  have he := SortedMap.extract_of_none (m := p.waitingMessages) (p := check) h
  simp only [popWaitingMessage, he]

theorem steps_emit (evs : List Event) (h : ∀ e ∈ evs, e.Plain) :
    Steps (p.books E) ((p.emit evs).books E) := Steps.notes evs h

theorem steps_handler (p : Protocol) (e : Event) (h : e.Plain) (E : Multiset Holding) :
    Steps (p.books E) ((p.emit [e]).books E) :=
  steps_emit _ fun x hx => by
    rw [List.mem_singleton] at hx
    exact hx ▸ h

theorem steps_settle {pre : List Event} (evs : List Event)
    (h : ∀ e ∈ evs, e.Befalls p.hasWriter (E + p.holdings) m) (ho : Outcome m (pre ++ evs)) :
    Steps (p.books (⟨m, false, pre⟩ ::ₘ E)) ((p.emit evs).books E) := by
  rw [books_cons]
  exact Steps.settle m evs h ho

theorem steps_destroy (p : Protocol) (m : MessageItem) {why : Release} {E : Multiset Holding}
    (h : why.Justified p.hasWriter (E + p.holdings) m) :
    Steps (p.books (.idle m ::ₘ E)) ((p.emit (m.destroy why)).books E) :=
  steps_settle _ (befalls_destroy h) (.released why)

theorem steps_touch {pre : List Event} (h : m.SameMessage m') (hid : m'.id = m.id) :
    Steps (p.books (⟨m, false, pre⟩ ::ₘ E)) (p.books (⟨m', false, pre⟩ ::ₘ E)) := by
  rw [books_cons, books_cons]
  exact .single (.touch m m' h hid)

theorem steps_sendMessage (p : Protocol) (m : MessageItem) (E : Multiset Holding) :
    Steps (p.books (.idle m ::ₘ E)) ((p.sendMessage m).books E) := by
  unfold sendMessage
  split_ifs with h
  · have hb : p.books (.idle m ::ₘ E) = ({ p with posted := p.posted ++ [m] } : Protocol).books E := by
      simp only [books, holdings, ← Multiset.coe_add, Multiset.coe_singleton]
      congr 1
      simp only [Multiset.map_add, Multiset.map_singleton, ← Multiset.singleton_add]
      abel
    rw [hb]
  · refine steps_destroy p m ?_
    rw [Bool.and_eq_true, not_and_or, Bool.not_eq_true, Bool.not_eq_true, Option.isSome_eq_false_iff,
      Option.isNone_iff_eq_none] at h
    exact h.symm

theorem books_congr {p q : Protocol} (h1 : q.posted = p.posted)
    (h2 : q.waitingMessages = p.waitingMessages) (h3 : q.alloc = p.alloc)
    (h4 : q.nextTxMsgId = p.nextTxMsgId) (h5 : q.hasWriter = p.hasWriter) (h6 : q.log = p.log) :
    q.books E = p.books E := by
  simp only [books, holdings, h1, h2, h3, h4, h5, h6]

theorem steps_evictSameId (hp : p.WaitingHaveIds) (hm : m.id.isSome) :
    Steps (p.books (.idle m ::ₘ E)) ((p.evictSameId m).books (.idle m ::ₘ E)) := by
  unfold evictSameId
  split
  next old hold =>
    have hsame := check_of_pop hold
    have hid : m.id = old.id := by
      obtain ⟨i, hi⟩ := Option.isSome_iff_exists.mp hm
      obtain ⟨j, hj⟩ := Option.isSome_iff_exists.mp (hp old (mem_of_pop hold))
      simpa [hi, hj] using (of_decide_eq_true hsame).symm
    refine (steps_pop hold).trans (steps_destroy _ old ⟨hid ▸ hm, .idle m, ?_, hid⟩)
    exact Multiset.mem_add.mpr (Or.inl (Multiset.mem_cons_self _ _))
  next hnone => rw [pop_none hnone]

theorem steps_addToWaiting (hp : p.WaitingHaveIds) (hm : m.id.isSome) (time : TimePoint) :
    Steps (p.books (.idle m ::ₘ E)) ((p.addToWaiting time m).books E) := by
  rw [addToWaiting_eq]
  refine (steps_evictSameId hp hm).trans ?_
  generalize p.evictSameId m = q
  split_ifs with hc
  · exact steps_destroy q m trivial
  · have hv := SortedMap.values_emplace (Bool.not_eq_true _ ▸ hc) m
    have hb : ({ q with waitingMessages := q.waitingMessages.emplace time m } : Protocol).books E =
        ⟨⟨m, true, []⟩ ::ₘ (E + q.holdings), q.alloc, q.nextTxMsgId, q.hasWriter, q.log⟩ := by
      simp only [books, holdings, hv]
      congr 1
      simp only [Multiset.map_cons, Multiset.add_cons]
    refine Relation.ReflTransGen.trans ?_ (steps_handler
      { q with waitingMessages := q.waitingMessages.emplace time m } (.waiting m.uid time) rfl E)
    rw [hb, books_cons]
    exact .single (.park m hm)

/-! ## Sending -/

theorem steps_sendItem {m : MessageItem} (hu : m.uid = p.alloc) (hid : m.id = none)
    (hd : m.dataDevice.isSome) (hf : m.flags = 0 ∨ m.flags = Flag.fragmentQuery) :
    Steps (p.books E) ((p.sendItem m).books E) := by
  let q : Protocol := { p with alloc := p.alloc + 1, log := p.log ++ [.created m] }
  have hcreate : Steps (p.books E) (q.books (.idle m ::ₘ E)) := by
    rw [books_cons]
    exact .single (.create m hu hid hd hf)
  refine hcreate.trans ?_
  unfold sendItem
  split_ifs with hw
  · exact (steps_touch (m.sameMessage_seek _) rfl).trans (steps_sendMessage q _ E)
  · exact steps_destroy q m (Or.inl (Bool.not_eq_true _ ▸ hw))

theorem steps_send (p : Protocol) (cmd : UInt8) (a : Option UInt8) {flags : UInt8} (data : Bytes)
    (hf : flags = 0 ∨ flags = Flag.fragmentQuery) (E : Multiset Holding) :
    Steps (p.books E) ((p.send cmd a flags data).books E) :=
  steps_sendItem rfl rfl rfl hf

/-! ## The waiting list -/

theorem steps_refuseFragmentQuery (hp : p.WaitingHaveIds) (hm : m.id.isSome) (msgId : UInt8) :
    Steps (p.books (.idle m ::ₘ E)) ((p.refuseFragmentQuery (some m) msgId).books E) := by
  simp only [refuseFragmentQuery]
  split_ifs
  · exact (steps_addToWaiting hp hm _).trans (steps_send _ _ _ _ (Or.inl rfl) E)
  · exact (steps_send p _ _ _ (Or.inl rfl) _).trans (steps_destroy _ m trivial)

theorem WaitingHaveIds.pop (hp : p.WaitingHaveIds) {check : MessageItem → Bool} :
    (p.popWaitingMessage check).2.WaitingHaveIds := by
  cases hpop : (p.popWaitingMessage check).1 with
  | none => rw [pop_none hpop]; exact hp
  | some m =>
      intro x hx
      refine hp x ?_
      rw [SortedMap.values_extract (m := p.waitingMessages) (p := check) hpop]
      exact Multiset.mem_cons_of_mem hx

theorem steps_processFragmentQuery (hp : p.WaitingHaveIds) (msgId : UInt8) (pos size : ℕ) :
    Steps (p.books E) ((p.processFragmentQuery msgId pos size).books E) := by
  unfold processFragmentQuery
  cases hpop : (p.popWaitingFragment msgId).1 with
  | none =>
      simp only [hpop, show (p.popWaitingFragment msgId).2 = p from pop_none hpop]
      exact steps_send p _ _ _ (Or.inl rfl) E
  | some m =>
      simp only [hpop]
      refine (steps_pop hpop).trans ?_
      split_ifs
      · exact (steps_touch ((m.sameMessage_setFragmentSize size).trans
          (MessageItem.sameMessage_seek _ pos)) rfl).trans (steps_sendMessage _ _ E)
      · exact steps_refuseFragmentQuery hp.pop (hp m (mem_of_pop hpop)) msgId

/-- What the timer does to an item that it gives up, before it is destroyed. -/
def expiry (now : TimePoint) (m : MessageItem) : List Event :=
  if m.timeoutFunc then [.timeoutFunc m.uid now] else []

theorem steps_resendOrExpire (now : TimePoint) (p : Protocol) (m : MessageItem) (E : Multiset Holding) :
    Steps (p.books (.idle m ::ₘ E)) ((resendOrExpire now p m).books
      (if isResent now m then E else ⟨m, false, expiry now m⟩ ::ₘ E)) := by
  unfold resendOrExpire expiry
  split_ifs with hr ht
  · have hsame := (m.sameMessage_setFragmentSize (m.fragmentSize / 2)).trans
      (MessageItem.sameMessage_repeated _)
    exact (steps_touch hsame rfl).trans (steps_sendMessage p _ E)
  · rw [books_cons, books_cons]
    exact .single (.record m _ ⟨rfl, fun _ _ h => nomatch h⟩)
  · exact .refl

theorem steps_resendAll (now : TimePoint) (l : List MessageItem) (p : Protocol) (E : Multiset Holding) :
    Steps (p.books (↑(l.map Holding.idle) + E)) ((l.foldl (resendOrExpire now) p).books
      (↑((l.filter fun m => !isResent now m).map fun m => (⟨m, false, expiry now m⟩ : Holding)) + E)) := by
  induction l generalizing p E with
  | nil => exact .refl
  | cons m l ih =>
      rw [List.map_cons, ← Multiset.cons_coe, Multiset.cons_add, List.foldl_cons]
      refine (steps_resendOrExpire now p m _).trans ?_
      cases hr : isResent now m with
      | true =>
          rw [if_pos rfl, List.filter_cons_of_neg (by simp [hr])]
          exact ih _ E
      | false =>
          rw [if_neg Bool.false_ne_true, List.filter_cons_of_pos (by simp [hr]), List.map_cons,
            ← Multiset.cons_coe, Multiset.cons_add, ← Multiset.add_cons, ← Multiset.add_cons]
          exact ih _ _

theorem steps_destroyAll (now : TimePoint) (l : List MessageItem) (p : Protocol) (E : Multiset Holding) :
    Steps (p.books (↑(l.map fun m => (⟨m, false, expiry now m⟩ : Holding)) + E))
      ((p.emit (l.flatMap fun m => m.destroy .timedOut)).books E) := by
  induction l generalizing p with
  | nil =>
      have hb : p.books (↑(([] : List MessageItem).map fun m => (⟨m, false, expiry now m⟩ : Holding)) + E) =
          (p.emit ([].flatMap fun m : MessageItem => m.destroy .timedOut)).books E := by
        simp [books, emit, holdings]
      rw [hb]
  | cons m l ih =>
      rw [List.map_cons, ← Multiset.cons_coe, Multiset.cons_add, List.flatMap_cons]
      have ho : Outcome m (expiry now m ++ m.destroy .timedOut) := by
        unfold expiry
        split_ifs with ht
        · exact .timedOut now ht
        · exact .released .timedOut
      have hrest := ih (p.emit (m.destroy .timedOut))
      simp only [emit, List.append_assoc] at hrest ⊢
      refine (steps_settle _ (befalls_destroy ?_) ho).trans hrest
      trivial

theorem steps_takeAll {bag : Multiset Holding} {alloc : ℕ} {tx : UInt8} {w : Bool} {log : List Event}
    (l : List MessageItem) :
    Steps ⟨↑(l.map fun m => (⟨m, true, []⟩ : Holding)) + bag, alloc, tx, w, log⟩
      ⟨↑(l.map Holding.idle) + bag, alloc, tx, w, log⟩ := by
  induction l generalizing bag with
  | nil => exact .refl
  | cons m l ih =>
      rw [List.map_cons, List.map_cons, ← Multiset.cons_coe, ← Multiset.cons_coe, Multiset.cons_add,
        Multiset.cons_add]
      refine .head (.take m) ?_
      rw [← Multiset.add_cons, ← Multiset.add_cons]
      exact ih

theorem steps_popWaitingMessages (p : Protocol) (now : TimePoint) (E : Multiset Holding) :
    Steps (p.books E) ((p.popWaitingMessages now).2.books
      (↑((p.popWaitingMessages now).1.map Holding.idle) + E)) := by
  have hv := SortedMap.values_popUpTo p.waitingMessages (now + milliseconds 20)
  have hb : p.books E =
      ⟨↑((p.popWaitingMessages now).1.map fun m => (⟨m, true, []⟩ : Holding)) +
        (E + (p.popWaitingMessages now).2.holdings), p.alloc, p.nextTxMsgId, p.hasWriter, p.log⟩ := by
    simp only [books, holdings, popWaitingMessages, hv]
    congr 1
    simp only [Multiset.map_add, Multiset.map_coe]
    abel
  rw [hb, books, add_assoc]
  exact steps_takeAll _

theorem steps_addTimeoutAt (p : Protocol) (time : TimePoint) (data : TimerData) (E : Multiset Holding) :
    Steps (p.books E) ((p.addTimeoutAt time data).books E) := by
  unfold addTimeoutAt
  split_ifs
  · exact steps_handler p (.addTimeoutAt time data) rfl E
  · exact .refl

theorem steps_requery (now : TimePoint) (p : Protocol) (id : UInt8) (E : Multiset Holding) :
    Steps (p.books E) ((requery now p id).books E) := by
  unfold requery
  split
  · exact .refl
  next m _ =>
    split_ifs
    · let m' := { m with
        maxFragmentSize := if m.maxFragmentSize / 2 < 128 then 128 else m.maxFragmentSize / 2
        lastPartTime := now }
      let q := { p.setFragment id m' with lostMsgList := emplaceLost p.lostMsgList m.id now }
      have hq : q.books E = p.books E := books_congr rfl rfl rfl rfl rfl rfl
      rw [← hq]
      exact (steps_addTimeoutAt q _ _ E).trans (steps_send _ _ _ _ (Or.inr rfl) E)
    · exact .refl

theorem steps_requeryAll (now : TimePoint) (ids : List UInt8) (p : Protocol) (E : Multiset Holding) :
    Steps (p.books E) ((ids.foldl (requery now) p).books E) := by
  induction ids generalizing p with
  | nil => exact .refl
  | cons id ids ih => exact (steps_requery now p id E).trans (ih _)

theorem steps_processWaitList (p : Protocol) (data : TimerData) (now₁ now₂ : TimePoint)
    (E : Multiset Holding) : Steps (p.books E) ((p.processWaitList data now₁ now₂).books E) := by
  cases data with
  | fragment => exact steps_requeryAll now₁ allIds p E
  | null =>
      exact (steps_popWaitingMessages p now₁ E).trans
        ((steps_resendAll now₂ _ _ E).trans (steps_destroyAll now₂ _ _ E))

/-! ## A packet arrives -/

theorem steps_callAnswerFunc (p : Protocol) (h : m.answerFunc = true) (msgId cmd : UInt8) (data : Bytes)
    (throws : Bool) (E : Multiset Holding) :
    Steps (p.books (.idle m ::ₘ E)) ((p.callAnswerFunc m msgId cmd data throws).books E) := by
  refine steps_settle _ (fun e he => ?_) (.answered msgId cmd data throws h)
  rcases List.mem_cons.mp he with rfl | he
  · exact ⟨rfl, fun _ _ h => nomatch h⟩
  · have hb := befalls_destroy (m := { m with answerFunc := throws }) (w := p.hasWriter)
      (show Release.Justified _ (E + p.holdings) _ .answered from trivial) e he
    refine ⟨hb.subject, fun u why heq => ?_⟩
    have := hb.justified u why heq
    cases why <;> exact this

theorem steps_deliverFragmented (p : Protocol) (msgId cmd : UInt8) (a : Option UInt8) (data : Bytes)
    (throws : Bool) (E : Multiset Holding) :
    Steps (p.books E) ((p.deliverFragmented msgId cmd a data throws).books E) := by
  have hplain : (Event.processAnswerMessage msgId cmd data throws).Plain := rfl
  cases a with
  | none => exact steps_handler p (.processMessage msgId cmd data throws) rfl E
  | some a =>
      simp only [deliverFragmented]
      cases hpop : (p.popWaitingAnswer a cmd).1 with
      | none =>
          simp only [show (p.popWaitingAnswer a cmd).2 = p from pop_none hpop]
          exact steps_handler p _ hplain E
      | some m =>
          simp only
          refine (steps_pop hpop).trans ?_
          split_ifs with ha
          · exact steps_callAnswerFunc _ ha msgId cmd data throws E
          · have := (steps_handler (p.popWaitingAnswer a cmd).2 _ hplain (.idle m ::ₘ E)).trans
              (steps_destroy _ m (show Release.Justified _ _ m .answered from trivial))
            rwa [emit, emit, List.append_assoc] at this

theorem steps_completeFragment (p : Protocol) (env : Env) (msgId cmd : UInt8) (a : Option UInt8)
    (fullSize : ℕ) (m : FragmentedMessage) (E : Multiset Holding) :
    Steps (p.books E) ((p.completeFragment env msgId cmd a fullSize m).1.books E) := by
  have hd := steps_deliverFragmented (p.setFragment msgId m) msgId cmd a m.data env.throws E
  rw [show (p.setFragment msgId m).books E = p.books E from books_congr rfl rfl rfl rfl rfl rfl] at hd
  simp only [completeFragment]
  refine Relation.ReflTransGen.trans ?_ (steps_send _ _ _ _ (Or.inr rfl) E)
  split_ifs
  · exact hd
  · exact hd

theorem steps_continueFragment (p : Protocol) (now : TimePoint) (msgId cmd : UInt8)
    (m : FragmentedMessage) (E : Multiset Holding) :
    Steps (p.books E) ((p.continueFragment now msgId cmd m).books E) := by
  let m' := { m with
    isOpen := false, lastPartTime := now, maxFragmentSize := growFragmentSize m.maxFragmentSize }
  let q := { p.setFragment msgId m' with lostMsgList := Function.update p.lostMsgList msgId (some now) }
  have hq : q.books E = p.books E := books_congr rfl rfl rfl rfl rfl rfl
  rw [← hq]
  exact (steps_addTimeoutAt q _ _ E).trans (steps_send _ _ _ _ (Or.inr rfl) E)

theorem steps_processFragment (p : Protocol) (env : Env) (msgId cmd : UInt8) (a : Option UInt8)
    (fullSize pos mx : ℕ) (data : Bytes) (E : Multiset Holding) :
    Steps (p.books E) ((p.processFragment env msgId cmd a fullSize pos mx data).1.books E) := by
  simp only [processFragment]
  split_ifs
  · exact .refl
  · exact .refl
  · exact steps_completeFragment p env msgId cmd a fullSize _ E
  · exact steps_continueFragment p env.now₂ msgId cmd _ E

theorem steps_processAnswer (p : Protocol) (env : Env) (msgId cmd a : UInt8) (data : Bytes)
    (E : Multiset Holding) : Steps (p.books E) ((p.processAnswer env msgId cmd a data).1.books E) := by
  simp only [processAnswer]
  cases hpop : (p.popWaitingAnswer a cmd).1 with
  | none =>
      simp only [show (p.popWaitingAnswer a cmd).2 = p from pop_none hpop]
      exact .refl
  | some m =>
      simp only
      refine (steps_pop hpop).trans ?_
      split_ifs with ha
      · exact steps_callAnswerFunc _ ha msgId cmd data env.throws E
      · exact steps_destroy _ m trivial

theorem steps_dispatch (hp : p.WaitingHaveIds) (env : Env) (msgId cmd : UInt8) (c : Content) :
    Steps (p.books E) ((p.dispatch env msgId cmd c).1.books E) := by
  cases c with
  | removeFragment id => exact .refl
  | fragmentQuery id pos size => exact steps_processFragmentQuery hp id pos size
  | fragment a full pos mx data => exact steps_processFragment p env msgId cmd a full pos mx data E
  | answer a data => exact steps_processAnswer p env msgId cmd a data E
  | message data =>
      simp only [dispatch, processPlain]
      split_ifs
      · exact steps_send p _ _ _ (Or.inl rfl) E
      · exact steps_handler p (.processMessage msgId cmd data env.throws) rfl E

theorem steps_acceptMessage (p : Protocol) (now : TimePoint) (msgId flags : UInt8) (E : Multiset Holding) :
    Steps (p.books E) ((p.acceptMessage now msgId flags).2.books E) := by
  obtain ⟨next, lost, frag, evs, he, hevs, _⟩ := p.acceptMessage_frame now msgId flags
  rw [he]
  refine Steps.notes evs fun e hmem => ?_
  rcases hevs with rfl | rfl
  · exact absurd hmem List.not_mem_nil
  · rw [List.mem_singleton] at hmem
    subst hmem
    exact rfl

@[simp] theorem waitingMessages_acceptMessage (p : Protocol) (now : TimePoint) (msgId flags : UInt8) :
    (p.acceptMessage now msgId flags).2.waitingMessages = p.waitingMessages := by
  obtain ⟨next, lost, frag, evs, he, _⟩ := p.acceptMessage_frame now msgId flags
  rw [he]

theorem steps_internalProcessMessage (qt : Qt) (hp : p.WaitingHaveIds) (env : Env) (pkt : Packet) :
    Steps (p.books E) ((p.internalProcessMessage qt env pkt).1.books E) := by
  have h := (steps_handler p (.internalProcessMessage pkt) rfl E).trans
    (steps_acceptMessage _ env.now₁ pkt.id pkt.flags E)
  simp only [internalProcessMessage]
  split_ifs
  · refine h.trans ?_
    unfold processAccepted
    split_ifs
    · exact .refl
    · split
      · exact .refl
      · refine steps_dispatch (fun m hm => hp m ?_) _ _ _ _
        rwa [waitingMessages_acceptMessage] at hm
  · exact h

/-! ## A step, a run -/

theorem data_packBody (m : MessageItem) (d : Device) : (packBody m d).2.data = d.data := by
  unfold packBody addRawData
  split_ifs <;> simp

theorem sameMessage_packedItem {d : Device} (hd : m.dataDevice = some d) (id : UInt8) (now : TimePoint) :
    MessageItem.SameMessage { m with id := some id } (packedItem m d id now) := by
  refine ⟨rfl, rfl, rfl, rfl, rfl, rfl, ?_, ?_, Or.inl rfl⟩
  · simp [MessageItem.payload, packedItem, hd, data_packBody]
  · simp [packedItem, hd]

theorem steps_assignId (p : Protocol) (m : MessageItem) (E : Multiset Holding) :
    Steps (p.books (.idle m ::ₘ E))
      ((p.assignId m).2.books (.idle { m with id := some (p.assignId m).1 } ::ₘ E)) := by
  unfold assignId
  cases hid : m.id with
  | some id =>
      simp only
      rw [show ({ m with id := some id } : MessageItem) = m by rw [← hid]]
  | none =>
      rw [books_cons, books_cons]
      exact .single (.assign m hid)

theorem steps_written (hp : p.WaitingHaveIds) (hm : m.id.isSome) (now : TimePoint) :
    Steps (p.books (.idle m ::ₘ E)) ((if m.endTime > now then
      (p.addToWaiting (waitPoint m now) m).addTimeoutAt (waitPoint m now) .null
      else p.emit (m.destroy .unwaited)).books E) := by
  split_ifs
  · exact (steps_addToWaiting hp hm _).trans (steps_addTimeoutAt _ _ _ E)
  · exact steps_destroy p m trivial

theorem steps_prepared (qt : Qt) (hp : p.WaitingHaveIds) {d : Device} (hd : m.dataDevice = some d)
    (now₁ now₂ : TimePoint) :
    Steps ((p.assignId m).2.books (.idle { m with id := some (p.assignId m).1 } ::ₘ E))
      ((preparePacketToSend qt p m now₁ now₂).2.books E) := by
  set m' := packedItem m d (p.assignId m).1 now₁ with hm'
  have hq : (p.afterSent qt m d now₂).books (.idle m' ::ₘ E) =
      ((p.assignId m).2.emit [.transmitted m.uid (packItem qt m d (p.assignId m).1) now₂]).books
        (.idle m' ::ₘ E) := books_congr rfl rfl rfl rfl rfl rfl
  have hwritten : Steps ((p.assignId m).2.books (.idle { m with id := some (p.assignId m).1 } ::ₘ E))
      ((p.afterSent qt m d now₂).books (.idle m' ::ₘ E)) := by
    rw [hq]
    exact (steps_touch (sameMessage_packedItem hd _ now₁) rfl).trans
      (steps_handler (p.assignId m).2 (.transmitted m.uid _ now₂) rfl _)
  have hqids : (p.afterSent qt m d now₂).WaitingHaveIds := fun x hx => hp x (by
    rwa [show (p.afterSent qt m d now₂).waitingMessages = p.waitingMessages from
      waitingMessages_assignId p m] at hx)
  rw [preparePacketToSend_some qt p hd]
  exact hwritten.trans (steps_written hqids rfl now₂)

theorem steps_preparePacketToSend (qt : Qt) (hp : p.WaitingHaveIds) (m : MessageItem)
    (now₁ now₂ : TimePoint) :
    Steps (p.books (.idle m ::ₘ E)) ((preparePacketToSend qt p m now₁ now₂).2.books E) := by
  cases hd : m.dataDevice with
  | none =>
      simp only [preparePacketToSend, hd]
      exact steps_destroy p m (Or.inr hd)
  | some d => exact (steps_assignId p m E).trans (steps_prepared qt hp hd now₁ now₂)

theorem books_taken {i : ℕ} (h : p.posted[i]? = some m) :
    ({ p with posted := p.posted.eraseIdx i } : Protocol).books (.idle m ::ₘ 0) = p.books 0 := by
  simp only [books, holdings]
  rw [show (↑p.posted : Multiset MessageItem) = m ::ₘ ↑(p.posted.eraseIdx i) from
    Multiset.coe_eq_coe.mpr (posted_perm h)]
  simp only [Multiset.map_cons, Multiset.cons_add, Multiset.zero_add]

theorem steps_write (qt : Qt) (hp : p.WaitingHaveIds) (i : ℕ) (now₁ now₂ : TimePoint) :
    Steps (p.books 0) ((p.write qt i now₁ now₂).1.books 0) := by
  unfold write
  cases hm : p.posted[i]? with
  | none => exact .refl
  | some m =>
      rw [← books_taken hm]
      exact steps_preparePacketToSend qt (p := { p with posted := p.posted.eraseIdx i }) hp m now₁ now₂

/-- **Every action is a sequence of elementary moves.** -/
theorem steps_step (qt : Qt) (hp : p.WaitingHaveIds) (a : Action) :
    Steps (p.books 0) ((p.step qt a).1.books 0) := by
  cases a with
  | send cmd answerId calls =>
      obtain ⟨hid, hf, d, hd⟩ := unsent_buildItem p.alloc cmd answerId calls
      exact steps_sendItem (uid_buildItem _ _ _ _) hid (by rw [hd]; rfl) (Or.inl hf)
  | write i now₁ now₂ => exact steps_write qt hp i now₁ now₂
  | timer data now₁ now₂ => exact steps_processWaitList p data now₁ now₂ 0
  | receive pkt env => exact steps_internalProcessMessage qt hp env pkt

theorem waits_have_ids {b b' : Books} (h : ∀ x ∈ b.bag, x.waits = true → x.item.id.isSome)
    (hs : Steps b b') : ∀ x ∈ b'.bag, x.waits = true → x.item.id.isSome := by
  induction hs with
  | refl => exact h
  | tail _ hm ih =>
      cases hm with
      | note e he => exact ih
      | create m hu hid hd hf => exact Multiset.forall_mem_cons.mpr ⟨nofun, ih⟩
      | touch m m' hsame hid => exact Multiset.forall_mem_cons.mpr ⟨nofun, (Multiset.forall_mem_cons.mp ih).2⟩
      | assign m hid => exact Multiset.forall_mem_cons.mpr ⟨nofun, (Multiset.forall_mem_cons.mp ih).2⟩
      | park m hid => exact Multiset.forall_mem_cons.mpr ⟨fun _ => hid, (Multiset.forall_mem_cons.mp ih).2⟩
      | take m => exact Multiset.forall_mem_cons.mpr ⟨nofun, (Multiset.forall_mem_cons.mp ih).2⟩
      | record m e he => exact Multiset.forall_mem_cons.mpr ⟨nofun, (Multiset.forall_mem_cons.mp ih).2⟩
      | close m ho => exact (Multiset.forall_mem_cons.mp ih).2

theorem waitingHaveIds_iff {p : Protocol} :
    (∀ x ∈ (p.books 0).bag, x.waits = true → x.item.id.isSome) ↔ p.WaitingHaveIds := by
  simp only [books, holdings, zero_add, Multiset.mem_add, Multiset.mem_map]
  constructor
  · intro h m hm
    exact h ⟨m, true, []⟩ (Or.inr ⟨m, hm, rfl⟩) rfl
  · rintro h x (⟨m, _, rfl⟩ | ⟨m, hm, rfl⟩) hx
    · cases hx
    · exact h m hm

theorem WaitingHaveIds.step {p : Protocol} (hp : p.WaitingHaveIds) (qt : Qt) (a : Action) :
    (p.step qt a).1.WaitingHaveIds :=
  waitingHaveIds_iff.mp (waits_have_ids (waitingHaveIds_iff.mpr hp) (steps_step qt hp a))

/-- **Every run is a sequence of elementary moves.** -/
theorem steps_run (qt : Qt) (hp : p.WaitingHaveIds) (acts : List Action) :
    Steps (p.books 0) ((p.run qt acts).books 0) := by
  induction acts generalizing p with
  | nil => exact .refl
  | cons a acts ih => exact (steps_step qt hp a).trans (ih (hp.step qt a))

theorem waitingHaveIds_fresh : Protocol.fresh.WaitingHaveIds := fun m hm => absurd hm (Multiset.notMem_zero m)

theorem waitingHaveIds_run (qt : Qt) (acts : List Action) : (Protocol.fresh.run qt acts).WaitingHaveIds :=
  waitingHaveIds_iff.mp (waits_have_ids (waitingHaveIds_iff.mpr waitingHaveIds_fresh)
    (steps_run qt waitingHaveIds_fresh acts))

end Protocol

end HelpzNet
