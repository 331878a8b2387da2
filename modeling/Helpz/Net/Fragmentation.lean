import Helpz.Net.Transfers
import Helpz.Net.Missing
import Helpz.Net.Integrity

/-!
# One packet or many

The same message may arrive in one packet or as a series of fragments, and each way has its own code
that looks for the callback.

* `callbacks`: the callbacks called, with their arguments;
* `UserMessage`: what the sender says, `UserMessage.content`: it in one packet, `Piece`: a slice of it in
  a fragment;
* `Arriving`: a part of the fragments has arrived, whatever else happens meanwhile, and `Halfway`: what
  holds then; `CompleteSeries`: the last missing bytes have come;
* `callbacks_eq_iff`: the two ways call the same, unless the message is an answer that finds no answer
  function. In fragments it goes to `process_answer_message`, in one packet it is dropped.
-/

namespace HelpzNet

open HelpzLib FragmentedMessage

/-- A call of a callback, with what it is given. -/
inductive Callback
  | processMessage (msgId cmd : UInt8) (data : Bytes)
  | processAnswerMessage (msgId cmd : UInt8) (data : Bytes)
  | answerFunc (uid : ℕ) (data : Bytes)
  deriving DecidableEq, Repr

/-- The call an event is. -/
def Event.callback : Event → Option Callback
  | .processMessage msgId cmd data _ => some (.processMessage msgId cmd data)
  | .processAnswerMessage msgId cmd data _ => some (.processAnswerMessage msgId cmd data)
  | .answerFunc uid _ _ data _ => some (.answerFunc uid data)
  | _ => none

/-- The callbacks called, in order. -/
def callbacks (log : List Event) : List Callback := log.filterMap Event.callback

@[simp] theorem callbacks_append (l l' : List Event) : callbacks (l ++ l') = callbacks l ++ callbacks l' :=
  List.filterMap_append

theorem callbacks_destroy (m : MessageItem) (why : Release) : callbacks (m.destroy why) = [] := by
  unfold MessageItem.destroy
  split_ifs <;> rfl

/-- A message from the application of the sender: its id, its command, whether it is an answer, and its
payload. -/
structure UserMessage where
  id : UInt8
  cmd : UInt8
  answerId : Option UInt8
  data : Bytes
  cmd_user : 16 ≤ cmd.toNat
  length_lt : data.length < 2 ^ 31

/-- What the packet says if the message comes in one. -/
def UserMessage.content (M : UserMessage) : Content :=
  match M.answerId with
  | none => .message M.data
  | some a => .answer a M.data

namespace Protocol

/-- The message arrives in one packet. -/
structure Whole (qt : Qt) (M : UserMessage) (p : Protocol) (pkt : Packet) (env : Env) : Prop where
  id_eq : pkt.id = M.id
  cmd_eq : pkt.cmd = M.cmd
  accepted : p.accepts pkt env = true
  content : pkt.content qt = some M.content

/-- A fragment of the message arrives, with the bytes `[pos, pos + len)`; the acceptance test does not give
the transfer up, and its device can be opened. -/
structure Piece (qt : Qt) (M : UserMessage) (p : Protocol) (pkt : Packet) (env : Env) (pos len : ℕ) :
    Prop where
  id_eq : pkt.id = M.id
  cmd_eq : pkt.cmd = M.cmd
  accepted : p.accepts pkt env = true
  kept : (p.afterTest pkt env).fragmentedMessages M.id = p.fragmentedMessages M.id
  content : ∃ mx, pkt.content qt =
    some (.fragment M.answerId M.data.length pos mx ((M.data.drop pos).take len))
  le : pos + len ≤ M.data.length
  opens : env.openFails = false

/-- The transfers with this id: their bytes, their missing parts and their device. -/
def transfer (p : Protocol) (id : UInt8) : Option (Bytes × List (ℕ × ℕ) × Bool) :=
  (p.fragmentedMessages id).map fun m => (m.data, m.partVect, m.isOpen)

/-- Something else happens: no callback is called, and neither the transfer of the message nor the waiting
list is touched. -/
structure Aside (qt : Qt) (M : UserMessage) (p : Protocol) (act : Action) : Prop where
  waiting : (p.step qt act).1.waitingMessages = p.waitingMessages
  transfer_eq : (p.step qt act).1.transfer M.id = p.transfer M.id
  called : callbacks (p.step qt act).1.log = callbacks p.log

/-- From `p` on, fragments of the message have arrived that brought the bytes at the offsets `got`, and some
byte is still missing. -/
inductive Arriving (qt : Qt) (M : UserMessage) (p : Protocol) : List Action → Set ℕ → Prop
  | start : p.fragmentedMessages M.id = none → M.data ≠ [] → Arriving qt M p [] ∅
  | piece {acts got pkt env pos len} : Arriving qt M p acts got →
      Piece qt M (p.run qt acts) pkt env pos len →
      ¬ Set.Ico 0 M.data.length ⊆ got ∪ Set.Ico pos (pos + len) →
      Arriving qt M p (acts ++ [.receive pkt env]) (got ∪ Set.Ico pos (pos + len))
  | aside {acts got act} : Arriving qt M p acts got → Aside qt M (p.run qt acts) act →
      Arriving qt M p (acts ++ [act]) got

/-- The message arrives as a complete series of fragments: the last one brings the bytes still missing. -/
inductive CompleteSeries (qt : Qt) (M : UserMessage) (p : Protocol) : List Action → Prop
  | intro {acts got pkt env pos len} : Arriving qt M p acts got →
      Piece qt M (p.run qt acts) pkt env pos len →
      Set.Ico 0 M.data.length ⊆ got ∪ Set.Ico pos (pos + len) →
      CompleteSeries qt M p (acts ++ [.receive pkt env])

/-- The request with this id and command that waits first has an answer function. -/
def Awaits (p : Protocol) (answerId cmd : UInt8) : Prop :=
  ∃ m, (p.popWaitingAnswer answerId cmd).1 = some m ∧ m.answerFunc = true

variable {qt : Qt} {M : UserMessage} {p q : Protocol} {pkt : Packet} {env : Env} {pos len : ℕ}
  {acts : List Action} {got : Set ℕ}

/-! ## What the two ways call -/

theorem popWaitingAnswer_congr (h : q.waitingMessages = p.waitingMessages) (a cmd : UInt8) :
    (q.popWaitingAnswer a cmd).1 = (p.popWaitingAnswer a cmd).1 := by
  simp only [popWaitingAnswer, popWaitingMessage, h]

theorem callbacks_emit (p : Protocol) {evs : List Event} (h : callbacks evs = []) :
    callbacks (p.emit evs).log = callbacks p.log := by
  rw [emit, callbacks_append, h, List.append_nil]

theorem callbacks_sendItem (p : Protocol) (m : MessageItem) :
    callbacks (p.sendItem m).log = callbacks p.log := by
  have hcreated : callbacks (p.log ++ [.created m]) = callbacks p.log := callbacks_emit p rfl
  unfold sendItem sendMessage
  simp only
  split_ifs
  · exact hcreated
  · exact (callbacks_emit _ (callbacks_destroy _ _)).trans hcreated
  · exact (callbacks_emit _ (callbacks_destroy _ _)).trans hcreated

theorem callbacks_callAnswerFunc (p : Protocol) (m : MessageItem) (msgId cmd : UInt8) (data : Bytes)
    (throws : Bool) : callbacks (p.callAnswerFunc m msgId cmd data throws).log =
      callbacks p.log ++ [.answerFunc m.uid data] := by
  simp only [callAnswerFunc, emit, callbacks_append]
  congr 1
  exact congrArg (Callback.answerFunc m.uid data :: ·) (callbacks_destroy _ _)

theorem callbacks_afterTest (p : Protocol) (pkt : Packet) (env : Env) :
    callbacks (p.afterTest pkt env).log = callbacks p.log := by
  obtain ⟨next, lost, frag, evs, he, hevs, _⟩ :=
    (p.emit [.internalProcessMessage pkt]).acceptMessage_frame env.now₁ pkt.id pkt.flags
  rw [afterTest, he, callbacks_append]
  rcases hevs with rfl | rfl <;> rw [emit, callbacks_append] <;> simp [callbacks, Event.callback]

/-- The callback for an answer in one packet. -/
def answerCallback (p : Protocol) (answerId cmd : UInt8) (data : Bytes) : Option Callback :=
  ((p.popWaitingAnswer answerId cmd).1.filter fun m => m.answerFunc).map fun m => .answerFunc m.uid data

/-- **One packet**: an answer that finds no answer function is dropped. -/
theorem callbacks_whole (h : Whole qt M p pkt env) (hne : M.data ≠ []) :
    callbacks (p.step qt (.receive pkt env)).1.log = callbacks p.log ++
      match M.answerId with
      | none => [.processMessage M.id M.cmd M.data]
      | some a => (p.answerCallback a M.cmd M.data).toList := by
  have hcontent : M.content ≠ .message [] := by
    unfold UserMessage.content
    cases M.answerId with
    | none => exact fun hc => hne (Content.message.inj hc)
    | some a => simp
  rw [step_receive, if_pos h.accepted, processAccepted_content h.content hcontent, UserMessage.content]
  cases ha : M.answerId with
  | none =>
      have hping : pkt.cmd ≠ Cmd.ping := by
        rw [h.cmd_eq]
        intro hc
        have := M.cmd_user
        rw [hc] at this
        exact absurd this (by decide)
      simp only [dispatch, processPlain, if_neg hping, emit, callbacks_append, callbacks_afterTest]
      rw [h.id_eq, h.cmd_eq]
      rfl
  | some a =>
      have hpop := popWaitingAnswer_congr (p.waitingMessages_afterTest pkt env) a M.cmd
      have hlog : callbacks ((p.afterTest pkt env).popWaitingAnswer a M.cmd).2.log = callbacks p.log :=
        callbacks_afterTest p pkt env
      simp only [dispatch, processAnswer, h.cmd_eq, hpop, answerCallback]
      cases hm : (p.popWaitingAnswer a M.cmd).1 with
      | none => simpa using hlog
      | some m =>
          cases hf : m.answerFunc with
          | true => simp [callbacks_callAnswerFunc, hlog, Option.filter, hf]
          | false => simp [emit, callbacks_destroy, hlog, Option.filter, hf]

theorem callbacks_deliverFragmented (p : Protocol) (msgId cmd : UInt8) (a : Option UInt8) (data : Bytes)
    (throws : Bool) : callbacks (p.deliverFragmented msgId cmd a data throws).log = callbacks p.log ++
      match a with
      | none => [.processMessage msgId cmd data]
      | some a => [(p.answerCallback a cmd data).getD (.processAnswerMessage msgId cmd data)] := by
  cases a with
  | none => simp only [deliverFragmented, emit, callbacks_append]; rfl
  | some a =>
      simp only [deliverFragmented, answerCallback]
      cases hm : (p.popWaitingAnswer a cmd).1 with
      | none => simp only [emit, callbacks_append]; rfl
      | some m =>
          cases hf : m.answerFunc with
          | true =>
              simp only [if_true, callbacks_callAnswerFunc, Option.filter, hf, Option.map_some,
                Option.getD_some]
              rfl
          | false =>
              have hevs : callbacks (.processAnswerMessage msgId cmd data throws :: m.destroy .answered) =
                  [.processAnswerMessage msgId cmd data] :=
                congrArg (Callback.processAnswerMessage msgId cmd data :: ·) (callbacks_destroy _ _)
              simp only [Bool.false_eq_true, if_false, emit, callbacks_append, hevs, Option.filter, hf,
                Option.map_none, Option.getD_none]
              rfl

/-! ## The series -/

theorem waitingMessages_sendItem (p : Protocol) (m : MessageItem) :
    (p.sendItem m).waitingMessages = p.waitingMessages := by
  unfold sendItem sendMessage
  simp only
  split_ifs <;> rfl

theorem waitingMessages_continueFragment (p : Protocol) (now : TimePoint) (msgId cmd : UInt8)
    (m : FragmentedMessage) : (p.continueFragment now msgId cmd m).waitingMessages = p.waitingMessages := by
  refine (waitingMessages_sendItem _ _).trans ?_
  unfold addTimeoutAt
  split_ifs <;> rfl

theorem callbacks_continueFragment (p : Protocol) (now : TimePoint) (msgId cmd : UInt8)
    (m : FragmentedMessage) : callbacks (p.continueFragment now msgId cmd m).log = callbacks p.log := by
  refine (callbacks_sendItem _ _).trans ?_
  unfold addTimeoutAt
  split_ifs
  · exact callbacks_emit _ rfl
  · rfl

/-- The series has begun: its transfer collects the payload and lacks the offsets not in `got`. -/
structure Halfway (M : UserMessage) (p q : Protocol) (got : Set ℕ) : Prop where
  waiting : q.waitingMessages = p.waitingMessages
  called : callbacks q.log = callbacks p.log
  none : q.fragmentedMessages M.id = none → got = ∅
  entry : ∀ m, q.fragmentedMessages M.id = some m →
    m.isOpen = false ∧ m.Collects M.data ∧ m.Lacks M.data.length (Set.Ico 0 M.data.length \ got)

theorem Halfway.fragmentEntry (h : Halfway M p q got) (hne : M.data ≠ [])
    (hp : Piece qt M q pkt env pos len) (mx : ℕ) :
    let m := (q.afterTest pkt env).fragmentEntry pkt.id pkt.cmd mx M.data.length
    m.isOpen = false ∧ m.Collects M.data ∧ m.Lacks M.data.length (Set.Ico 0 M.data.length \ got) := by
  unfold Protocol.fragmentEntry
  rw [hp.id_eq, hp.kept]
  cases he : q.fragmentedMessages M.id with
  | none =>
      rw [h.none he, Set.sdiff_empty]
      exact ⟨rfl, collects_new _ _ _ hne, lacks_new _ _ _ (List.length_pos_iff.mpr hne)⟩
  | some m => exact h.entry m he

theorem Halfway.entryWith (h : Halfway M p q got) (hne : M.data ≠ [])
    (hp : Piece qt M q pkt env pos len) (mx : ℕ) :
    let m := q.entryWith pkt env M.data.length pos mx ((M.data.drop pos).take len)
    m.Collects M.data ∧
      m.Lacks M.data.length (Set.Ico 0 M.data.length \ (got ∪ Set.Ico pos (pos + len))) := by
  have hlt := M.length_lt
  have hle := hp.le
  have hlen : ((M.data.drop pos).take len).length = len := by
    rw [List.length_take, List.length_drop]
    omega
  obtain ⟨_, hc, hl⟩ := h.fragmentEntry hne hp mx
  have hc' : Collects M.data { (q.afterTest pkt env).fragmentEntry pkt.id pkt.cmd mx M.data.length with
      isOpen := true } := hc.congr rfl rfl
  have hl' : Lacks M.data.length (Set.Ico 0 M.data.length \ got)
      { (q.afterTest pkt env).fragmentEntry pkt.id pkt.cmd mx M.data.length with isOpen := true } :=
    ⟨hl.parts, hl.offsets_eq, hl.bound⟩
  unfold Protocol.entryWith grownEntry addFragment
  split_ifs with hnil
  · have hzero : len = 0 := by
      rw [← hlen, hnil]
      rfl
    rw [hzero, Nat.add_zero, Set.Ico_self, Set.union_empty]
    exact ⟨hc', hl'⟩
  · have hpos : 0 < len := by
      have := List.length_pos_iff.mpr hnil
      omega
    refine ⟨hc'.addData hpos hle (by omega), ?_⟩
    have hadd := hl'.addData hlt ⟨pos, (M.data.drop pos).take len, by omega, by omega, by omega⟩
    rw [Part.interval, Set.sdiff_sdiff] at hadd
    simpa only [hlen] using hadd

theorem Halfway.takes (h : Halfway M p q got) (hne : M.data ≠ []) (hp : Piece qt M q pkt env pos len) :
    ∃ mx, Takes qt q pkt env M.answerId M.data.length pos mx ((M.data.drop pos).take len) := by
  obtain ⟨mx, hcontent⟩ := hp.content
  obtain ⟨hopen, _⟩ := h.fragmentEntry hne hp mx
  refine ⟨mx, hp.accepted, hcontent, M.length_lt, ?_⟩
  rw [opens, hp.opens, hopen, Bool.and_false]
  rfl

theorem Halfway.piece (h : Halfway M p q got) (hne : M.data ≠ []) (hp : Piece qt M q pkt env pos len)
    (hsub : ¬ Set.Ico 0 M.data.length ⊆ got ∪ Set.Ico pos (pos + len)) :
    Halfway M p (q.step qt (.receive pkt env)).1 (got ∪ Set.Ico pos (pos + len)) := by
  obtain ⟨mx, ht⟩ := h.takes hne hp
  obtain ⟨hc, hl⟩ := h.entryWith hne hp mx
  have he : (q.entryWith pkt env M.data.length pos mx ((M.data.drop pos).take len)).isPartsEmpty = false := by
    rw [Bool.eq_false_iff, Ne, hl.isPartsEmpty_iff, Set.sdiff_eq_empty]
    exact hsub
  have hfrag := (ht.step_goesOn he).1
  have hstep := ht.step
  rw [if_neg (by rw [he]; exact Bool.false_ne_true)] at hstep
  have hentry : (q.step qt (.receive pkt env)).1.fragmentedMessages M.id = some (nextEntry
      (q.entryWith pkt env M.data.length pos mx ((M.data.drop pos).take len)) env.now₂) := by
    rw [hfrag, hp.id_eq, Function.update_self]
  refine ⟨?_, ?_, fun hnone => ?_, fun m hm => ?_⟩
  · rw [hstep, waitingMessages_continueFragment, waitingMessages_afterTest, h.waiting]
  · rw [hstep, callbacks_continueFragment, callbacks_afterTest, h.called]
  · rw [hentry] at hnone
    cases hnone
  · rw [hentry] at hm
    obtain rfl := Option.some.inj hm
    exact ⟨rfl, hc.congr rfl rfl, hl.parts, hl.offsets_eq, hl.bound⟩

theorem Halfway.aside (h : Halfway M p q got) {act : Action} (ha : Aside qt M q act) :
    Halfway M p (q.step qt act).1 got := by
  have htransfer := ha.transfer_eq
  unfold transfer at htransfer
  refine ⟨ha.waiting.trans h.waiting, ha.called.trans h.called, fun hnone => h.none ?_, fun m' hm => ?_⟩
  · rw [hnone] at htransfer
    exact Option.map_eq_none_iff.mp htransfer.symm
  · rw [hm] at htransfer
    obtain ⟨m, hq, hsame⟩ := Option.map_eq_some_iff.mp htransfer.symm
    obtain ⟨hopen, hc, hl⟩ := h.entry m hq
    obtain ⟨hdata, hparts, hopen'⟩ : m.data = m'.data ∧ m.partVect = m'.partVect ∧ m.isOpen = m'.isOpen := by
      simpa using hsame
    exact ⟨hopen' ▸ hopen, hc.congr hdata.symm hparts.symm, hparts ▸ hl.parts, hparts ▸ hl.offsets_eq, hl.bound⟩

/-- **While the series arrives, no callback is called** and the transfer collects what comes. -/
theorem Arriving.halfway (h : Arriving qt M p acts got) : M.data ≠ [] ∧ Halfway M p (p.run qt acts) got := by
  induction h with
  | start hnone hne =>
      refine ⟨hne, rfl, rfl, fun _ => rfl, fun m hm => ?_⟩
      have hm' : p.fragmentedMessages M.id = some m := hm
      rw [hnone] at hm'
      cases hm'
  | piece _ hp hsub ih =>
      rw [run_append]
      exact ⟨ih.1, ih.2.piece ih.1 hp hsub⟩
  | aside _ ha ih =>
      rw [run_append]
      exact ⟨ih.1, ih.2.aside ha⟩

/-- **A series of fragments**: an answer that finds no answer function goes to `process_answer_message`. -/
theorem callbacks_series (h : CompleteSeries qt M p acts) :
    M.data ≠ [] ∧ callbacks (p.run qt acts).log = callbacks p.log ++
      match M.answerId with
      | none => [.processMessage M.id M.cmd M.data]
      | some a => [(p.answerCallback a M.cmd M.data).getD (.processAnswerMessage M.id M.cmd M.data)] := by
  obtain ⟨hr, hp, hsub⟩ := h
  rename_i acts got pkt env pos len
  obtain ⟨hne, hh⟩ := hr.halfway
  obtain ⟨mx, ht⟩ := hh.takes hne hp
  obtain ⟨hc, hl⟩ := hh.entryWith hne hp mx
  have he : ((p.run qt acts).entryWith pkt env M.data.length pos mx
      ((M.data.drop pos).take len)).isPartsEmpty = true := by
    rw [hl.isPartsEmpty_iff, Set.sdiff_eq_empty]
    exact hsub
  refine ⟨hne, ?_⟩
  rw [run_append]
  change callbacks ((p.run qt acts).step qt (.receive pkt env)).1.log = _
  rw [ht.step, if_pos he, completeFragment]
  have hlog : ∀ q : Protocol, callbacks (if env.throws then q else q.eraseFragment pkt.id).log =
      callbacks q.log := by
    intro q
    split_ifs <;> rfl
  have hwait : ((p.run qt acts).afterTest pkt env).waitingMessages = p.waitingMessages := by
    rw [waitingMessages_afterTest, hh.waiting]
  refine ((callbacks_sendItem _ _).trans (hlog _)).trans ?_
  rw [callbacks_deliverFragmented, hc.eq he, hp.id_eq, hp.cmd_eq]
  congr 1
  · exact (callbacks_afterTest _ _ _).trans hh.called
  · cases M.answerId with
    | none => rfl
    | some a =>
        have hpop := popWaitingAnswer_congr hwait a M.cmd
        simp only [answerCallback, ← hpop]
        rfl

/-- **The callback of a message does not depend on fragmentation exactly if it is no answer, or the request
it answers has an answer function.** -/
theorem callbacks_eq_iff (hs : CompleteSeries qt M p acts) (hw : Whole qt M p pkt env) :
    callbacks (p.run qt acts).log = callbacks (p.step qt (.receive pkt env)).1.log ↔
      ∀ a, M.answerId = some a → p.Awaits a M.cmd := by
  obtain ⟨hne, hseries⟩ := callbacks_series hs
  rw [hseries, callbacks_whole hw hne, List.append_right_inj]
  cases M.answerId with
  | none => simp
  | some a =>
      simp only [Option.some.injEq, forall_eq', Awaits, answerCallback]
      cases (p.popWaitingAnswer a M.cmd).1 with
      | none => simp
      | some m => cases hf : m.answerFunc <;> simp [Option.filter, hf]

/-- A message of two bytes, and the fragment with its byte at `pos`. -/
def twoBytes : UserMessage := ⟨0, 16, none, [3, 4], by decide, by decide⟩

def oneOfTwo (pos : ℕ) (byte : UInt8) : Packet := ⟨0, 16, Flag.fragment, toBE 4 2 ++ (toBE 4 pos ++ [byte])⟩

theorem callbacks_eq_iff_twoBytes :
    CompleteSeries Qt.storing twoBytes fresh [.receive (oneOfTwo 0 3) .quiet, .receive (oneOfTwo 1 4) .quiet] ∧
      Whole Qt.storing twoBytes fresh ⟨0, 16, 0, [3, 4]⟩ .quiet ∧
      callbacks (fresh.run Qt.storing [.receive (oneOfTwo 0 3) .quiet, .receive (oneOfTwo 1 4) .quiet]).log =
        callbacks (fresh.step Qt.storing (.receive ⟨0, 16, 0, [3, 4]⟩ .quiet)).1.log := by
  have hfirst : Arriving Qt.storing twoBytes fresh [.receive (oneOfTwo 0 3) .quiet] (∅ ∪ Set.Ico 0 (0 + 1)) := by
    have hpiece : Piece Qt.storing twoBytes (fresh.run Qt.storing []) (oneOfTwo 0 3) .quiet 0 1 :=
      ⟨rfl, rfl, by decide, by decide, ⟨0, by decide⟩, by decide, rfl⟩
    refine Arriving.piece (.start rfl (by decide)) hpiece fun hsub => ?_
    have hone : 1 ∈ ∅ ∪ Set.Ico 0 (0 + 1) := hsub ⟨by decide, by decide⟩
    simp at hone
  have hs : CompleteSeries Qt.storing twoBytes fresh
      [.receive (oneOfTwo 0 3) .quiet, .receive (oneOfTwo 1 4) .quiet] := by
    have hpiece : Piece Qt.storing twoBytes (fresh.run Qt.storing [.receive (oneOfTwo 0 3) .quiet])
        (oneOfTwo 1 4) .quiet 1 1 := ⟨rfl, rfl, by decide, by decide, ⟨0, by decide⟩, by decide, rfl⟩
    refine CompleteSeries.intro hfirst hpiece fun k hk => ?_
    have hlt : k < 2 := hk.2
    by_cases hzero : k = 0
    · exact Or.inl (Or.inr ⟨by omega, by omega⟩)
    · exact Or.inr ⟨by omega, by omega⟩
  have hw : Whole Qt.storing twoBytes fresh ⟨0, 16, 0, [3, 4]⟩ .quiet := ⟨rfl, rfl, by decide, by decide⟩
  exact ⟨hs, hw, (callbacks_eq_iff hs hw).mpr fun a ha => (nomatch ha)⟩

/-- An answer of one byte to a request that nobody waits for. -/
def unexpectedAnswer : UserMessage := ⟨0, 16, some 7, [1], by decide, by decide⟩

/-- **An unexpected answer is handed over if it comes in a fragment, and dropped if it does not.** -/
theorem fragment_changes_callback : ¬ ∀ (qt : Qt) (M : UserMessage) (p : Protocol) (acts : List Action)
    (pkt : Packet) (env : Env), CompleteSeries qt M p acts → Whole qt M p pkt env →
      callbacks (p.run qt acts).log = callbacks (p.step qt (.receive pkt env)).1.log := by
  intro h
  let fragment : Packet := ⟨0, 16, Flag.fragment ||| Flag.answer, 7 :: (toBE 4 1 ++ (toBE 4 0 ++ [1]))⟩
  have hs : CompleteSeries Qt.storing unexpectedAnswer fresh [.receive fragment .quiet] := by
    have hpiece : Piece Qt.storing unexpectedAnswer (fresh.run Qt.storing []) fragment .quiet 0 1 :=
      ⟨rfl, rfl, by decide, by decide, ⟨0, by decide⟩, by decide, rfl⟩
    exact CompleteSeries.intro (.start rfl (by decide)) hpiece fun k hk => Or.inr hk
  have hw : Whole Qt.storing unexpectedAnswer fresh ⟨0, 16, Flag.answer, [7, 1]⟩ .quiet :=
    ⟨rfl, rfl, by decide, by decide⟩
  have heq := h _ _ _ _ _ _ hs hw
  revert heq
  decide

end Protocol

end HelpzNet
