import Helpz.Net.Receive

/-!
# What is posted to the writer

An item is posted when it is new, when the resend timer takes it from the waiting list, or when a fragment
query does. `Posts X p q` says that from `p` to `q` only items in `X` are posted, with one lemma for each
function; `posts_step` collects what an action may post (`PostedBy`).
-/

namespace HelpzNet

open HelpzLib

/-- An item as `process_wait_list` sends it again. -/
def MessageItem.resent (m : MessageItem) : MessageItem :=
  (m.setFragmentSize (m.fragmentSize / 2)).setFlags (m.flags ||| Flag.repeated)

/-- An item as `process_fragment_query` sends it again. -/
def MessageItem.queried (m : MessageItem) (pos size : ℕ) : MessageItem := (m.setFragmentSize size).seek pos

namespace Protocol

/-- Only items in `X` are posted to the writer, and no identity is given back. -/
structure Posts (X : MessageItem → Prop) (p q : Protocol) : Prop where
  alloc : p.alloc ≤ q.alloc
  posted : ∀ m ∈ q.posted, m ∈ p.posted ∨ X m

variable {X Y : MessageItem → Prop} {p q r : Protocol}

theorem Posts.refl (p : Protocol) : Posts X p p := ⟨le_rfl, fun _ => Or.inl⟩

theorem Posts.trans (h : Posts X p q) (h' : Posts X q r) : Posts X p r :=
  ⟨h.alloc.trans h'.alloc, fun m hm => (h'.posted m hm).elim (h.posted m) Or.inr⟩

theorem posts_of_eq (h1 : q.alloc = p.alloc) (h2 : q.posted = p.posted) : Posts X p q :=
  ⟨le_of_eq h1.symm, fun _ hm => Or.inl (h2 ▸ hm)⟩

/-- An item with a new identity and without an id. -/
def IsNew (p : Protocol) (m : MessageItem) : Prop := p.alloc ≤ m.uid ∧ m.id = none

theorem posts_sendMessage (p : Protocol) {m : MessageItem} (hm : X m) : Posts X p (p.sendMessage m) := by
  unfold sendMessage
  split_ifs
  · refine ⟨le_rfl, fun x hx => (List.mem_append.mp hx).imp_right fun hx => ?_⟩
    exact List.mem_singleton.mp hx ▸ hm
  · exact posts_of_eq rfl rfl

theorem posts_sendItem (p : Protocol) {m : MessageItem} (hm : X (m.seek m.payload.length)) :
    Posts X p (p.sendItem m) := by
  have hcreated : Posts X p { p with alloc := p.alloc + 1, log := p.log ++ [.created m] } :=
    ⟨Nat.le_succ _, fun _ => Or.inl⟩
  unfold sendItem
  split_ifs
  · exact hcreated.trans (posts_sendMessage _ hm)
  · exact hcreated.trans (posts_of_eq rfl rfl)

theorem alloc_addTimeoutAt (p : Protocol) (time : TimePoint) (data : TimerData) :
    (p.addTimeoutAt time data).alloc = p.alloc := by
  unfold addTimeoutAt
  split_ifs <;> rfl

theorem posted_addTimeoutAt (p : Protocol) (time : TimePoint) (data : TimerData) :
    (p.addTimeoutAt time data).posted = p.posted := by
  unfold addTimeoutAt
  split_ifs <;> rfl

theorem Posts.addTimeoutAt (h : Posts X p q) (time : TimePoint) (data : TimerData) :
    Posts X p (q.addTimeoutAt time data) :=
  h.trans (posts_of_eq (alloc_addTimeoutAt q time data) (posted_addTimeoutAt q time data))

theorem posts_addToWaiting (p : Protocol) (time : TimePoint) (m : MessageItem) :
    Posts X p (p.addToWaiting time m) := by
  have hevict : Posts X p (p.evictSameId m) := by
    unfold evictSameId
    split <;> exact posts_of_eq rfl rfl
  rw [addToWaiting_eq]
  split_ifs
  · exact hevict.trans (posts_of_eq rfl rfl)
  · exact hevict.trans (posts_of_eq rfl rfl)

theorem posts_preparePacketToSend (qt : Qt) (p : Protocol) (m : MessageItem) (now₁ now₂ : TimePoint) :
    Posts X p (preparePacketToSend qt p m now₁ now₂).2 := by
  have hassign : Posts X p (p.assignId m).2 := by
    unfold assignId
    split <;> exact posts_of_eq rfl rfl
  unfold preparePacketToSend
  split
  · exact posts_of_eq rfl rfl
  · simp only
    split_ifs
    · refine Posts.addTimeoutAt (hassign.trans ?_) _ _
      refine Posts.trans ?_ (posts_addToWaiting _ _ _)
      exact posts_of_eq rfl rfl
    · exact hassign.trans (posts_of_eq rfl rfl)

theorem posts_write (qt : Qt) (p : Protocol) (i : ℕ) (now₁ now₂ : TimePoint) :
    Posts X p (p.write qt i now₁ now₂).1 := by
  unfold write
  split
  · exact .refl p
  · refine Posts.trans ?_ (posts_preparePacketToSend qt _ _ now₁ now₂)
    exact ⟨le_rfl, fun m hm => Or.inl (List.mem_of_mem_eraseIdx hm)⟩

theorem posts_resendAll (now : TimePoint) (l : List MessageItem) (p : Protocol)
    (hl : ∀ m ∈ l, isResent now m = true → X m.resent) : Posts X p (l.foldl (resendOrExpire now) p) := by
  induction l generalizing p with
  | nil => exact .refl p
  | cons m l ih =>
      refine Posts.trans ?_ (ih _ fun x hx => hl x (List.mem_cons_of_mem _ hx))
      unfold resendOrExpire
      split_ifs with h
      · exact posts_sendMessage p (hl m List.mem_cons_self h)
      · exact posts_of_eq rfl rfl
      · exact .refl p

/-! ## New items -/

theorem Posts.isNew (h : Posts X p q) (hX : ∀ m, p.IsNew m → Y m) : ∀ m, q.IsNew m → Y m :=
  fun m hm => hX m ⟨h.alloc.trans hm.1, hm.2⟩

theorem Posts.send (h : Posts X p q) (hX : ∀ m, p.IsNew m → X m) (cmd : UInt8) (a : Option UInt8)
    (flags : UInt8) (data : Bytes) : Posts X p (q.send cmd a flags data) :=
  h.trans (posts_sendItem q (h.isNew hX _ ⟨le_rfl, rfl⟩))

theorem posts_requery (now : TimePoint) (p : Protocol) (id : UInt8) (hX : ∀ m, p.IsNew m → X m) :
    Posts X p (requery now p id) := by
  unfold requery
  split
  · exact .refl p
  next m _ =>
    split_ifs
    · refine Posts.send (Posts.addTimeoutAt ?_ _ _) hX _ _ _ _
      exact posts_of_eq rfl rfl
    · exact .refl p

theorem posts_requeryAll (now : TimePoint) (ids : List UInt8) (p : Protocol) (hX : ∀ m, p.IsNew m → X m) :
    Posts X p (ids.foldl (requery now) p) := by
  induction ids generalizing p with
  | nil => exact .refl p
  | cons id ids ih =>
      have hone := posts_requery now p id hX
      exact hone.trans (ih _ (hone.isNew hX))

theorem posts_deliverFragmented (p : Protocol) (msgId cmd : UInt8) (a : Option UInt8) (data : Bytes)
    (throws : Bool) : Posts X p (p.deliverFragmented msgId cmd a data throws) := by
  cases a with
  | none => exact posts_of_eq rfl rfl
  | some a =>
      simp only [deliverFragmented]
      split
      · exact posts_of_eq rfl rfl
      · split_ifs <;> exact posts_of_eq rfl rfl

theorem posts_processFragment (p : Protocol) (hX : ∀ m, p.IsNew m → X m) (env : Env) (msgId cmd : UInt8)
    (a : Option UInt8) (fullSize pos mx : ℕ) (data : Bytes) :
    Posts X p (p.processFragment env msgId cmd a fullSize pos mx data).1 := by
  unfold processFragment
  split_ifs
  · exact posts_of_eq rfl rfl
  simp only
  split_ifs
  · exact posts_of_eq rfl rfl
  · refine Posts.send ?_ hX _ _ _ _
    have hset : ∀ m, Posts X p (p.setFragment msgId m) := fun m => posts_of_eq rfl rfl
    have hdeliver := fun m d => (hset m).trans (posts_deliverFragmented (p.setFragment msgId m) msgId cmd a d
      env.throws)
    split_ifs
    · exact hdeliver _ _
    · exact (hdeliver _ _).trans (posts_of_eq rfl rfl)
  · refine Posts.send (Posts.addTimeoutAt ?_ _ _) hX _ _ _ _
    exact posts_of_eq rfl rfl

theorem posts_processFragmentQuery (p : Protocol) (msgId : UInt8) (pos size : ℕ) (hX : ∀ m, p.IsNew m → X m)
    (hq : ∀ m, (p.popWaitingFragment msgId).1 = some m → X (m.queried pos size)) :
    Posts X p (p.processFragmentQuery msgId pos size) := by
  have hpop : Posts X p (p.popWaitingFragment msgId).2 := posts_of_eq rfl rfl
  unfold processFragmentQuery
  cases hm : (p.popWaitingFragment msgId).1 with
  | none =>
      simp only [hm]
      exact hpop.send hX _ _ _ _
  | some m =>
      simp only [hm]
      split_ifs
      · exact hpop.trans (posts_sendMessage _ (hq m hm))
      · simp only [refuseFragmentQuery]
        split_ifs
        · exact (hpop.trans (posts_addToWaiting _ m.endTime m)).send hX _ _ _ _
        · exact (hpop.send hX _ _ _ _).trans (posts_of_eq rfl rfl)

/-! ## A step -/

/-- The items an action may post: new ones, one taken from the waiting list by the resend timer before
its deadline, and one that a fragment query asks for. -/
inductive PostedBy (qt : Qt) (p : Protocol) : Action → MessageItem → Prop
  | new {a : Action} {m : MessageItem} : p.IsNew m → PostedBy qt p a m
  | resent {now₁ now₂ : TimePoint} {m : MessageItem} : m ∈ (p.popWaitingMessages now₁).1 →
      isResent now₂ m = true → PostedBy qt p (.timer .null now₁ now₂) m.resent
  | queried {pkt : Packet} {env : Env} {id : UInt8} {pos size : ℕ} {m : MessageItem} :
      pkt.content qt = some (.fragmentQuery id pos size) → (p.popWaitingFragment id).1 = some m →
      PostedBy qt p (.receive pkt env) (m.queried pos size)

theorem popWaitingFragment_afterTest (p : Protocol) (pkt : Packet) (env : Env) (id : UInt8) :
    ((p.afterTest pkt env).popWaitingFragment id).1 = (p.popWaitingFragment id).1 := by
  unfold popWaitingFragment popWaitingMessage
  rw [waitingMessages_afterTest]

theorem posts_dispatch (p : Protocol) (env : Env) (msgId cmd : UInt8) (c : Content)
    (hX : ∀ m, p.IsNew m → X m)
    (hq : ∀ id pos size m, c = .fragmentQuery id pos size → (p.popWaitingFragment id).1 = some m →
      X (m.queried pos size)) : Posts X p (p.dispatch env msgId cmd c).1 := by
  cases c with
  | removeFragment id => exact posts_of_eq rfl rfl
  | fragmentQuery id pos size => exact posts_processFragmentQuery p id pos size hX fun m => hq id pos size m rfl
  | fragment a full pos mx data => exact posts_processFragment p hX env msgId cmd a full pos mx data
  | answer a data =>
      simp only [dispatch, processAnswer]
      split
      · exact posts_of_eq rfl rfl
      · split_ifs <;> exact posts_of_eq rfl rfl
  | message data =>
      simp only [dispatch, processPlain]
      split_ifs
      · exact (Posts.refl p).send hX _ _ _ _
      · exact posts_of_eq rfl rfl

theorem posts_step_receive (qt : Qt) (p : Protocol) (pkt : Packet) (env : Env) :
    Posts (p.PostedBy qt (.receive pkt env)) p (p.step qt (.receive pkt env)).1 := by
  have htest : Posts (p.PostedBy qt (.receive pkt env)) p (p.afterTest pkt env) := by
    obtain ⟨next, lost, frag, evs, he, _⟩ :=
      (p.emit [.internalProcessMessage pkt]).acceptMessage_frame env.now₁ pkt.id pkt.flags
    rw [afterTest, he]
    exact posts_of_eq rfl rfl
  rw [step_receive]
  split_ifs
  · refine htest.trans ?_
    unfold processAccepted
    split_ifs
    · exact .refl _
    cases hc : pkt.content qt with
    | none => exact .refl _
    | some c =>
        refine posts_dispatch _ env pkt.id pkt.cmd c (htest.isNew fun m => .new) ?_
        rintro id pos size m rfl hm
        rw [popWaitingFragment_afterTest] at hm
        exact .queried hc hm
  · exact htest

theorem posts_processWaitList (qt : Qt) (p : Protocol) (data : TimerData) (now₁ now₂ : TimePoint) :
    Posts (p.PostedBy qt (.timer data now₁ now₂)) p (p.processWaitList data now₁ now₂) := by
  cases data with
  | fragment => exact posts_requeryAll now₁ allIds p fun m hm => .new hm
  | null =>
      have hpop : Posts (p.PostedBy qt (.timer .null now₁ now₂)) p (p.popWaitingMessages now₁).2 :=
        posts_of_eq rfl rfl
      refine (hpop.trans (posts_resendAll now₂ _ _ fun m hm hr => ?_)).trans (posts_of_eq rfl rfl)
      exact .resent hm hr

/-- **What an action posts to the writer.** -/
theorem posts_step (qt : Qt) (p : Protocol) (a : Action) : Posts (p.PostedBy qt a) p (p.step qt a).1 := by
  cases a with
  | send cmd answerId calls =>
      have hnew : p.IsNew (buildItem p.alloc cmd answerId calls) :=
        ⟨(uid_buildItem p.alloc cmd answerId calls).ge, (unsent_buildItem _ _ _ _).id_eq⟩
      exact posts_sendItem p (.new hnew)
  | write i now₁ now₂ => exact posts_write qt p i now₁ now₂
  | timer data now₁ now₂ => exact posts_processWaitList qt p data now₁ now₂
  | receive pkt env => exact posts_step_receive qt p pkt env

end Protocol

end HelpzNet
