import Helpz.Net.Custody

/-!
# One outcome for every message

`Ledger` is the invariant of the books: every item held has a history that starts with its creation,
every item that is gone has ended in exactly one of the ways `Outcome` lists, and no identity is used
twice. It is checked on the elementary moves (`Ledger.move`) and so holds in every run
(`ledger_run`).

`singleOutcome` reads off what is left in the log for an item: its answer function is called at most
once, its timeout function at most once and never both, and its finally function exactly when it is
destroyed.
-/

namespace HelpzNet

open HelpzLib

/-- The events of the fate of item `u`. -/
def history (u : ℕ) (log : List Event) : List Event := log.filter fun e => decide (e.subject = some u)

@[simp] theorem history_append (u : ℕ) (l l' : List Event) :
    history u (l ++ l') = history u l ++ history u l' := List.filter_append _ _

theorem history_of_ne {u : ℕ} {e : Event} (h : e.subject ≠ some u) : history u [e] = [] := by
  simp [history, h]

theorem history_of_eq {u : ℕ} {e : Event} (h : e.subject = some u) : history u [e] = [e] := by
  simp [history, h]

theorem Event.Plain.subject_eq {e : Event} (h : e.Plain) : e.subject = none := by
  cases e <;> first | exact h | exact h.elim

/-- **The invariant of the books.** -/
structure Ledger (b : Books) : Prop where
  nodup : (b.bag.map fun x => x.item.uid).Nodup
  opened : ∀ x ∈ b.bag, ∃ m, history x.item.uid b.log = .created m :: x.past ∧ m.SameMessage x.item
  closed : ∀ u < b.alloc, (∀ x ∈ b.bag, x.item.uid ≠ u) →
    ∃ m evs, history u b.log = .created m :: evs ∧ m.uid = u ∧ Outcome m evs
  fresh : ∀ u, b.alloc ≤ u → history u b.log = []

namespace Ledger

open Books

theorem uid_lt {b : Books} (h : Ledger b) {x : Holding} (hx : x ∈ b.bag) : x.item.uid < b.alloc := by
  by_contra hge
  obtain ⟨m, hm, _⟩ := h.opened x hx
  rw [h.fresh _ (not_lt.mp hge)] at hm
  cases hm

theorem replace {bag : Multiset Holding} {alloc : ℕ} {tx tx' : UInt8} {w : Bool} {log log' : List Event}
    {x y : Holding} (h : Ledger ⟨x ::ₘ bag, alloc, tx, w, log⟩) (hs : x.item.SameMessage y.item)
    (hlog : ∀ u, u ≠ x.item.uid → history u log' = history u log)
    (hx : ∀ m, history x.item.uid log = .created m :: x.past →
      history x.item.uid log' = .created m :: y.past) :
    Ledger ⟨y ::ₘ bag, alloc, tx', w, log'⟩ := by
  have hnd := h.nodup
  rw [Multiset.map_cons, Multiset.nodup_cons] at hnd
  have hlt := h.uid_lt (Multiset.mem_cons_self x bag)
  refine ⟨?_, Multiset.forall_mem_cons.mpr ⟨?_, fun z hz => ?_⟩, fun u hu hne => ?_, fun u hu => ?_⟩
  · rw [Multiset.map_cons, Multiset.nodup_cons, hs.uid]
    exact hnd
  · obtain ⟨m, hm, hsm⟩ := h.opened x (Multiset.mem_cons_self _ _)
    exact ⟨m, by rw [hs.uid]; exact hx m hm, hsm.trans hs⟩
  · have hne : z.item.uid ≠ x.item.uid := fun he => hnd.1 (Multiset.mem_map.mpr ⟨z, hz, he⟩)
    rw [hlog _ hne]
    exact h.opened z (Multiset.mem_cons_of_mem hz)
  · obtain ⟨hy, hrest⟩ := Multiset.forall_mem_cons.mp hne
    rw [hs.uid] at hy
    rw [hlog u (Ne.symm hy)]
    exact h.closed u hu (Multiset.forall_mem_cons.mpr ⟨hy, hrest⟩)
  · simp only at hu hlt
    rw [hlog u (by omega)]
    exact h.fresh u hu

/-- **Every elementary move keeps the books in order.** -/
theorem move {b b' : Books} (h : Ledger b) (hm : Books.Move b b') : Ledger b' := by
  cases hm with
  | note e he =>
      have hist : ∀ u l, history u (l ++ [e]) = history u l := fun u l => by
        rw [history_append, history_of_ne (by rw [he.subject_eq]; exact nofun), List.append_nil]
      exact ⟨h.nodup, fun x hx => by rw [hist]; exact h.opened x hx,
        fun u hu hx => by rw [hist]; exact h.closed u hu hx, fun u hu => by rw [hist]; exact h.fresh u hu⟩
  | @create bag alloc tx w log m hu hid hd hf =>
      have hist : ∀ u, u ≠ alloc → history u (log ++ [.created m]) = history u log := fun u hne => by
        rw [history_append, history_of_ne, List.append_nil]
        intro he
        exact hne (by rw [← hu]; exact (Option.some.inj he).symm)
      have hnew : history alloc (log ++ [.created m]) = [.created m] := by
        rw [history_append, h.fresh alloc le_rfl, List.nil_append, history_of_eq]
        exact congrArg some hu
      refine ⟨?_, Multiset.forall_mem_cons.mpr ⟨⟨m, by rw [hu]; exact hnew, .refl m⟩, fun x hx => ?_⟩,
        fun u hlt hx => ?_, fun u hle => ?_⟩
      · rw [Multiset.map_cons, Multiset.nodup_cons]
        refine ⟨fun hmem => ?_, h.nodup⟩
        obtain ⟨x, hx, he⟩ := Multiset.mem_map.mp hmem
        have := h.uid_lt hx
        simp only at he this
        omega
      · rw [hist _ (ne_of_lt (h.uid_lt hx))]
        exact h.opened x hx
      · obtain ⟨hne, hrest⟩ := Multiset.forall_mem_cons.mp hx
        rw [hist u fun he => hne (he ▸ hu)]
        have hlt' : u < alloc + 1 := hlt
        have hne' : m.uid ≠ u := hne
        exact h.closed u (show u < alloc by omega) hrest
      · have hle' : alloc + 1 ≤ u := hle
        rw [hist u (by omega)]
        exact h.fresh u (show alloc ≤ u by omega)
  | touch m m' hs hid => exact h.replace hs (fun _ _ => rfl) fun _ he => he
  | @assign bag alloc tx w log pre m hid =>
      have hist : ∀ u, history u (log ++ [.assigned tx m.payload]) = history u log := fun u => by
        rw [history_append, history_of_ne (by exact nofun), List.append_nil]
      exact h.replace ⟨rfl, rfl, rfl, rfl, rfl, rfl, rfl, rfl, Or.inl rfl⟩ (fun u _ => hist u)
        fun _ he => (hist _).trans he
  | park m hid => exact h.replace (.refl m) (fun _ _ => rfl) fun _ he => he
  | take m => exact h.replace (.refl m) (fun _ _ => rfl) fun _ he => he
  | @record bag alloc tx w log pre m e he =>
      refine h.replace (.refl m) (fun u hne => ?_) fun m₀ hm₀ => ?_
      · rw [history_append, history_of_ne, List.append_nil]
        rw [he.subject]
        exact fun heq => hne (Option.some.inj heq).symm
      · rw [history_append, hm₀, history_of_eq he.subject]
        rfl
  | @close bag alloc tx w log pre m ho =>
      have hnd := h.nodup
      rw [Multiset.map_cons, Multiset.nodup_cons] at hnd
      refine ⟨hnd.2, fun x hx => h.opened x (Multiset.mem_cons_of_mem hx), fun u hlt hx => ?_, h.fresh⟩
      by_cases heq : m.uid = u
      · obtain ⟨m₀, hm₀, hs₀⟩ := h.opened ⟨m, false, pre⟩ (Multiset.mem_cons_self _ _)
        exact ⟨m₀, pre, heq ▸ hm₀, hs₀.uid ▸ heq, ho.of_same hs₀⟩
      · exact h.closed u hlt (Multiset.forall_mem_cons.mpr ⟨heq, hx⟩)

theorem steps {b b' : Books} (h : Ledger b) (hs : Steps b b') : Ledger b' := by
  induction hs with
  | refl => exact h
  | tail _ hm ih => exact ih.move hm

end Ledger

theorem ledger_fresh : Ledger (Protocol.fresh.books 0) :=
  ⟨Multiset.nodup_zero, fun x hx => absurd hx (Multiset.notMem_zero x),
    fun u hu => absurd hu (Nat.not_lt_zero u), fun _ _ => rfl⟩

/-- **The books are in order in every run.** -/
theorem ledger_run (qt : Qt) (acts : List Action) : Ledger ((Protocol.fresh.run qt acts).books 0) :=
  ledger_fresh.steps (Protocol.steps_run qt Protocol.waitingHaveIds_fresh acts)

/-! ## What the log says about one item -/

/-- The calls of the answer function of item `u`: whether each threw. -/
def answerCalls (u : ℕ) (log : List Event) : List Bool :=
  log.filterMap fun
    | .answerFunc v _ _ _ threw => if v = u then some threw else none
    | _ => none

/-- The calls of the timeout function of item `u`: when each was made. -/
def timeoutCalls (u : ℕ) (log : List Event) : List TimePoint :=
  log.filterMap fun
    | .timeoutFunc v now => if v = u then some now else none
    | _ => none

/-- The calls of the finally function of item `u`: its arguments. -/
def finallyCalls (u : ℕ) (log : List Event) : List Bool :=
  log.filterMap fun
    | .finallyFunc v ok => if v = u then some ok else none
    | _ => none

/-- The destructions of item `u`. -/
def destructions (u : ℕ) (log : List Event) : List Release :=
  log.filterMap fun
    | .destroyed v why => if v = u then some why else none
    | _ => none

theorem filterMap_history {β : Type} (f : Event → Option β) {u : ℕ}
    (hf : ∀ e, e.subject ≠ some u → f e = none) (log : List Event) :
    (history u log).filterMap f = log.filterMap f := by
  unfold history
  rw [List.filterMap_filter]
  congr 1
  funext e
  by_cases h : e.subject = some u
  · simp [h]
  · simp [h, hf e h]

theorem destructions_history (u : ℕ) (log : List Event) :
    destructions u (history u log) = destructions u log :=
  filterMap_history _ (fun e he => by cases e <;> simp_all [Event.subject]) log

/-- What an outcome amounts to. -/
structure SingleOutcome (m : MessageItem) (log : List Event) : Prop where
  answer_le : (answerCalls m.uid log).length ≤ 1
  timeout_le : (timeoutCalls m.uid log).length ≤ 1
  not_both : answerCalls m.uid log = [] ∨ timeoutCalls m.uid log = []
  destroyed_le : (destructions m.uid log).length ≤ 1
  finally_eq : finallyCalls m.uid log = if m.finallyFunc = true ∧ destructions m.uid log ≠ [] then
    [decide (m.answerFunc = false ∨ answerCalls m.uid log = [false])] else []

theorem SingleOutcome.of_history {m : MessageItem} {log : List Event}
    (h : SingleOutcome m (history m.uid log)) : SingleOutcome m log := by
  have ha : answerCalls m.uid (history m.uid log) = answerCalls m.uid log :=
    filterMap_history _ (fun e he => by cases e <;> simp_all [Event.subject]) log
  have ht : timeoutCalls m.uid (history m.uid log) = timeoutCalls m.uid log :=
    filterMap_history _ (fun e he => by cases e <;> simp_all [Event.subject]) log
  have hf : finallyCalls m.uid (history m.uid log) = finallyCalls m.uid log :=
    filterMap_history _ (fun e he => by cases e <;> simp_all [Event.subject]) log
  have hd := destructions_history m.uid log
  obtain ⟨h1, h2, h3, h4, h5⟩ := h
  rw [ha] at h1 h3 h5
  rw [ht] at h2 h3
  rw [hd] at h4 h5
  rw [hf] at h5
  exact ⟨h1, h2, h3, h4, h5⟩

theorem singleOutcome_held (m : MessageItem) : SingleOutcome m [.created m] := by
  constructor <;> simp [answerCalls, timeoutCalls, finallyCalls, destructions]

theorem answerCalls_cons (u : ℕ) (msgId cmd : UInt8) (data : Bytes) (threw : Bool) (log : List Event) :
    answerCalls u (.answerFunc u msgId cmd data threw :: log) = threw :: answerCalls u log := by
  simp [answerCalls]

theorem timeoutCalls_cons (u : ℕ) (now : TimePoint) (log : List Event) :
    timeoutCalls u (.timeoutFunc u now :: log) = now :: timeoutCalls u log := by
  simp [timeoutCalls]

theorem answerCalls_destroy (m : MessageItem) (why : Release) (u : ℕ) :
    answerCalls u (m.destroy why) = [] := by
  unfold MessageItem.destroy
  split_ifs <;> rfl

theorem timeoutCalls_destroy (m : MessageItem) (why : Release) (u : ℕ) :
    timeoutCalls u (m.destroy why) = [] := by
  unfold MessageItem.destroy
  split_ifs <;> rfl

theorem destructions_destroy (m : MessageItem) (why : Release) :
    destructions m.uid (m.destroy why) = [why] := by
  unfold MessageItem.destroy
  split_ifs <;> simp [destructions]

theorem finallyCalls_destroy (m : MessageItem) (why : Release) :
    finallyCalls m.uid (m.destroy why) = if m.finallyFunc then [!m.answerFunc] else [] := by
  unfold MessageItem.destroy
  split_ifs
  · simp only [finallyCalls, List.filterMap_cons, List.filterMap_nil, if_true]
  · rfl

/-- What is left in the log of an item that ended: the calls `as` of its answer function and `ts` of
its timeout function, then its destruction. -/
theorem SingleOutcome.of_calls {m : MessageItem} {log : List Event} {as : List Bool} {ts : List TimePoint}
    {why : Release} (ha : answerCalls m.uid log = as) (ht : timeoutCalls m.uid log = ts)
    (hd : destructions m.uid log = [why])
    (hf : finallyCalls m.uid log = if m.finallyFunc then
      [decide (m.answerFunc = false ∨ as = [false])] else [])
    (hla : as.length ≤ 1) (hlt : ts.length ≤ 1) (hboth : as = [] ∨ ts = []) :
    SingleOutcome m log ∧ destructions m.uid log ≠ [] := by
  subst ha ht
  refine ⟨⟨hla, hlt, hboth, by rw [hd]; exact le_rfl, ?_⟩, by rw [hd]; exact List.cons_ne_nil _ _⟩
  rw [hf, hd]
  simp

theorem Outcome.single {m : MessageItem} {evs : List Event} (h : Outcome m evs) :
    SingleOutcome m (.created m :: evs) ∧ destructions m.uid (.created m :: evs) ≠ [] := by
  cases h with
  | released why =>
      refine SingleOutcome.of_calls (answerCalls_destroy m why _) (timeoutCalls_destroy m why _)
        (destructions_destroy m why) ((finallyCalls_destroy m why).trans ?_) (Nat.zero_le _) (Nat.zero_le _)
        (Or.inl rfl)
      cases m.answerFunc <;> rfl
  | answered msgId cmd data threw ha =>
      let m' := { m with answerFunc := threw }
      have hcall : answerCalls m.uid (.answerFunc m.uid msgId cmd data threw :: m'.destroy .answered) =
          [threw] := by
        rw [answerCalls_cons, answerCalls_destroy]
      refine SingleOutcome.of_calls hcall (timeoutCalls_destroy m' .answered _)
        (destructions_destroy m' .answered) ((finallyCalls_destroy m' .answered).trans ?_) le_rfl
        (Nat.zero_le _) (Or.inr rfl)
      rw [ha]
      cases threw <;> rfl
  | timedOut now ht =>
      have hcall : timeoutCalls m.uid (.timeoutFunc m.uid now :: m.destroy .timedOut) = [now] := by
        rw [timeoutCalls_cons, timeoutCalls_destroy]
      refine SingleOutcome.of_calls (answerCalls_destroy m .timedOut _) hcall
        (destructions_destroy m .timedOut) ((finallyCalls_destroy m .timedOut).trans ?_) (Nat.zero_le _)
        le_rfl (Or.inl rfl)
      cases m.answerFunc <;> rfl

theorem Outcome.not_created {m : MessageItem} {evs : List Event} (h : Outcome m evs) (x : MessageItem) :
    Event.created x ∉ evs := by
  cases h <;> unfold MessageItem.destroy <;> split_ifs <;> simp

/-- The items an object holds: those posted to the writer and those waiting. -/
def Protocol.held (p : Protocol) : Multiset MessageItem := ↑p.posted + p.waitingMessages.values

theorem Protocol.mem_held {p : Protocol} {m : MessageItem} :
    m ∈ p.held ↔ m ∈ p.posted ∨ m ∈ p.waitingMessages.values := by
  rw [held, Multiset.mem_add, Multiset.mem_coe]

theorem Protocol.mem_holdings {p : Protocol} {x : Holding} (h : x ∈ (p.books 0).bag) :
    x.item ∈ p.held ∧ x.past = [] := by
  simp only [books, holdings, held, zero_add, Multiset.mem_add, Multiset.mem_map] at h ⊢
  rcases h with ⟨m, hm, rfl⟩ | ⟨m, hm, rfl⟩
  · exact ⟨Or.inl hm, rfl⟩
  · exact ⟨Or.inr hm, rfl⟩

theorem Protocol.exists_holding {p : Protocol} {m : MessageItem} (h : m ∈ p.held) :
    ∃ x ∈ (p.books 0).bag, x.item = m := by
  simp only [books, holdings, held, zero_add, Multiset.mem_add, Multiset.mem_map] at h ⊢
  rcases h with hm | hm
  · exact ⟨.idle m, Or.inl ⟨m, hm, rfl⟩, rfl⟩
  · exact ⟨⟨m, true, []⟩, Or.inr ⟨m, hm, rfl⟩, rfl⟩

theorem Protocol.map_uid_holdings (p : Protocol) :
    (p.books 0).bag.map (fun x => x.item.uid) = p.held.map MessageItem.uid := by
  simp only [books, holdings, held, zero_add, Multiset.map_add, Multiset.map_map]
  rfl

theorem Ledger.uid_ne {p : Protocol} (hl : Ledger (p.books 0)) {i : ℕ} {m : MessageItem}
    (hm : p.posted[i]? = some m) {x : MessageItem}
    (hx : x ∈ p.posted.eraseIdx i ∨ x ∈ p.waitingMessages.values) : x.uid ≠ m.uid := by
  have hnd : (p.held.map MessageItem.uid).Nodup := p.map_uid_holdings ▸ hl.nodup
  rw [Protocol.held, show (↑p.posted : Multiset MessageItem) = m ::ₘ ↑(p.posted.eraseIdx i) from
    Multiset.coe_eq_coe.mpr (Protocol.posted_perm hm), Multiset.cons_add, Multiset.map_cons,
    Multiset.nodup_cons] at hnd
  intro hu
  refine hnd.1 (Multiset.mem_map.mpr ⟨x, ?_, hu⟩)
  rwa [Multiset.mem_add, Multiset.mem_coe]

/-- An item that was created is held and nothing has happened to it, or it has had its outcome. -/
theorem Ledger.created {p : Protocol} (hl : Ledger (p.books 0)) {m : MessageItem}
    (hm : .created m ∈ p.log) :
    (history m.uid p.log = [.created m] ∧ ∃ x ∈ p.held, x.uid = m.uid) ∨
      ((∀ x ∈ p.held, x.uid ≠ m.uid) ∧ ∃ evs, history m.uid p.log = .created m :: evs ∧ Outcome m evs) := by
  have hmem : Event.created m ∈ history m.uid p.log :=
    List.mem_filter.mpr ⟨hm, by simp [Event.subject]⟩
  by_cases hheld : ∃ x ∈ p.held, x.uid = m.uid
  · obtain ⟨x, hx, hxu⟩ := hheld
    obtain ⟨y, hy, rfl⟩ := Protocol.exists_holding hx
    obtain ⟨m₀, hh, _⟩ := hl.opened y hy
    rw [hxu, (Protocol.mem_holdings hy).2] at hh
    have hh' : history m.uid p.log = [.created m₀] := hh
    rw [hh', List.mem_singleton] at hmem
    exact Or.inl ⟨by rw [hh', hmem], y.item, hx, hxu⟩
  · have hlt : m.uid < p.alloc := by
      by_contra hge
      rw [show history m.uid p.log = [] from hl.fresh m.uid (not_lt.mp hge)] at hmem
      exact absurd hmem List.not_mem_nil
    obtain ⟨m₀, evs, hh, hu, ho⟩ := hl.closed m.uid hlt fun y hy hyu =>
      hheld ⟨y.item, (Protocol.mem_holdings hy).1, hyu⟩
    have hh' : history m.uid p.log = .created m₀ :: evs := hh
    rw [hh'] at hmem
    rcases List.mem_cons.mp hmem with he | he
    · obtain rfl := Event.created.inj he
      exact Or.inr ⟨fun x hx hxu => hheld ⟨x, hx, hxu⟩, evs, hh', ho⟩
    · exact absurd he (ho.not_created m)

/-- **Single outcome.** In every run, an item that was created is held in one place and nothing has
happened to it, or it was destroyed once. Its answer function was called at most once, its timeout
function at most once and never both; its finally function was called when it was destroyed, with
`true` exactly if there was no answer function or it was called and returned. -/
theorem singleOutcome (qt : Qt) (acts : List Action) (m : MessageItem)
    (hm : .created m ∈ (Protocol.fresh.run qt acts).log) :
    SingleOutcome m (Protocol.fresh.run qt acts).log ∧
      (destructions m.uid (Protocol.fresh.run qt acts).log = [] ↔
        ∃ x ∈ (Protocol.fresh.run qt acts).held, x.uid = m.uid) ∧
      ((Protocol.fresh.run qt acts).held.map MessageItem.uid).Nodup := by
  have hl := ledger_run qt acts
  set p := Protocol.fresh.run qt acts with hp
  have hnd : (p.held.map MessageItem.uid).Nodup := by
    rw [← Protocol.map_uid_holdings]
    exact hl.nodup
  rcases hl.created hm with ⟨hh, hheld⟩ | ⟨hnot, evs, hh, ho⟩
  · refine ⟨.of_history (by rw [hh]; exact singleOutcome_held m), ?_, hnd⟩
    rw [← destructions_history, hh]
    exact ⟨fun _ => hheld, fun _ => rfl⟩
  · refine ⟨.of_history (by rw [hh]; exact ho.single.1), ?_, hnd⟩
    rw [← destructions_history, hh]
    exact ⟨fun h => absurd h ho.single.2, fun ⟨x, hx, hxu⟩ => absurd hxu (hnot x hx)⟩

/-- A message with an answer function is sent and answered. -/
def answeredRun : List Action :=
  [.send 16 none [.answer true 1, .finally true], .write 0 2 2,
    .receive ⟨0, 16, Flag.answer, [0, 9]⟩ Env.quiet]

theorem singleOutcome_answeredRun :
    let m := buildItem 0 16 none [.answer true 1, .finally true]
    let p := Protocol.fresh.run Qt.storing answeredRun
    answerCalls 0 p.log = [false] ∧ finallyCalls 0 p.log = [true] ∧ SingleOutcome m p.log ∧
      (destructions m.uid p.log = [] ↔ ∃ x ∈ p.held, x.uid = m.uid) ∧
      (p.held.map MessageItem.uid).Nodup :=
  ⟨by decide, by decide, singleOutcome Qt.storing answeredRun _ (by decide)⟩

end HelpzNet
