import Helpz.Net.Integrity
import Helpz.Net.Effects

/-!
# Agreement about completion

The sender of a large message takes it to have arrived when a query asks for a position at or past its
end. The receiver creates such a query only when it has handed the message over.

* `MessageItem.Queries`: the item is a query for a message, as the other end reads it;
* `Event.Asks`: what the queries for message `i` may ask for; `asks_step`: over one action;
* `Asking`: the invariant of the receiver, with `Asking.step` and `Asking.run`;
* `created_of_sent`: every packet comes from an item that was created;
* `completion_agreement`: over every run of both ends.
-/

namespace HelpzNet

open HelpzLib FragmentedMessage

/-- The item asks for message `i` from position `pos` on. -/
def MessageItem.Queries (m : MessageItem) (i : UInt8) (pos : ℕ) : Prop :=
  hasFlag m.flags Flag.fragmentQuery = true ∧
    ∃ size, parseFragmentQuery m.payload = some (.fragmentQuery i pos size)

theorem MessageItem.not_queries {m : MessageItem} (h : m.flags = 0) {i : UInt8} {pos : ℕ} : ¬ m.Queries i pos := by
  rintro ⟨hq, _⟩
  rw [h] at hq
  revert hq
  decide

theorem parseFragmentQuery_queryData (id : UInt8) (part : ℕ × ℕ) :
    parseFragmentQuery (Protocol.queryData id part) =
      some (.fragmentQuery id (part.1 % 2 ^ 32) (part.2 % 2 ^ 32)) := by
  have hhead : Protocol.queryData id part = toBE 1 id.toNat ++ (toBE 4 part.1 ++ toBE 4 part.2) := by
    simp [Protocol.queryData, toBE]
  simp only [parseFragmentQuery, hhead, takeBE_append, takeBE_toBE, Option.bind_eq_bind, Option.bind_some]
  simp

theorem Protocol.queries_query {uid : ℕ} {cmd id i : UInt8} {part : ℕ × ℕ} {pos : ℕ}
    (h : (query uid cmd id part).Queries i pos) : id = i ∧ pos = part.1 % 2 ^ 32 := by
  obtain ⟨_, size, hp⟩ := h
  rw [show (query uid cmd id part).payload = queryData id part from rfl, parseFragmentQuery_queryData] at hp
  obtain ⟨hid, hpos, _⟩ := Content.fragmentQuery.inj (Option.some.inj hp)
  exact ⟨hid, hpos.symm⟩

/-- If an item is created, it is an ordinary one or a short query; and a query for message `i` asks for a
position inside the payload `D`, unless `q` has handed it over and misses nothing of it. -/
def Event.Asks (i : UInt8) (D : Bytes) (q : Protocol) (e : Event) : Prop :=
  ∀ m, e = .created m → (m.flags = 0 ∨ m.answerId = none ∧ m.payload.length = 9) ∧
    ∀ pos, m.Queries i pos → pos < D.length ∨ pos = D.length ∧ (i, D) ∈ handovers q.log ∧
      ∀ x, q.fragmentedMessages i = some x → x.isPartsEmpty = true

theorem FragmentedMessage.Collects.getNextPart_lt {D : Bytes} {m m' : FragmentedMessage} (h : Collects D m)
    (hparts : m'.partVect = m.partVect) (hm : m'.isPartsEmpty = false) : m'.getNextPart.1 < D.length := by
  cases hp : m.partVect with
  | nil => simp [isPartsEmpty, hparts, hp] at hm
  | cons part l =>
      have hs := h.parts
      rw [hp] at hs
      have hlt := (separated_cons.mp hs).1
      have hfirst : m'.getNextPart.1 = part.1 := by
        simp only [getNextPart, hparts, hp]
        split_ifs <;> rfl
      rw [hfirst]
      refine h.bound part.1 ?_
      rw [hp, mem_offsets_cons]
      exact Or.inl ⟨le_rfl, hlt⟩

namespace Protocol

variable {qt : Qt} {i : UInt8} {D : Bytes} {p q : Protocol} {pkt : Packet} {env : Env} {a : Action}

/-- A transfer knows the id it is kept under. -/
def Keyed (p : Protocol) : Prop := ∀ id m, p.fragmentedMessages id = some m → m.id = id

theorem Keyed.congr (h : p.Keyed) (hf : q.fragmentedMessages = p.fragmentedMessages) : q.Keyed := by
  intro id m hm
  exact h id m (hf ▸ hm)

theorem Keyed.update (h : p.Keyed) {id : UInt8} {o : Option FragmentedMessage}
    (hf : q.fragmentedMessages = Function.update p.fragmentedMessages id o) (ho : ∀ m, o = some m → m.id = id) :
    q.Keyed := by
  intro x m hm
  rw [hf] at hm
  by_cases hx : x = id
  · subst hx
    rw [Function.update_self] at hm
    exact ho m hm
  · rw [Function.update_of_ne hx] at hm
    exact h x m hm

theorem Keyed.grownEntry (h : p.Keyed) (msgId cmd : UInt8) (fullSize pos mx : ℕ) (data : Bytes) :
    (p.grownEntry msgId cmd fullSize pos mx data).id = msgId := by
  have hentry : (p.fragmentEntry msgId cmd mx fullSize).id = msgId := by
    unfold fragmentEntry
    cases hm : p.fragmentedMessages msgId with
    | none => rfl
    | some m => exact h msgId m hm
  unfold Protocol.grownEntry addFragment
  split_ifs <;> exact hentry

theorem Keyed.requeried (h : p.Keyed) (hq : p.Requeried q) : q.Keyed := by
  intro id m hm
  rcases hq.frag id with he | ⟨m₁, m₂, h1, h2, hs⟩
  · exact h id m (he ▸ hm)
  · obtain rfl : m = m₂ := Option.some.inj (hm.symm.trans h2)
    exact hs.id.trans (h id m₁ h1)

theorem Keyed.afterTest (h : p.Keyed) (pkt : Packet) (env : Env) : (p.afterTest pkt env).Keyed := by
  intro id m hm
  rcases p.fragmentedMessages_afterTest pkt env id with hf | hf
  · exact h id m (hf ▸ hm)
  · rw [hm] at hf
    cases hf

theorem Keyed.processFragment (h : p.Keyed) (env : Env) (msgId cmd : UInt8) (a : Option UInt8)
    (fullSize pos mx : ℕ) (data : Bytes) :
    (p.processFragment env msgId cmd a fullSize pos mx data).1.Keyed := by
  have hgrown := h.grownEntry msgId cmd fullSize pos mx data
  rcases p.processFragment_cases env msgId cmd a fullSize pos mx data with he | ⟨_, ⟨_, he⟩ | ⟨_, he⟩⟩
  · rw [he]
    exact h.update rfl fun _ hm => (nomatch hm)
  · rw [he]
    refine h.update (p.completeFragment_rx env msgId cmd a fullSize _).frag fun m hm => ?_
    split_ifs at hm
    exact Option.some.inj hm ▸ hgrown
  · rw [he]
    refine h.update (p.continueFragment_rx env.now₂ msgId cmd _).frag fun m hm => ?_
    exact Option.some.inj hm ▸ hgrown

theorem Keyed.processAccepted (h : p.Keyed) (qt : Qt) (env : Env) (pkt : Packet) :
    (p.processAccepted qt env pkt).1.Keyed := by
  by_cases hfrag : ∃ a full pos mx data, pkt.content qt = some (.fragment a full pos mx data)
  · obtain ⟨a, full, pos, mx, data, hc⟩ := hfrag
    unfold Protocol.processAccepted
    split_ifs
    · exact h
    · rw [hc]
      exact h.processFragment env pkt.id pkt.cmd a full pos mx data
  · cases treated_processAccepted qt p env pkt with
    | nothing hs => exact h.congr hs.frag
    | erased id he =>
        rw [he]
        exact h.update rfl fun _ hm => (nomatch hm)
    | handed data hc hh => exact h.congr hh.frag
    | fragment a full pos mx data hc hstep => exact absurd ⟨a, full, pos, mx, data, hc⟩ hfrag

theorem Keyed.step (h : p.Keyed) (qt : Qt) (a : Action) : (p.step qt a).1.Keyed := by
  cases a with
  | receive pkt env =>
      rw [step_receive]
      split_ifs
      · exact (h.afterTest pkt env).processAccepted qt env pkt
      · exact h.afterTest pkt env
  | _ => exact h.requeried (requeried_step qt p fun _ _ => nofun)

/-! ## What one action asks for -/

theorem asks_of_calm (i : UInt8) (D : Bytes) (q : Protocol) (e : Event) (h : e.Calm) : e.Asks i D q := by
  rintro m rfl
  exact ⟨Or.inl h.routine, fun pos hq => absurd hq (MessageItem.not_queries h.routine)⟩

theorem asks_query {uid : ℕ} {cmd id : UInt8} {part : ℕ × ℕ}
    (h : id = i → part.1 % 2 ^ 32 < D.length ∨ part.1 % 2 ^ 32 = D.length ∧ (i, D) ∈ handovers q.log ∧
      ∀ x, q.fragmentedMessages i = some x → x.isPartsEmpty = true) :
    (Event.created (query uid cmd id part)).Asks i D q := by
  intro m hm
  obtain rfl := Event.created.inj hm
  refine ⟨Or.inr ⟨rfl, by simp [query, MessageItem.payload, queryData, Device.full]⟩, fun pos hq => ?_⟩
  obtain ⟨hid, rfl⟩ := queries_query hq
  exact h hid

theorem asks_next {uid : ℕ} {cmd id : UInt8} {m m' : FragmentedMessage} (hlt : D.length < 2 ^ 32)
    (h : id = i → m.Collects D) (hparts : m'.partVect = m.partVect) (hm : m'.isPartsEmpty = false) :
    (Event.created (query uid cmd id m'.getNextPart)).Asks i D q := by
  refine asks_query fun hid => Or.inl ?_
  have hpart := (h hid).getNextPart_lt hparts hm
  rwa [Nat.mod_eq_of_lt (hpart.trans hlt)]

theorem asks_requeryAll (r : Protocol) (hlt : D.length < 2 ^ 32) (now : TimePoint) (ids : List UInt8) (p : Protocol)
    (h : p.Collecting i D) (hk : p.Keyed) :
    Effects (Event.Asks i D r) NoEntry p (ids.foldl (requery now) p) := by
  induction ids generalizing p with
  | nil => exact .refl p
  | cons id ids ih =>
      have hone := requeried_requery now p id
      refine Effects.trans ?_ (ih _ (h.requeried hone) (hk.requeried hone))
      refine effects_requery (asks_of_calm i D r) now p id fun m m' hm hempty hid hparts uid cmd => ?_
      refine asks_next hlt (fun he => h.entry m ?_) hparts hempty
      rw [← he, hid, hk id m hm]
      exact hm

/-- A fragment that tells the truth. -/
theorem asks_processFragment (h : p.Collecting i D) (hlt : D.length < 2 ^ 32) (env : Env) {msgId : UInt8}
    (cmd : UInt8) {a : Option UInt8} {fullSize pos mx : ℕ} {data : Bytes}
    (hc : msgId = i → (Content.fragment a fullSize pos mx data).Tells D) :
    Effects (Event.Asks i D (p.processFragment env msgId cmd a fullSize pos mx data).1) NoEntry p
      (p.processFragment env msgId cmd a fullSize pos mx data).1 := by
  have hgrown : msgId = i → (p.grownEntry msgId cmd fullSize pos mx data).Collects D := by
    rintro rfl
    exact h.grownEntry hlt (hc rfl)
  rcases p.processFragment_cases env msgId cmd a fullSize pos mx data with he | ⟨_, ⟨hempty, he⟩ | ⟨hempty, he⟩⟩
  · rw [he]
    exact effects_of_eq rfl rfl rfl rfl
  · -- the message is complete, and was handed over before the query is sent
    rw [he]
    refine effects_completeFragment (asks_of_calm i D _) p env msgId cmd a fullSize _ fun uid => ?_
    refine asks_query fun hid => Or.inr ⟨?_, ?_, fun x hx => ?_⟩
    · rw [(hc hid).1]
      exact Nat.mod_eq_of_lt hlt
    · rw [(completeFragment_rx p env msgId cmd a fullSize _).handed, (hgrown hid).eq hempty, hid]
      exact List.mem_append_right _ (List.mem_singleton.mpr rfl)
    · rw [(completeFragment_rx p env msgId cmd a fullSize _).frag, hid] at hx
      simp only [Function.update_self] at hx
      split_ifs at hx
      exact Option.some.inj hx ▸ hid ▸ hempty
  · rw [he]
    exact effects_continueFragment (asks_of_calm i D _) p env.now₂ msgId cmd _ fun uid =>
      asks_next hlt hgrown rfl hempty

theorem asks_processAccepted (h : p.Collecting i D) (hlt : D.length < 2 ^ 32) (env : Env)
    (htrue : pkt.Truthful qt i D) :
    ∃ evs, (p.processAccepted qt env pkt).1.log = p.log ++ evs ∧
      ∀ e ∈ evs, e.Asks i D (p.processAccepted qt env pkt).1 := by
  by_cases hfrag : pkt.Unfragmented qt
  · exact (effects_processAccepted (asks_of_calm i D _) qt p env hfrag).log
  · unfold Packet.Unfragmented at hfrag
    push Not at hfrag
    obtain ⟨a, full, pos, mx, data, hc⟩ := hfrag
    unfold processAccepted
    split_ifs
    · exact (Effects.refl (W := NoEntry) p).log
    · rw [hc]
      exact (asks_processFragment h hlt env pkt.cmd fun hid => htrue hid _ hc).log

/-- **What an action asks for.** -/
theorem asks_step (h : p.Collecting i D) (hk : p.Keyed) (hlt : D.length < 2 ^ 32)
    (htrue : ∀ pkt ∈ arrivals [a], pkt.Truthful qt i D) :
    ∃ evs, (p.step qt a).1.log = p.log ++ evs ∧ ∀ e ∈ evs, e.Asks i D (p.step qt a).1 := by
  cases a with
  | send cmd answerId calls =>
      refine (effects_sendItem (C := Event.Asks i D _) (asks_of_calm i D _) p ?_).log
      exact asks_of_calm i D _ _ ⟨(unsent_buildItem p.alloc cmd answerId calls).flags_eq, rfl⟩
  | write j now₁ now₂ =>
      exact events_write (asks_of_calm i D _) (fun _ _ _ => nofun) (fun _ _ _ _ => nofun) qt p j now₁ now₂
  | timer data now₁ now₂ =>
      cases data with
      | null => exact (effects_processWaitList_null (asks_of_calm i D _) p now₁ now₂ fun _ _ _ _ => nofun).log
      | fragment => exact (asks_requeryAll _ hlt now₁ allIds p h hk).log
  | receive pkt env =>
      have hpkt := htrue pkt (List.mem_singleton.mpr rfl)
      have htest : ∀ r, Effects (Event.Asks i D r) NoEntry p (p.afterTest pkt env) := fun r =>
        effects_afterTest (asks_of_calm i D r) p pkt env fun _ => nofun
      rw [step_receive]
      split_ifs
      · obtain ⟨evs, hlog, hevs⟩ := asks_processAccepted (h.afterTest pkt env) hlt env hpkt
        obtain ⟨evs', hlog', hevs'⟩ := (htest ((p.afterTest pkt env).processAccepted qt env pkt).1).log
        refine ⟨evs' ++ evs, by rw [hlog, hlog', List.append_assoc], fun e he => ?_⟩
        exact (List.mem_append.mp he).elim (hevs' e) (hevs e)
      · exact (htest _).log

/-! ## Every run -/

/-- The invariant of the receiver: what was created so far asks for no position past the end of the payload,
and for the end only if the payload was handed over. -/
structure Asking (i : UInt8) (D : Bytes) (p : Protocol) : Prop where
  collecting : p.Collecting i D
  keyed : p.Keyed
  created : ∀ m, .created m ∈ p.log → m.flags = 0 ∨ m.answerId = none ∧ m.payload.length = 9
  asked : ∀ m, .created m ∈ p.log → ∀ pos, m.Queries i pos →
    pos < D.length ∨ pos = D.length ∧ (i, D) ∈ handovers p.log

theorem asking_fresh (i : UInt8) (D : Bytes) : fresh.Asking i D :=
  ⟨collecting_fresh i D, fun _ _ hm => (nomatch hm), fun _ hm => (nomatch hm), fun _ hm => (nomatch hm)⟩

theorem Asking.step (h : p.Asking i D) (hlt : D.length < 2 ^ 32)
    (htrue : ∀ pkt ∈ arrivals [a], pkt.Truthful qt i D) : (p.step qt a).1.Asking i D := by
  obtain ⟨evs, hlog, hevs⟩ := asks_step h.collecting h.keyed hlt htrue
  refine ⟨h.collecting.step hlt htrue, h.keyed.step qt a, fun m hm => ?_, fun m hm pos hq => ?_⟩
  · rw [hlog, List.mem_append] at hm
    exact hm.elim (h.created m) fun hm => (hevs _ hm m rfl).1
  · rw [hlog, List.mem_append] at hm
    rcases hm with hm | hm
    · refine (h.asked m hm pos hq).imp_right fun ⟨hpos, hd⟩ => ⟨hpos, ?_⟩
      rw [hlog, handovers_append]
      exact List.mem_append_left _ hd
    · exact ((hevs _ hm m rfl).2 pos hq).imp_right fun ⟨hpos, hd, _⟩ => ⟨hpos, hd⟩

theorem Asking.run (h : p.Asking i D) (hlt : D.length < 2 ^ 32) {acts : List Action}
    (htrue : ∀ pkt ∈ arrivals acts, pkt.Truthful qt i D) : (p.run qt acts).Asking i D := by
  induction acts generalizing p with
  | nil => exact h
  | cons a acts ih =>
      rw [arrivals_cons] at htrue
      exact ih (h.step hlt fun pkt hp => htrue pkt (List.mem_append_left _ hp)) fun pkt hp =>
        htrue pkt (List.mem_append_right _ hp)

/-! ## The packets of queries -/

theorem created_of_posted (qt : Qt) (acts : List Action) {m : MessageItem} (hm : m ∈ (fresh.run qt acts).posted) :
    ∃ m₀, .created m₀ ∈ (fresh.run qt acts).log ∧ m₀.SameMessage m := by
  obtain ⟨x, hx, rfl⟩ := exists_holding (mem_held.mpr (Or.inl hm))
  obtain ⟨m₀, hh, hs⟩ := (ledger_run qt acts).opened x hx
  have hmem : .created m₀ ∈ history x.item.uid (fresh.run qt acts).log := hh ▸ List.mem_cons_self
  exact ⟨m₀, (List.mem_filter.mp hmem).1, hs⟩

/-- **Every packet sent is packed from an item that was created.** -/
theorem created_of_sent (qt : Qt) (acts : List Action) {pkt : Packet} (h : pkt ∈ fresh.sent qt acts) :
    ∃ m₀ m d, .created m₀ ∈ (fresh.run qt acts).log ∧ m₀.SameMessage m ∧ m.PlainFlags ∧ m.dataDevice = some d ∧
      pkt = packItem qt m d pkt.id := by
  induction acts using List.reverseRecOn with
  | nil => exact absurd h List.not_mem_nil
  | append_singleton acts a ih =>
      have hprefix := (log_prefix_step qt (waitingHaveIds_run qt acts) a).subset
      rw [sent_append, sent_singleton, List.mem_append] at h
      rw [run_append]
      rcases h with h | h
      · obtain ⟨m₀, m, d, hm₀, hrest⟩ := ih h
        exact ⟨m₀, m, d, hprefix hm₀, hrest⟩
      · cases a with
        | write j now₁ now₂ =>
            obtain ⟨m, d, hm, hd, rfl⟩ := mem_write h
            have hmem := List.mem_of_getElem? hm
            obtain ⟨m₀, hm₀, hs⟩ := created_of_posted qt acts hmem
            exact ⟨m₀, m, d, hprefix hm₀, hs, plainFlags_of_held hmem, hd, rfl⟩
        | _ => exact absurd h List.not_mem_nil

theorem queries_of_content {m₀ m : MessageItem} {d : Device} {id : UInt8} {pos size : ℕ} (hs : m₀.SameMessage m)
    (hf : m.PlainFlags) (hd : m.dataDevice = some d)
    (hshort : m₀.flags = 0 ∨ m₀.answerId = none ∧ m₀.payload.length = 9)
    (hc : (packItem qt m d id).content qt = some (.fragmentQuery i pos size)) : m₀.Queries i pos := by
  have hpay : m₀.payload = d.data := by rw [← hs.payload, MessageItem.payload, hd]; rfl
  have hq : hasFlag m.flags Flag.fragmentQuery = true := by
    have hflag := fragmentQuery_of_content hc
    rw [← fragmentQuery_packFlags m d]
    unfold packItem compressBody at hflag
    split_ifs at hflag
    · rwa [hasFlag_or, show hasFlag Flag.compressed Flag.fragmentQuery = false by decide, Bool.or_false] at hflag
    · exact hflag
  have hq₀ : hasFlag m₀.flags Flag.fragmentQuery = true := by
    rcases hs.flags with he | he
    · rwa [← he]
    · rwa [he, hasFlag_or, show hasFlag Flag.repeated Flag.fragmentQuery = false by decide, Bool.or_false] at hq
  refine ⟨hq₀, size, ?_⟩
  have hzero : m₀.flags ≠ 0 := by
    intro h0
    rw [h0] at hq₀
    revert hq₀
    decide
  obtain ⟨hans, hlen⟩ := hshort.resolve_left hzero
  have hsize : d.size = 9 := by rw [← hlen, hpay]; rfl
  have hle := m.fragmentSize_mem.1
  rw [content_packItem qt hf, packBody_fst m d (by omega), hs.answerId, hans,
    if_neg (by omega)] at hc
  unfold parseContent at hc
  by_cases hcmd : m.cmd = Cmd.removeFragment
  · rw [if_pos hcmd] at hc
    obtain ⟨x, _, hx⟩ := Option.map_eq_some_iff.mp hc
    cases hx
  · rw [if_neg hcmd, if_pos (fragmentQuery_packFlags m d ▸ hq)] at hc
    rw [hpay]
    exact hc

end Protocol

/-- **Agreement about completion.** In every run of two endpoints, whatever packets are lost, delayed,
reordered or duplicated, with id `i` given out by one end for payload `D` and no id given out twice: when a
query for message `i` arrives there that asks for a position at or past the end, the other end has handed
over exactly `D`; and whatever the other end asks for while parts of the message are missing lies before
the end. -/
theorem completion_agreement (qt : Qt) (s : Side) (moves : List Move) (i : UInt8) (D : Bytes)
    (hids : (assignedIds ((System.fresh.run qt moves).node s.other).log).length ≤ 256)
    (hD : .assigned i D ∈ ((System.fresh.run qt moves).node s.other).log) (hlt : D.length < 2 ^ 31) :
    (∀ pkt ∈ System.arrivedAt qt s.other moves, ∀ pos size, pkt.content qt = some (.fragmentQuery i pos size) →
      D.length ≤ pos → (i, D) ∈ handovers ((System.fresh.run qt moves).node s).log) ∧
    ∀ past a rest, System.fresh.actions qt s moves = past ++ a :: rest →
      ∃ evs, (Protocol.fresh.run qt (past ++ [a])).log = (Protocol.fresh.run qt past).log ++ evs ∧
        ∀ m pos x, .created m ∈ evs → m.Queries i pos →
          (Protocol.fresh.run qt (past ++ [a])).fragmentedMessages i = some x → x.isPartsEmpty = false →
          pos < D.length := by
  have hlt' : D.length < 2 ^ 32 := by omega
  have htrue := truthful_of_arrived qt s moves hids hD hlt'
  constructor
  · intro pkt hpkt pos size hc hle
    have hsent := System.arrived_subset_sent qt s.other moves hpkt
    rw [Side.other_other] at hsent
    have hasking := (Protocol.asking_fresh i D).run hlt' htrue
    obtain ⟨m₀, m, d, hm₀, hs, hf, hd, hpack⟩ := Protocol.created_of_sent qt _ hsent
    rw [hpack] at hc
    have hq := Protocol.queries_of_content hs hf hd (hasking.created m₀ hm₀) hc
    rw [System.node_run_fresh]
    exact ((hasking.asked m₀ hm₀ pos hq).resolve_left (not_lt.mpr hle)).2
  · intro past a rest hacts
    rw [System.arrivedAt, hacts] at htrue
    have hpast : (Protocol.fresh.run qt past).Asking i D := (Protocol.asking_fresh i D).run hlt' fun pkt hp =>
      htrue pkt (by rw [arrivals_append]; exact List.mem_append_left _ hp)
    obtain ⟨evs, hlog, hevs⟩ := Protocol.asks_step (a := a) hpast.collecting hpast.keyed hlt' fun pkt hp =>
      htrue pkt (by rw [arrivals_append, arrivals_cons]; exact List.mem_append_right _ (List.mem_append_left _ hp))
    rw [Protocol.run_append]
    refine ⟨evs, hlog, fun m pos x hm hq hx hempty => ?_⟩
    rcases (hevs _ hm m rfl).2 pos hq with hpos | ⟨_, _, hdone⟩
    · exact hpos
    · rw [hdone x hx] at hempty
      cases hempty

/-- The run of `fragmentedRun`, until the last query has arrived. -/
def reportedRun : List Move :=
  fragmentedRun ++ [.own .right (.write 0 0 0), .deliver .left 0 false Env.quiet,
    .own .right (.write 0 0 0), .deliver .left 0 false Env.quiet]

theorem completion_agreement_reportedRun :
    let D := (List.range 70).map UInt8.ofNat
    (∃ pkt ∈ System.arrivedAt Qt.storing .left reportedRun, ∃ pos size,
      pkt.content Qt.storing = some (.fragmentQuery 0 pos size) ∧ D.length ≤ pos) ∧
      (0, D) ∈ handovers ((System.fresh.run Qt.storing reportedRun).node .right).log := by
  intro D
  have hlast : some (Content.fragmentQuery 0 70 54) ∈
      (System.arrivedAt Qt.storing .left reportedRun).map (Packet.content Qt.storing) := by decide +kernel
  obtain ⟨pkt, hpkt, hc⟩ := List.mem_map.mp hlast
  refine ⟨⟨pkt, hpkt, 70, 54, hc, by decide⟩, ?_⟩
  exact (completion_agreement Qt.storing .right reportedRun 0 D (by decide +kernel) (by decide +kernel)
    (by decide)).1 pkt hpkt 70 54 hc (by decide)

end HelpzNet
