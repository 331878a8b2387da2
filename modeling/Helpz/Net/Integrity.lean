import Helpz.Net.Traffic

/-!
# Payload integrity

Whatever the transport does, a message is handed over with exactly the payload it was sent with.

* `Tracks i E H`: the transfers of one id have a property, and what is handed over under it another; kept by
  packets that suit them (`Content.Suits`), for one action and for a run;
* `Collecting i D`: the case of a payload: a transfer with its id collects `D`
  (`FragmentedMessage.Collects`), and what was handed over under its id is `D`; the packets of the message
  suit it if they tell the truth about its payload (`suits_of_tells`);
* `integrity`: they do, since the other end packed them from the payload that was assigned the id.
-/

namespace HelpzNet

open HelpzLib FragmentedMessage

/-- The transfers and what was handed over are those of payload `D`, as far as message `i` goes. -/
structure Protocol.Collecting (i : UInt8) (D : Bytes) (p : Protocol) : Prop where
  entry : ∀ m, p.fragmentedMessages i = some m → m.Collects D
  handed : ∀ data, (i, data) ∈ handovers p.log → data = D

/-- The transfers with id `i` have the property `E`, and what was handed over under it the property `H`. -/
structure Protocol.Tracks (i : UInt8) (E : FragmentedMessage → Prop) (H : Bytes → Prop) (p : Protocol) :
    Prop where
  entry : ∀ m, p.fragmentedMessages i = some m → E m
  handed : ∀ data, (i, data) ∈ handovers p.log → H data

/-- The content keeps such properties: what it hands over has `H`, and a fragment brings no transfer out of
`E`. -/
def Content.Suits (E : FragmentedMessage → Prop) (H : Bytes → Prop) : Content → Prop
  | .fragment _ fullSize pos _ data => fullSize < protocolMaxMessageSize →
      (∀ id cmd size, E (FragmentedMessage.new id cmd size fullSize)) ∧
        ∀ m, E m → E (Protocol.addFragment m pos data)
  | .answer _ data => H data
  | .message data => H data
  | _ => True

/-- Everything the packet says, if it is one of message `i`, is true of payload `D`. -/
def Packet.Truthful (qt : Qt) (i : UInt8) (D : Bytes) (pkt : Packet) : Prop :=
  pkt.id = i → ∀ c, pkt.content qt = some c → c.Tells D

theorem FragmentedMessage.Collects.congr {D : Bytes} {m m' : FragmentedMessage} (h : Collects D m)
    (hd : m'.data = m.data) (hp : m'.partVect = m.partVect) : Collects D m' :=
  ⟨hp ▸ h.parts, hp ▸ h.bound, hd ▸ hp ▸ h.agrees⟩

namespace Protocol

variable {qt : Qt} {i : UInt8} {D : Bytes} {p q : Protocol} {pkt : Packet} {env : Env}

/-! ## The transfers of one id -/

section Tracks

variable {E : FragmentedMessage → Prop} {H : Bytes → Prop}

theorem Tracks.requeried (h : p.Tracks i E H)
    (hcongr : ∀ m m' : FragmentedMessage, m'.data = m.data → m'.partVect = m.partVect → E m → E m')
    (hq : p.Requeried q) : q.Tracks i E H := by
  refine ⟨fun m hm => ?_, fun data hd => h.handed data (hq.handed ▸ hd)⟩
  rcases hq.frag i with he | ⟨m₁, m₂, h1, h2, hs⟩
  · exact h.entry m (he ▸ hm)
  · obtain rfl : m = m₂ := Option.some.inj (hm.symm.trans h2)
    exact hcongr m₁ m hs.data hs.partVect (h.entry m₁ h1)

theorem Tracks.grownEntry (h : p.Tracks i E H) (cmd : UInt8) {a : Option UInt8} {fullSize pos mx : ℕ}
    {data : Bytes} (hc : (Content.fragment a fullSize pos mx data).Suits E H)
    (hsize : fullSize < protocolMaxMessageSize) : E (p.grownEntry i cmd fullSize pos mx data) := by
  refine (hc hsize).2 _ ?_
  unfold fragmentEntry
  cases hm : p.fragmentedMessages i with
  | none => exact (hc hsize).1 _ _ _
  | some m => exact h.entry m hm

theorem Tracks.store (h : p.Tracks i E H) {id : UInt8} {o : Option FragmentedMessage}
    {evs : List (UInt8 × Bytes)} (hf : q.fragmentedMessages = Function.update p.fragmentedMessages id o)
    (hh : handovers q.log = handovers p.log ++ evs) (ho : id = i → ∀ m, o = some m → E m)
    (he : ∀ data, (i, data) ∈ evs → H data) : q.Tracks i E H := by
  refine ⟨fun m hm => ?_, fun data hd => ?_⟩
  · rw [hf] at hm
    by_cases hi : i = id
    · subst hi
      rw [Function.update_self] at hm
      exact ho rfl m hm
    · rw [Function.update_of_ne hi] at hm
      exact h.entry m hm
  · rw [hh, List.mem_append] at hd
    exact hd.elim (h.handed data) (he data)

/-- **An accepted packet that suits the properties keeps them.** -/
theorem Tracks.treated (h : p.Tracks i E H)
    (hcongr : ∀ m m' : FragmentedMessage, m'.data = m.data → m'.partVect = m.partVect → E m → E m')
    (hcomplete : ∀ m : FragmentedMessage, E m → m.isPartsEmpty = true → H m.data)
    (hpkt : pkt.id = i → ∀ c, pkt.content qt = some c → c.Suits E H) (ht : Treated qt env pkt p q) :
    q.Tracks i E H := by
  have hsingle : ∀ {data : Bytes}, (pkt.id = i → H data) → ∀ x, (i, x) ∈ [(pkt.id, data)] → H x := by
    intro data hd x hx
    obtain ⟨hid, rfl⟩ := Prod.mk.inj (List.mem_singleton.mp hx)
    exact hd hid.symm
  cases ht with
  | nothing hs => exact h.requeried hcongr hs.requeried
  | erased id he =>
      subst he
      exact h.store rfl (List.append_nil _).symm (fun _ _ hm => nomatch hm) fun _ hx => (nomatch hx)
  | handed data hc hh =>
      refine ⟨fun m hm => h.entry m (hh.frag ▸ hm), fun x hx => ?_⟩
      rw [hh.handed, List.mem_append] at hx
      refine hx.elim (h.handed x) (hsingle (fun hid => ?_) x)
      rcases hc with hc | ⟨a, hc⟩
      · exact hpkt hid _ hc
      · exact hpkt hid _ hc
  | fragment a full pos mx data hc hstep =>
      have hgrown : pkt.id = i → full < protocolMaxMessageSize →
          E (p.grownEntry pkt.id pkt.cmd full pos mx data) := by
        rintro rfl hsize
        exact h.grownEntry pkt.cmd (hpkt rfl _ hc) hsize
      cases hstep with
      | dropped _ _ hf hh =>
          exact h.store hf (hh.trans (List.append_nil _).symm) (fun _ _ hm => nomatch hm)
            fun _ hx => (nomatch hx)
      | complete hsize hempty _ _ hf hh =>
          refine h.store hf hh (fun hid m hm => ?_) (hsingle fun hid => hcomplete _ (hgrown hid hsize) hempty)
          split_ifs at hm
          obtain rfl := Option.some.inj hm
          exact hgrown hid hsize
      | goesOn m' hsize _ hd hp _ _ hf hh =>
          refine h.store hf (hh.trans (List.append_nil _).symm) (fun hid m hm => ?_) fun _ hx => (nomatch hx)
          obtain rfl := Option.some.inj hm
          exact hcongr _ _ hd hp (hgrown hid hsize)

theorem Tracks.afterTest (h : p.Tracks i E H) (pkt : Packet) (env : Env) : (p.afterTest pkt env).Tracks i E H := by
  refine ⟨fun m hm => ?_, fun data hd => h.handed data ?_⟩
  · rcases p.fragmentedMessages_afterTest pkt env i with hf | hf
    · exact h.entry m (hf ▸ hm)
    · rw [hm] at hf
      cases hf
  · rwa [handovers_afterTest] at hd

/-- **Every action keeps the properties**, if the packet that arrives suits them. -/
theorem Tracks.step (h : p.Tracks i E H)
    (hcongr : ∀ m m' : FragmentedMessage, m'.data = m.data → m'.partVect = m.partVect → E m → E m')
    (hcomplete : ∀ m : FragmentedMessage, E m → m.isPartsEmpty = true → H m.data) {a : Action}
    (hpkt : ∀ pkt ∈ arrivals [a], pkt.id = i → ∀ c, pkt.content qt = some c → c.Suits E H) :
    (p.step qt a).1.Tracks i E H := by
  cases a with
  | receive pkt env =>
      rw [step_receive]
      split_ifs
      · exact (h.afterTest pkt env).treated hcongr hcomplete (hpkt pkt (List.mem_singleton.mpr rfl))
          (treated_processAccepted qt _ env pkt)
      · exact h.afterTest pkt env
  | _ => exact h.requeried hcongr (requeried_step qt p fun _ _ => nofun)

/-- **Every run keeps the properties**, if all packets that arrive suit them. -/
theorem Tracks.run (h : p.Tracks i E H)
    (hcongr : ∀ m m' : FragmentedMessage, m'.data = m.data → m'.partVect = m.partVect → E m → E m')
    (hcomplete : ∀ m : FragmentedMessage, E m → m.isPartsEmpty = true → H m.data) {acts : List Action}
    (hpkt : ∀ pkt ∈ arrivals acts, pkt.id = i → ∀ c, pkt.content qt = some c → c.Suits E H) :
    (p.run qt acts).Tracks i E H := by
  induction acts generalizing p with
  | nil => exact h
  | cons a acts ih =>
      rw [arrivals_cons] at hpkt
      have hstep := h.step hcongr hcomplete fun pkt hp => hpkt pkt (List.mem_append_left _ hp)
      exact ih hstep fun pkt hp => hpkt pkt (List.mem_append_right _ hp)

end Tracks

/-! ## The payload of one id -/

theorem Collecting.tracks (h : p.Collecting i D) : p.Tracks i (Collects D) (· = D) := ⟨h.entry, h.handed⟩

theorem Tracks.collecting (h : p.Tracks i (Collects D) (· = D)) : p.Collecting i D := ⟨h.entry, h.handed⟩

theorem Collecting.requeried (h : p.Collecting i D) (hq : p.Requeried q) : q.Collecting i D :=
  (h.tracks.requeried (fun _ _ hd hp hm => hm.congr hd hp) hq).collecting

theorem collects_addFragment {m : FragmentedMessage} (hm : m.Collects D) (hlt : D.length < 2 ^ 32) {pos : ℕ}
    {data : Bytes} (hdata : data = [] ∨ ∃ n, 0 < n ∧ pos + n ≤ D.length ∧ data = (D.drop pos).take n) :
    (addFragment m pos data).Collects D := by
  have hopen : Collects D { m with isOpen := true } := hm.congr rfl rfl
  unfold addFragment
  split_ifs with hnil
  · exact hopen
  · obtain ⟨n, hn, hle, rfl⟩ := hdata.resolve_left hnil
    exact hopen.addData hn hle hlt

theorem suits_of_tells (hlt : D.length < 2 ^ 32) {c : Content} (hc : c.Tells D) :
    c.Suits (Collects D) (· = D) := by
  cases c with
  | fragment a fullSize pos mx data =>
      obtain ⟨rfl, hne, hdata⟩ := hc
      exact fun _ => ⟨fun id cmd size => collects_new id cmd size hne,
        fun m hm => collects_addFragment hm hlt hdata⟩
  | answer a data => exact hc
  | message data => exact hc
  | _ => exact trivial

theorem Collecting.grownEntry (h : p.Collecting i D) (hlt : D.length < 2 ^ 32) {cmd : UInt8}
    {a : Option UInt8} {fullSize pos mx : ℕ} {data : Bytes}
    (hc : (Content.fragment a fullSize pos mx data).Tells D) :
    (p.grownEntry i cmd fullSize pos mx data).Collects D := by
  obtain ⟨rfl, hne, hdata⟩ := hc
  refine collects_addFragment ?_ hlt hdata
  unfold fragmentEntry
  cases hm : p.fragmentedMessages i with
  | none => exact collects_new _ _ _ hne
  | some m => exact h.entry m hm

theorem Collecting.afterTest (h : p.Collecting i D) (pkt : Packet) (env : Env) :
    (p.afterTest pkt env).Collecting i D := (h.tracks.afterTest pkt env).collecting

/-- **Every action keeps the receiver in order.** -/
theorem Collecting.step (h : p.Collecting i D) (hlt : D.length < 2 ^ 32) {a : Action}
    (htrue : ∀ pkt ∈ arrivals [a], pkt.Truthful qt i D) : (p.step qt a).1.Collecting i D :=
  (h.tracks.step (fun _ _ hd hp hm => hm.congr hd hp) (fun _ hm he => hm.eq he)
    fun pkt hpkt hid c hc => suits_of_tells hlt (htrue pkt hpkt hid c hc)).collecting

/-- **Every run keeps the receiver in order.** -/
theorem Collecting.run (h : p.Collecting i D) (hlt : D.length < 2 ^ 32) {acts : List Action}
    (htrue : ∀ pkt ∈ arrivals acts, pkt.Truthful qt i D) : (p.run qt acts).Collecting i D :=
  (h.tracks.run (fun _ _ hd hp hm => hm.congr hd hp) (fun _ hm he => hm.eq he)
    fun pkt hpkt hid c hc => suits_of_tells hlt (htrue pkt hpkt hid c hc)).collecting

theorem collecting_fresh (i : UInt8) (D : Bytes) : Protocol.fresh.Collecting i D :=
  ⟨fun _ hm => (nomatch hm), fun _ hd => (nomatch hd)⟩

end Protocol

theorem truthful_of_arrived (qt : Qt) (s : Side) (moves : List Move) {i : UInt8} {D : Bytes}
    (hids : (assignedIds ((System.fresh.run qt moves).node s.other).log).length ≤ 256)
    (hD : .assigned i D ∈ ((System.fresh.run qt moves).node s.other).log) (hlt : D.length < 2 ^ 32) :
    ∀ pkt ∈ System.arrivedAt qt s moves, pkt.Truthful qt i D := by
  rintro pkt hpkt rfl c hc
  rw [System.node_run_fresh] at hids hD
  have ho := orderly_run qt (System.fresh.actions qt s.other moves)
  have hnd : (assignedIds (Protocol.fresh.run qt (System.fresh.actions qt s.other moves)).log).Nodup := by
    have heq := ho.assigned_eq
    simp only [Protocol.books] at heq
    rw [heq]
    exact nodup_ids hids
  obtain ⟨D', hD', htells⟩ := (genuine_sent qt _ pkt (System.arrived_subset_sent qt s moves hpkt)).tells hc
  rw [assigned_unique hnd hD hD'] at hlt ⊢
  exact htells hlt

/-- **Payload integrity.** In every run of two endpoints, whatever packets are lost, delayed, reordered
or duplicated: if one end gave out id `i` for payload `D`, and no id twice, then whatever the other
end hands over under that id is exactly `D`. -/
theorem integrity (qt : Qt) (s : Side) (moves : List Move) (i : UInt8) (D : Bytes)
    (hids : (assignedIds ((System.fresh.run qt moves).node s.other).log).length ≤ 256)
    (hD : .assigned i D ∈ ((System.fresh.run qt moves).node s.other).log) (hlt : D.length < 2 ^ 31) :
    ∀ data, (i, data) ∈ handovers ((System.fresh.run qt moves).node s).log → data = D := by
  have hlt' : D.length < 2 ^ 32 := by omega
  rw [System.node_run_fresh qt s]
  exact ((Protocol.collecting_fresh i D).run hlt' (truthful_of_arrived qt s moves hids hD hlt')).handed

/-- A message of 70 bytes goes over in two fragments, the first of which arrives twice. -/
def fragmentedRun : List Move :=
  [.own .left (.send 20 none [.write ((List.range 70).map UInt8.ofNat), .setFragmentSize 32]),
    .own .left (.write 0 0 0), .deliver .right 0 false Env.quiet,
    .own .right (.write 0 0 0), .deliver .left 0 false Env.quiet,
    .own .left (.write 0 0 0), .deliver .right 0 true Env.quiet, .deliver .right 0 false Env.quiet,
    .own .right (.write 0 0 0), .deliver .left 0 false Env.quiet,
    .own .left (.write 0 0 0), .deliver .right 0 false Env.quiet]

theorem integrity_fragmentedRun :
    let D := (List.range 70).map UInt8.ofNat
    let y := System.fresh.run Qt.storing fragmentedRun
    (0, D) ∈ handovers (y.node .right).log ∧ ∀ data, (0, data) ∈ handovers (y.node .right).log → data = D :=
  ⟨by decide +kernel, integrity Qt.storing .right fragmentedRun 0 _ (by decide +kernel) (by decide +kernel)
    (by decide)⟩

end HelpzNet
