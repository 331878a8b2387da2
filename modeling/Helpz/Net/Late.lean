import Helpz.Net.Integrity
import Helpz.Net.Arrivals
import Helpz.Lib.Run

/-!
# At most once: messages in fragments

After a message was handed over, packets of it may still arrive. The acceptance test lets those
without the REPEATED flag through; a fragment then starts a new transfer, and the transfer under way
when the sender answers a query with the whole message stays. Either may make the message be handed
over again (`handed_over_twice`).

The message is handed over at most once if the packets of it that are accepted afterwards do not
together hold its payload, and if no unfragmented packet of it is accepted during a transfer
(`atMostOnce_fragmented`).

* `Covered`: packets that together hold a whole payload;
* `late`, `lateArrivals`: the packets of a message that are accepted after it was handed over;
* `Clean`: the condition on unfragmented packets;
* `Settled`: the invariant. The transfer that is under way after the message was handed over misses
  every byte that no late packet holds.
-/

namespace HelpzNet

open HelpzLib FragmentedMessage

/-- The packet holds the byte at `k` of the payload of its message. -/
def Packet.covers (qt : Qt) (k : ℕ) (pkt : Packet) : Bool :=
  match pkt.content qt with
  | some (.fragment _ _ pos _ data) => decide (pos ≤ k) && decide (k < pos + data.length)
  | some (.answer _ data) => decide (k < data.length)
  | some (.message data) => decide (k < data.length)
  | _ => false

/-- The packets hold every byte of a payload of size `n`. -/
def Covered (qt : Qt) (n : ℕ) (l : List Packet) : Prop := ∀ k < n, ∃ pkt ∈ l, pkt.covers qt k = true

instance (qt : Qt) (n : ℕ) (l : List Packet) : Decidable (Covered qt n l) :=
  inferInstanceAs (Decidable (∀ k < n, ∃ pkt ∈ l, pkt.covers qt k = true))

theorem Covered.append_left {qt : Qt} {n : ℕ} {l : List Packet} (h : Covered qt n l) (l' : List Packet) :
    Covered qt n (l ++ l') := fun k hk => by
  obtain ⟨pkt, hp, hc⟩ := h k hk
  exact ⟨pkt, List.mem_append_left _ hp, hc⟩

theorem Packet.Truthful.covers {qt : Qt} {m : UInt8} {D : Bytes} {pkt : Packet} (h : pkt.Truthful qt m D)
    (hid : pkt.id = m) {data : Bytes}
    (hc : pkt.content qt = some (.message data) ∨ ∃ a, pkt.content qt = some (.answer a data)) {k : ℕ}
    (hk : k < D.length) : pkt.covers qt k = true := by
  rcases hc with hc | ⟨a, hc⟩
  · obtain rfl : data = D := h hid _ hc
    simpa [Packet.covers, hc] using hk
  · obtain rfl : data = D := h hid _ hc
    simpa [Packet.covers, hc] using hk

namespace Protocol

/-- The packet of message `m` that is accepted after the message was handed over. -/
def late (m : UInt8) (p : Protocol) : Action → List Packet
  | .receive pkt env => if pkt.id = m ∧ m ∈ handedIds p.log ∧ p.accepts pkt env then [pkt] else []
  | _ => []

/-- All such packets in a run. -/
def lateArrivals (qt : Qt) (m : UInt8) : Protocol → List Action → List Packet
  | _, [] => []
  | p, a :: acts => p.late m a ++ lateArrivals qt m (p.step qt a).1 acts

/-- No handler of message `m` throws, and an unfragmented packet of it is accepted only when there is
no transfer of it. -/
def Clean (m : UInt8) (p : Protocol) : Action → Prop
  | .receive pkt env => pkt.id = m → p.accepts pkt env = true → env.throws = false ∧
      (hasFlag pkt.flags Flag.fragment = false → p.fragmentedMessages m = none)
  | _ => True

instance (m : UInt8) (p : Protocol) : (a : Action) → Decidable (p.Clean m a)
  | .receive pkt env => inferInstanceAs (Decidable (pkt.id = m → p.accepts pkt env = true →
      env.throws = false ∧ (_ → _)))
  | .send _ _ _ => inferInstanceAs (Decidable True)
  | .write _ _ _ => inferInstanceAs (Decidable True)
  | .timer _ _ _ => inferInstanceAs (Decidable True)

/-- The transfer of message `m`, if there is one, misses every byte that no packet in `l` holds. -/
def Misses (qt : Qt) (m : UInt8) (n : ℕ) (l : List Packet) (p : Protocol) : Prop :=
  ∀ e, p.fragmentedMessages m = some e → ∀ k < n, (∀ pkt ∈ l, pkt.covers qt k = false) → k ∈ offsets e.partVect

/-- **The invariant of the receiver**: message `m`, of size `n`, was handed over at most once, and the
packets `l` of it were accepted since. -/
structure Settled (qt : Qt) (m : UInt8) (n : ℕ) (l : List Packet) (p : Protocol) : Prop where
  count : (handedIds p.log).count m ≤ 1
  misses : m ∈ handedIds p.log → p.Misses qt m n l

variable {qt : Qt} {m : UInt8} {n : ℕ} {l : List Packet} {D : Bytes} {p q : Protocol} {pkt : Packet} {env : Env}

theorem Misses.mono (h : p.Misses qt m n l) (l' : List Packet) : p.Misses qt m n (l ++ l') :=
  fun e he k hk hc => h e he k hk fun pkt hp => hc pkt (List.mem_append_left _ hp)

theorem Settled.mono (h : Settled qt m n l p) (l' : List Packet) : Settled qt m n (l ++ l') p :=
  ⟨h.count, fun hm => (h.misses hm).mono l'⟩

theorem Settled.keep (h : Settled qt m n l p) (hids : handedIds q.log = handedIds p.log)
    (he : ∀ e, q.fragmentedMessages m = some e →
      ∃ e', p.fragmentedMessages m = some e' ∧ e.partVect = e'.partVect) : Settled qt m n l q := by
  refine ⟨hids ▸ h.count, fun hm e hq k hk hc => ?_⟩
  obtain ⟨e', he', hp⟩ := he e hq
  rw [hp]
  exact h.misses (hids ▸ hm) e' he' k hk hc

theorem Settled.erase (h : Settled qt m n l p) (id : UInt8) : Settled qt m n l (p.eraseFragment id) := by
  refine h.keep rfl fun e hq => ?_
  change Function.update p.fragmentedMessages id none m = some e at hq
  rw [Function.update_apply] at hq
  split_ifs at hq
  exact ⟨e, hq, rfl⟩

theorem Settled.other (h : Settled qt m n l p) {x : UInt8} (hx : x ≠ m)
    (hids : handedIds q.log = handedIds p.log ++ [x])
    (he : q.fragmentedMessages m = p.fragmentedMessages m) : Settled qt m n l q := by
  refine ⟨?_, fun hm e hq => h.misses ?_ e (he ▸ hq)⟩
  · rw [hids, List.count_append, List.count_singleton, if_neg (by simpa using hx)]
    exact h.count
  · rw [hids, List.mem_append, List.mem_singleton] at hm
    exact hm.resolve_right (Ne.symm hx)

theorem Settled.first (hnew : m ∉ handedIds p.log) (hids : handedIds q.log = handedIds p.log ++ [m])
    (he : q.fragmentedMessages m = none) : Settled qt m n l q := by
  refine ⟨?_, fun _ e hq => by rw [he] at hq; cases hq⟩
  rw [hids, List.count_append, List.count_eq_zero_of_not_mem hnew, List.count_singleton_self]

theorem Misses.grownEntry (h : p.Misses qt m D.length l) (hcol : p.Collecting m D) (hlt : D.length < 2 ^ 32)
    {cmd : UInt8} {a : Option UInt8} {fullSize pos mx : ℕ} {data : Bytes}
    (hc : pkt.content qt = some (.fragment a fullSize pos mx data))
    (htells : (Content.fragment a fullSize pos mx data).Tells D) {k : ℕ} (hk : k < D.length)
    (hcov : ∀ x ∈ l ++ [pkt], x.covers qt k = false) :
    k ∈ offsets (p.grownEntry m cmd fullSize pos mx data).partVect := by
  obtain ⟨rfl, hne, hdata⟩ := htells
  have hentry : (p.fragmentEntry m cmd mx D.length).Collects D ∧
      k ∈ offsets (p.fragmentEntry m cmd mx D.length).partVect := by
    unfold fragmentEntry
    cases he : p.fragmentedMessages m with
    | none =>
        refine ⟨collects_new _ _ _ hne, ?_⟩
        change k ∈ offsets [(0, D.length)]
        rw [mem_offsets_cons]
        exact Or.inl ⟨Nat.zero_le k, hk⟩
    | some e =>
        exact ⟨hcol.entry e he, h e he k hk fun x hx => hcov x (List.mem_append_left _ hx)⟩
  unfold Protocol.grownEntry addFragment
  split_ifs with hnil
  · exact hentry.2
  · obtain ⟨len, hlen, hle, rfl⟩ := hdata.resolve_left hnil
    have hsize : ((D.drop pos).take len).length = len := by
      rw [List.length_take, List.length_drop]
      omega
    have hout := hcov pkt (List.mem_append_right _ (List.mem_singleton.mpr rfl))
    simp only [Packet.covers, hc, hsize, Bool.and_eq_false_iff, decide_eq_false_iff_not] at hout
    simp only [FragmentedMessage.addData, hsize, Nat.mod_eq_of_lt (show pos + len < 2 ^ 32 by omega)]
    exact (mem_offsets_removeFromPartVect hentry.1.parts (by omega) k).mpr ⟨hentry.2, by omega⟩

theorem isPartsEmpty_eq_false {e : FragmentedMessage} {k : ℕ} (h : k ∈ offsets e.partVect) :
    e.isPartsEmpty = false := by
  unfold isPartsEmpty
  cases hv : e.partVect with
  | nil =>
      rw [hv, offsets_nil] at h
      exact absurd h (Set.notMem_empty k)
  | cons x xs => rfl

theorem Settled.treated_other (h : Settled qt m n l p) (hid : pkt.id ≠ m) (ht : Treated qt env pkt p q) :
    Settled qt m n l q := by
  have hkeep : ∀ {o : Option FragmentedMessage} {x : UInt8},
      q.fragmentedMessages = Function.update p.fragmentedMessages x o → x ≠ m →
      q.fragmentedMessages m = p.fragmentedMessages m := fun he hx => by
    rw [he, Function.update_of_ne (Ne.symm hx)]
  have hsame : q.fragmentedMessages m = p.fragmentedMessages m → ∀ e, q.fragmentedMessages m = some e →
      ∃ e', p.fragmentedMessages m = some e' ∧ e.partVect = e'.partVect := fun he e hq => ⟨e, he ▸ hq, rfl⟩
  cases ht with
  | nothing hs => exact h.keep (handedIds_eq hs.handed) (hsame (by rw [hs.frag]))
  | erased id he => exact he ▸ h.erase id
  | handed data _ hh =>
      exact h.other hid (handedIds_append hh.handed) (by rw [hh.frag])
  | fragment a full pos mx data _ hstep =>
      cases hstep with
      | dropped _ _ hf hh => exact h.keep (handedIds_eq hh) (hsame (hkeep hf hid))
      | complete _ _ _ _ hf hh =>
          exact h.other hid (handedIds_append hh) (hkeep hf hid)
      | goesOn _ _ _ _ _ _ _ hf hh => exact h.keep (handedIds_eq hh) (hsame (hkeep hf hid))

/-- **A packet of the message that is accepted** hands it over only for the first time, if the late
packets do not hold the payload. -/
theorem Settled.treated_self (h : Settled qt m D.length l p) (hid : pkt.id = m) (hcol : p.Collecting m D)
    (hlt : D.length < 2 ^ 32) (htrue : pkt.Truthful qt m D)
    (hclean : env.throws = false ∧
      (hasFlag pkt.flags Flag.fragment = false → p.fragmentedMessages m = none))
    (hlate : ¬ Covered qt D.length (l ++ if m ∈ handedIds p.log then [pkt] else []))
    (ht : Treated qt env pkt p q) :
    Settled qt m D.length (l ++ if m ∈ handedIds p.log then [pkt] else []) q := by
  subst hid
  cases ht with
  | nothing hs =>
      exact (h.mono _).keep (handedIds_eq hs.handed) fun e hq => ⟨e, hs.frag ▸ hq, rfl⟩
  | erased id he => exact he ▸ (h.mono _).erase id
  | handed data hc hh =>
      have hplain : hasFlag pkt.flags Flag.fragment = false := by
        rcases hc with hc | ⟨a, hc⟩
        · exact fragment_false_of_content hc (Or.inr ⟨data, rfl⟩)
        · exact fragment_false_of_content hc (Or.inl ⟨a, data, rfl⟩)
      have hnew : pkt.id ∉ handedIds p.log := by
        intro hm
        rw [if_pos hm] at hlate
        refine hlate fun k hk => ⟨pkt, List.mem_append_right _ (List.mem_singleton.mpr rfl), ?_⟩
        exact Packet.Truthful.covers htrue rfl hc hk
      exact .first hnew (handedIds_append hh.handed) (by rw [hh.frag, hclean.2 hplain])
  | fragment a full pos mx data hc hstep =>
      -- after the message was handed over, some byte is held by no late packet
      have hgrown : pkt.id ∈ handedIds p.log →
          ∀ k < D.length, (∀ x ∈ l ++ [pkt], x.covers qt k = false) →
            k ∈ offsets (p.grownEntry pkt.id pkt.cmd full pos mx data).partVect := fun hm k hk hcov =>
        (h.misses hm).grownEntry hcol hlt hc (htrue rfl _ hc) hk hcov
      cases hstep with
      | dropped _ _ hf hh =>
          refine (h.mono _).keep (handedIds_eq hh) fun e hq => ?_
          rw [hf, Function.update_self] at hq
          cases hq
      | complete _ hempty _ _ hf hh =>
          have hnew : pkt.id ∉ handedIds p.log := by
            intro hm
            rw [if_pos hm] at hlate
            simp only [Covered, not_forall, not_exists, not_and, Bool.not_eq_true] at hlate
            obtain ⟨k, hk, hcov⟩ := hlate
            rw [isPartsEmpty_eq_false (hgrown hm k hk hcov)] at hempty
            cases hempty
          refine .first hnew (handedIds_append hh) ?_
          rw [hf, Function.update_self, hclean.1]
          rfl
      | goesOn m' _ _ _ hp _ _ hf hh =>
          have hids : handedIds q.log = handedIds p.log := handedIds_eq hh
          refine ⟨hids ▸ h.count, fun hm e hq k hk hcov => ?_⟩
          rw [hids] at hm
          rw [if_pos hm] at hcov
          rw [hf, Function.update_self] at hq
          rw [← Option.some.inj hq, hp]
          exact hgrown hm k hk hcov

theorem Settled.requeried (h : Settled qt m n l p) (hq : p.Requeried q) : Settled qt m n l q := by
  refine h.keep (handedIds_eq hq.handed) fun e he => ?_
  rcases hq.frag m with h1 | ⟨e₁, e₂, h1, h2, hs⟩
  · exact ⟨e, h1 ▸ he, rfl⟩
  · obtain rfl : e = e₂ := Option.some.inj (he.symm.trans h2)
    exact ⟨e₁, h1, hs.partVect⟩

theorem Settled.afterTest (h : Settled qt m n l p) (pkt : Packet) (env : Env) :
    Settled qt m n l (p.afterTest pkt env) := by
  refine h.keep (p.handedIds_afterTest pkt env) fun e hq => ?_
  rcases p.fragmentedMessages_afterTest pkt env m with hf | hf
  · exact ⟨e, hf ▸ hq, rfl⟩
  · rw [hf] at hq
    cases hq

/-- **Every action keeps the invariant**, under the two conditions. -/
theorem Settled.step (h : Settled qt m D.length l p) (hcol : p.Collecting m D) (hlt : D.length < 2 ^ 32)
    {a : Action} (htrue : ∀ pkt ∈ arrivals [a], pkt.Truthful qt m D) (hclean : p.Clean m a)
    (hlate : ¬ Covered qt D.length (l ++ p.late m a)) :
    Settled qt m D.length (l ++ p.late m a) (p.step qt a).1 := by
  cases a with
  | receive pkt env =>
      rw [step_receive]
      simp only [late] at hlate ⊢
      by_cases hok : p.accepts pkt env = true
      · rw [if_pos hok]
        have ht := treated_processAccepted qt (p.afterTest pkt env) env pkt
        by_cases hid : pkt.id = m
        · simp only [hid, hok, true_and, and_true] at hlate ⊢
          rw [← handedIds_afterTest p pkt env] at hlate ⊢
          obtain ⟨hthrow, hplain⟩ := hclean hid hok
          refine (h.afterTest pkt env).treated_self hid (hcol.afterTest pkt env) hlt
            (htrue pkt (List.mem_singleton.mpr rfl)) ⟨hthrow, fun hf => ?_⟩ hlate ht
          exact (p.fragmentedMessages_afterTest pkt env m).elim (fun he => he.trans (hplain hf)) id
        · simp only [hid, false_and, if_false, List.append_nil]
          exact (h.afterTest pkt env).treated_other hid ht
      · rw [if_neg hok, if_neg fun hl => hok hl.2.2, List.append_nil]
        exact h.afterTest pkt env
  | _ =>
      change Settled qt m D.length (l ++ []) _
      rw [List.append_nil]
      exact h.requeried (requeried_step qt p fun _ _ => nofun)

/-- **The invariant holds in every run** under the two conditions. -/
theorem Settled.run (h : Settled qt m D.length l p) (hcol : p.Collecting m D) (hlt : D.length < 2 ^ 32)
    {acts : List Action} (htrue : ∀ pkt ∈ arrivals acts, pkt.Truthful qt m D)
    (hclean : Along (fun p a => some (p.step qt a).1) (Clean m) p acts)
    (hlate : ¬ Covered qt D.length (l ++ p.lateArrivals qt m acts)) :
    Settled qt m D.length (l ++ p.lateArrivals qt m acts) (p.run qt acts) := by
  induction acts generalizing l p with
  | nil =>
      change Settled qt m D.length (l ++ []) p
      rwa [List.append_nil]
  | cons a acts ih =>
      rw [arrivals_cons] at htrue
      rw [lateArrivals, ← List.append_assoc] at hlate ⊢
      have htrue' : ∀ pkt ∈ arrivals [a], pkt.Truthful qt m D := fun pkt hp =>
        htrue pkt (List.mem_append_left _ hp)
      exact ih (h.step hcol hlt htrue' hclean.1 fun hc => hlate (hc.append_left _)) (hcol.step hlt htrue')
        (fun pkt hp => htrue pkt (List.mem_append_right _ hp)) (hclean.2 _ rfl) hlate

theorem settled_fresh (qt : Qt) (m : UInt8) (n : ℕ) : Settled qt m n [] Protocol.fresh :=
  ⟨Nat.zero_le 1, fun hm => (nomatch hm)⟩

end Protocol

/-- **At most once.** One end gave out id `m` for payload `D`, and no id twice. If no handler of the
message throws, no unfragmented packet of it is accepted during a transfer of it, and the packets
accepted after it was handed over do not together hold its payload, then the other end hands it over
at most once. -/
theorem atMostOnce_fragmented (qt : Qt) (s : Side) (moves : List Move) (m : UInt8) (D : Bytes)
    (hids : (assignedIds ((System.fresh.run qt moves).node s.other).log).length ≤ 256)
    (hD : .assigned m D ∈ ((System.fresh.run qt moves).node s.other).log) (hlt : D.length < 2 ^ 31)
    (hclean : Along (fun p a => some (p.step qt a).1) (Protocol.Clean m) Protocol.fresh
      (System.fresh.actions qt s moves))
    (hlate : ¬ Covered qt D.length (Protocol.fresh.lateArrivals qt m (System.fresh.actions qt s moves))) :
    (handedIds ((System.fresh.run qt moves).node s).log).count m ≤ 1 := by
  have hlt' : D.length < 2 ^ 32 := by omega
  rw [System.node_run_fresh qt s]
  exact ((Protocol.settled_fresh qt m D.length).run (Protocol.collecting_fresh m D) hlt'
    (truthful_of_arrived qt s moves hids hD hlt') hclean hlate).count

/-- A message of 70 bytes goes over in two fragments; the first arrives once more after the message was
handed over. -/
def lateFragmentRun : List Move :=
  [.own .left (.send 20 none [.write ((List.range 70).map UInt8.ofNat), .setFragmentSize 32]),
    .own .left (.write 0 0 0), .deliver .right 0 false Env.quiet,
    .own .right (.write 0 0 0), .deliver .left 0 false Env.quiet,
    .own .left (.write 0 0 0), .deliver .right 0 true Env.quiet,
    .own .right (.write 0 0 0), .deliver .left 0 false Env.quiet,
    .own .left (.write 0 0 0), .deliver .right 1 false Env.quiet, .deliver .right 0 false Env.quiet]

theorem atMostOnce_lateFragmentRun :
    let y := System.fresh.run Qt.storing lateFragmentRun
    (Protocol.fresh.lateArrivals Qt.storing 0 (System.fresh.actions Qt.storing .right lateFragmentRun)).length = 1 ∧
      0 ∈ handedIds (y.node .right).log ∧ (handedIds (y.node .right).log).count 0 ≤ 1 :=
  ⟨by decide +kernel, by decide +kernel, atMostOnce_fragmented Qt.storing .right lateFragmentRun 0
    ((List.range 70).map UInt8.ofNat) (by decide +kernel) (by decide +kernel) (by decide)
    (by decide +kernel) (by decide +kernel)⟩

/-- A message of 33 bytes is announced with a fragment size of 32. The receiver asks for a fifth more, so
that the sender answers with the whole message; the transfer stays, and is asked for again. -/
def wholeReplyRun : List Move :=
  let clock (t : ℤ) : Env := ⟨milliseconds t, milliseconds t, false, false⟩
  [.own .left (.send 20 none [.write ((List.range 33).map UInt8.ofNat), .setFragmentSize 32]),
    .own .left (.write 0 0 0), .deliver .right 0 false (clock 10),
    .own .right (.write 0 (milliseconds 10) (milliseconds 10)), .deliver .left 0 false (clock 20),
    .own .left (.write 0 (milliseconds 20) (milliseconds 20)), .deliver .right 0 false (clock 30),
    .own .right (.timer .fragment (milliseconds 1600) (milliseconds 1600)),
    .own .right (.write 0 (milliseconds 1600) (milliseconds 1600)), .deliver .left 0 false (clock 1610),
    .own .left (.write 0 (milliseconds 1620) (milliseconds 1620)), .deliver .right 0 false (clock 1630)]

/-- A fragmented message is handed over twice, with no packet delivered more than once. -/
theorem handed_over_twice :
    ¬ ∀ (qt : Qt) (s : Side) (moves : List Move) (m : UInt8) (x : MessageItem),
      (assignedIds ((System.fresh.run qt moves).node s.other).log).length < 256 → (∀ mv ∈ moves, mv.Takes) →
      .created x ∈ ((System.fresh.run qt moves).node s.other).log → x.payload.length > x.fragmentSize →
      .assigned m x.payload ∈ ((System.fresh.run qt moves).node s.other).log →
      (handedIds ((System.fresh.run qt moves).node s).log).count m ≤ 1 := by
  intro h
  have honce := h Qt.storing .right wholeReplyRun 0
    (buildItem 0 20 none [.write ((List.range 33).map UInt8.ofNat), .setFragmentSize 32])
    (by decide +kernel) (by decide +kernel) (by decide +kernel) (by decide +kernel) (by decide +kernel)
  exact absurd honce (by decide +kernel)

end HelpzNet
