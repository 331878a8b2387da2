import Helpz.Net.Cyclic

/-!
# Packets in the order of sending, across wraps

The packets that arrive were sent in this order, and before each at most 100 are missing. Packets are
numbered from 0 by the sender; an id is the number modulo 256.

* `InOrderFrom e ns`: the numbers `ns` arrive in order when `e` is the number expected first;
* `Received`: what happens to a packet that arrives so;
* `inOrder_received`: it happens to every packet of a run, however often the ids wrap.
-/

namespace HelpzNet

open HelpzLib

/-- The numbers increase, and at most 100 are left out before each; `e` is expected first. -/
def InOrderFrom : ℕ → List ℕ → Prop
  | _, [] => True
  | e, n :: ns => e ≤ n ∧ n ≤ e + 100 ∧ InOrderFrom (n + 1) ns

/-- The number expected after `ns`. -/
def expectedFrom : ℕ → List ℕ → ℕ
  | e, [] => e
  | _, n :: ns => expectedFrom (n + 1) ns

theorem inOrderFrom_append {e : ℕ} {l l' : List ℕ} :
    InOrderFrom e (l ++ l') ↔ InOrderFrom e l ∧ InOrderFrom (expectedFrom e l) l' := by
  induction l generalizing e with
  | nil => simp [InOrderFrom, expectedFrom]
  | cons n l ih => simp only [List.cons_append, InOrderFrom, expectedFrom, ih, and_assoc]

namespace Protocol

variable {qt : Qt} {p : Protocol} {pkt : Packet}

theorem toNat_ofNat_sub {e n : ℕ} (h1 : e ≤ n) (h2 : n ≤ e + 100) :
    (UInt8.ofNat n - UInt8.ofNat e).toNat = n - e := by
  rw [toNat_sub, UInt8.toNat_ofNat', UInt8.toNat_ofNat']
  omega

theorem not_maybeLost {e n : ℕ} (h1 : e ≤ n) (h2 : n ≤ e + 100) (hnext : p.nextRxMsgId = UInt8.ofNat e)
    (hid : pkt.id = UInt8.ofNat n) (ho : pkt.Original) : ¬ p.MaybeLost pkt.id pkt.flags := by
  have hd := toNat_ofNat_sub h1 h2
  rw [← hid, ← hnext, toNat_sub] at hd
  have hm := pkt.id.toNat_lt
  rintro (hr | hb)
  · rw [ho] at hr
    cases hr
  · omega

theorem gap_iff {e n : ℕ} (h1 : e ≤ n) (h2 : n ≤ e + 100) (hnext : p.nextRxMsgId = UInt8.ofNat e)
    (hid : pkt.id = UInt8.ofNat n) : p.Gap pkt.id ↔ e ≠ n := by
  have hd := toNat_ofNat_sub h1 h2
  rw [← hid, ← hnext, toNat_sub] at hd
  have hm := pkt.id.toNat_lt
  have hn := p.nextRxMsgId.toNat_lt
  unfold Gap
  omega

theorem skipped_eq {e n : ℕ} (h1 : e ≤ n) (h2 : n ≤ e + 100) (hnext : p.nextRxMsgId = UInt8.ofNat e)
    (hid : pkt.id = UInt8.ofNat n) : p.skipped pkt.id = n - e := by
  have hd := toNat_ofNat_sub h1 h2
  rw [← hid, ← hnext] at hd
  have hm := pkt.id.toNat_lt
  rw [skipped, if_neg, hd]
  intro hfar
  rw [toNat_sub] at hd
  omega

theorem handovers_of_not_handles (env : Env) (hf : pkt.Unfragmented qt) (h : p.handles qt pkt = false) :
    handovers (p.processAccepted qt env pkt).1.log = handovers p.log := by
  unfold processAccepted
  split_ifs with hbody
  · rfl
  unfold handles at h
  cases hc : pkt.content qt with
  | none => rfl
  | some c =>
      rw [hc] at h
      cases c with
      | removeFragment id => rfl
      | fragmentQuery id pos size => exact (sameRx_processFragmentQuery p id pos size).handed
      | fragment a full pos mx data => exact absurd hc (hf a full pos mx data)
      | answer a data =>
          have hpop : p.SameRx (p.popWaitingAnswer a pkt.cmd).2 := sameRx_pop p _
          simp only [dispatch, processAnswer]
          cases hm : (p.popWaitingAnswer a pkt.cmd).1 with
          | none => exact hpop.handed
          | some m =>
              have hfunc : m.answerFunc = false := by simpa [hm] using h
              simp only [hfunc, Bool.false_eq_true, if_false]
              exact (hpop.trans (sameRx_destroy _ m _)).handed
      | message data =>
          have hping : pkt.cmd = Cmd.ping := by simpa using h
          simp only [dispatch, processPlain, if_pos hping]
          exact (sameRx_send p _ _ _ _).handed

/-- What happens to packet number `n` when `e` is expected: it is accepted and processed, the next one is
expected, the loss of those left out is reported and noted, and its data is handed over once if there is
a handler for it. -/
structure Received (qt : Qt) (p : Protocol) (pkt : Packet) (env : Env) (e n : ℕ) : Prop where
  id : pkt.id = UInt8.ofNat n
  expected : p.nextRxMsgId = UInt8.ofNat e
  accepted : p.accepts pkt env = true
  processed : (p.step qt (.receive pkt env)).1 = ((p.afterTest pkt env).processAccepted qt env pkt).1
  next : (p.step qt (.receive pkt env)).1.nextRxMsgId = pkt.id + 1
  reported : lostCalls (p.step qt (.receive pkt env)).1.log =
    lostCalls p.log ++ if e = n then [] else [(pkt.id, UInt8.ofNat e)]
  noted : ∀ k, e ≤ k → k < n → ((p.step qt (.receive pkt env)).1.lostMsgList (UInt8.ofNat k)).isSome = true
  handed : ∀ data, (pkt.content qt = some (.message data) ∨ ∃ a, pkt.content qt = some (.answer a data)) →
    (p.afterTest pkt env).handles qt pkt = true →
    handovers (p.step qt (.receive pkt env)).1.log = handovers p.log ++ [(pkt.id, data)]
  unhandled : (p.afterTest pkt env).handles qt pkt = false →
    handovers (p.step qt (.receive pkt env)).1.log = handovers p.log

theorem afterTest_inOrder {e n : ℕ} (h1 : e ≤ n) (h2 : n ≤ e + 100) (hnext : p.nextRxMsgId = UInt8.ofNat e)
    (hid : pkt.id = UInt8.ofNat n) (ho : pkt.Original) (env : Env) :
    p.accepts pkt env = true ∧ (p.afterTest pkt env).nextRxMsgId = pkt.id + 1 ∧
      lostCalls (p.afterTest pkt env).log =
        lostCalls p.log ++ (if e = n then [] else [(pkt.id, UInt8.ofNat e)]) ∧
      ∀ k, e ≤ k → k < n → ((p.afterTest pkt env).lostMsgList (UInt8.ofNat k)).isSome = true := by
  have hnot := not_maybeLost h1 h2 hnext hid ho
  have hgap : p.Gap pkt.id ↔ e ≠ n := gap_iff h1 h2 hnext hid
  by_cases he : e = n
  · -- the expected packet
    have hg := mt hgap.mp (not_not.mpr he)
    obtain ⟨hacc, _, hnx, hcalls⟩ := next_afterTest env hnot hg
    have hle : p.nextRxMsgId.toNat ≤ pkt.id.toNat := by rw [hnext, hid, he]
    refine ⟨hacc, by rw [hnx, if_pos hle], by rw [hcalls, if_pos he, List.append_nil], fun k hk hkn => ?_⟩
    omega
  · have hg := hgap.mpr he
    obtain ⟨hacc, hnx, hlost, hcalls⟩ := gap_afterTest env hnot hg
    refine ⟨hacc, hnx, by rw [hcalls, if_neg he, hnext], fun k hk hkn => ?_⟩
    have hdist : 1 ≤ (pkt.id - UInt8.ofNat k).toNat ∧ (pkt.id - UInt8.ofNat k).toNat ≤ p.skipped pkt.id := by
      rw [skipped_eq h1 h2 hnext hid, hid, toNat_ofNat_sub (le_of_lt hkn) (by omega)]
      omega
    rw [hlost]
    split_ifs with hs
    · exact hs.resolve_right (not_not.mpr hdist)
    · rfl

theorem received_of_inOrder {e n : ℕ} (h1 : e ≤ n) (h2 : n ≤ e + 100) (hnext : p.nextRxMsgId = UInt8.ofNat e)
    (hid : pkt.id = UInt8.ofNat n) (ho : pkt.Original) (hidle : ∀ x, p.fragmentedMessages x = none)
    (hf : pkt.Unfragmented qt) (env : Env) : Received qt p pkt env e n := by
  obtain ⟨hacc, hnx, hcalls, hnoted⟩ := afterTest_inOrder h1 h2 hnext hid ho env
  have hsame : (p.afterTest pkt env).SameWindow (p.step qt (.receive pkt env)).1 := sameWindow_receive hidle hf
  have hstep : (p.step qt (.receive pkt env)).1 = ((p.afterTest pkt env).processAccepted qt env pkt).1 := by
    rw [step_receive, if_pos hacc]
  refine ⟨hid, hnext, hacc, hstep, hsame.next.trans hnx, hsame.calls.trans hcalls, ?_, ?_, ?_⟩
  · intro k hk hkn
    rw [hsame.lost]
    exact hnoted k hk hkn
  · intro data hc hh
    obtain ⟨data', hc', hd⟩ := hands_of_handles env hh
    have hdata : data' = data := by
      rcases hc with hc | ⟨a, hc⟩ <;> rcases hc' with hc' | ⟨a', hc'⟩ <;> rw [hc] at hc' <;> cases hc' <;> rfl
    rw [hstep, hd.handed, handovers_afterTest, hdata]
  · intro hh
    rw [hstep, handovers_of_not_handles env hf hh, handovers_afterTest]

/-! ## Runs -/

theorem next_run {e : ℕ} {ns : List ℕ} {acts : List Action} (hnext : p.nextRxMsgId = UInt8.ofNat e)
    (hidle : ∀ x, p.fragmentedMessages x = none)
    (hids : (arrivals acts).map Packet.id = ns.map UInt8.ofNat) (hord : InOrderFrom e ns)
    (hpkts : ∀ pkt ∈ arrivals acts, pkt.Original ∧ pkt.Unfragmented qt) :
    (p.run qt acts).nextRxMsgId = UInt8.ofNat (expectedFrom e ns) := by
  induction acts generalizing p e ns with
  | nil =>
      obtain rfl : ns = [] := by simpa [arrivals] using hids.symm
      exact hnext
  | cons a acts ih =>
      rw [arrivals_cons, List.map_append] at hids
      rw [arrivals_cons] at hpkts
      have hfirst : ∀ pkt ∈ arrivals [a], pkt.Original ∧ pkt.Unfragmented qt := fun pkt hp =>
        hpkts pkt (List.mem_append_left _ hp)
      have hrest : ∀ pkt ∈ arrivals acts, pkt.Original ∧ pkt.Unfragmented qt := fun pkt hp =>
        hpkts pkt (List.mem_append_right _ hp)
      have hidle' := idle_step hidle fun pkt hp => (hfirst pkt hp).2
      by_cases ha : ∃ pkt env, a = .receive pkt env
      · obtain ⟨pkt, env, rfl⟩ := ha
        cases ns with
        | nil => simp [arrivals] at hids
        | cons n ns =>
            obtain ⟨hid, hids⟩ := List.cons.inj hids
            obtain ⟨ho, hf⟩ := hfirst pkt List.mem_cons_self
            have hr := received_of_inOrder hord.1 hord.2.1 hnext hid ho hidle hf env
            refine ih (e := n + 1) ?_ hidle' hids hord.2.2 hrest
            rw [hr.next, hid, UInt8.ofNat_add]
            rfl
      · have hnone : arrivals [a] = [] := by
          cases a with
          | receive pkt env => exact absurd ⟨pkt, env, rfl⟩ ha
          | _ => rfl
        rw [hnone] at hids
        refine ih ?_ hidle' hids hord hrest
        rw [(sameWindow_step hidle fun pkt env h => ha ⟨pkt, env, h⟩).next, hnext]

/-- **Packets in the order of sending, with at most 100 missing before each, are all received**, and what
else happens hands nothing over and reports no loss. -/
theorem inOrder_received (qt : Qt) (acts : List Action) (ns : List ℕ)
    (hids : (arrivals acts).map Packet.id = ns.map UInt8.ofNat) (hord : InOrderFrom 0 ns)
    (hpkts : ∀ pkt ∈ arrivals acts, pkt.Original ∧ pkt.Unfragmented qt) :
    (∀ pre pkt env post, acts = pre ++ .receive pkt env :: post → ∃ before n after,
        ns = before ++ n :: after ∧ before.length = (arrivals pre).length ∧
        Received qt (fresh.run qt pre) pkt env (expectedFrom 0 before) n) ∧
      ∀ pre a post, acts = pre ++ a :: post → (∀ pkt env, a ≠ .receive pkt env) →
        lostCalls (fresh.run qt (pre ++ [a])).log = lostCalls (fresh.run qt pre).log ∧
        handovers (fresh.run qt (pre ++ [a])).log = handovers (fresh.run qt pre).log ∧
        (fresh.run qt (pre ++ [a])).nextRxMsgId = (fresh.run qt pre).nextRxMsgId := by
  have hidle : ∀ pre a post, acts = pre ++ a :: post → ∀ x, (fresh.run qt pre).fragmentedMessages x = none := by
    intro pre a post he
    refine idle_run (fun _ => rfl) fun pkt hp => (hpkts pkt ?_).2
    rw [he, arrivals_append]
    exact List.mem_append_left _ hp
  constructor
  · intro pre pkt env post he
    have hsplit : arrivals acts = arrivals pre ++ pkt :: arrivals post := by
      rw [he, arrivals_append]
      rfl
    rw [hsplit, List.map_append, List.map_cons] at hids
    obtain ⟨before, rest, rfl, hb, hr⟩ := List.append_eq_map_iff.mp hids
    obtain ⟨n, after, rfl, hn, ha⟩ := List.map_eq_cons_iff.mp hr
    obtain ⟨hord₁, hord₂⟩ := inOrderFrom_append.mp hord
    have hlen : before.length = (arrivals pre).length := by
      simpa using congrArg List.length hb
    refine ⟨before, n, after, rfl, hlen, ?_⟩
    rw [hsplit] at hpkts
    obtain ⟨ho, hf⟩ := hpkts pkt (List.mem_append_right _ List.mem_cons_self)
    have hnext := next_run (p := fresh) (e := 0) rfl (fun _ => rfl) hb.symm hord₁
      fun pkt hp => hpkts pkt (List.mem_append_left _ hp)
    exact received_of_inOrder hord₂.1 hord₂.2.1 hnext hn.symm ho (hidle pre _ post he) hf env
  · intro pre a post he ha
    rw [run_append]
    have hw : (fresh.run qt pre).SameWindow ((fresh.run qt pre).step qt a).1 :=
      sameWindow_step (hidle pre a post he) ha
    exact ⟨hw.calls, (sameRx_step qt _ (hidle pre a post he) ha).handed, hw.next⟩

/-- Packets 100, 200 and 300 arrive; before the last the ids have wrapped. -/
def wrapRun : List Action :=
  [.receive ⟨100, 16, 0, [1]⟩ Env.quiet, .receive ⟨200, 16, 0, [2]⟩ Env.quiet,
    .receive ⟨44, 16, 0, [3]⟩ Env.quiet]

theorem inOrder_wrapRun : InOrderFrom 0 [100, 200, 300] ∧ ∃ before n after,
    [100, 200, 300] = before ++ n :: after ∧ before.length = 2 ∧
      Received Qt.storing (fresh.run Qt.storing (wrapRun.take 2)) ⟨44, 16, 0, [3]⟩ Env.quiet
        (expectedFrom 0 before) n := by
  have hord : InOrderFrom 0 [100, 200, 300] := by simp [InOrderFrom]
  refine ⟨hord, (inOrder_received Qt.storing wrapRun [100, 200, 300] (by decide) hord ?_).1
    (wrapRun.take 2) _ _ [] rfl⟩
  intro pkt hp
  have hflags : ∀ pkt ∈ arrivals wrapRun, pkt.flags = 0 := by decide
  refine ⟨?_, Packet.unfragmented_of_flag ?_⟩
  · rw [Packet.Original, hflags pkt hp, hasFlag_zero]
  · rw [hflags pkt hp, hasFlag_zero]

end Protocol

end HelpzNet
