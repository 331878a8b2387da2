import Helpz.Net.Orderly
import Helpz.Net.RoundTrip
import Helpz.Net.Receive
import Mathlib.Data.List.Induction
import Mathlib.Data.List.Perm.Basic

/-!
# The traffic between two endpoints

What happens at one end of a connection is a run of that endpoint alone; the packets that arrive in
it are packets the other end has sent.

* `arrivals`, `sent`: the packets that arrive, and that are sent, in a run of one endpoint;
* `System.actions`: the actions of one end in a run of both; `node_run`;
* `arrived_subset_sent`: the transport invents no packet; `arrived_perm_sent`: if it duplicates none,
  what was sent has arrived or is in flight;
* `write_snd`, `mem_write`: what the writer sends for a posted message;
* `Genuine`: a packet is packed from a message whose id was assigned together with its payload;
  `genuine_sent`;
* `Content.Tells`: what a packet says about the payload of its message is true; `Genuine.tells`.
-/

namespace HelpzNet

open HelpzLib

/-- The packets that arrive. -/
def arrivals (acts : List Action) : List Packet :=
  acts.filterMap fun
    | .receive pkt _ => some pkt
    | _ => none

@[simp] theorem arrivals_append (l l' : List Action) : arrivals (l ++ l') = arrivals l ++ arrivals l' :=
  List.filterMap_append

theorem arrivals_cons (a : Action) (acts : List Action) : arrivals (a :: acts) = arrivals [a] ++ arrivals acts :=
  arrivals_append [a] acts

/-- The packet is not marked as a repetition. -/
def Packet.Original (pkt : Packet) : Prop := hasFlag pkt.flags Flag.repeated = false

instance (pkt : Packet) : Decidable pkt.Original :=
  inferInstanceAs (Decidable (hasFlag pkt.flags Flag.repeated = false))

/-- The packets sent in a run. -/
def Protocol.sent (qt : Qt) : Protocol → List Action → List Packet
  | _, [] => []
  | p, a :: acts => (p.step qt a).2 ++ sent qt (p.step qt a).1 acts

namespace Protocol

theorem run_append (qt : Qt) (p : Protocol) (l l' : List Action) :
    p.run qt (l ++ l') = (p.run qt l).run qt l' := List.foldl_append

theorem sent_append (qt : Qt) (p : Protocol) (l l' : List Action) :
    p.sent qt (l ++ l') = p.sent qt l ++ (p.run qt l).sent qt l' := by
  induction l generalizing p with
  | nil => rfl
  | cons a l ih =>
      rw [List.cons_append, sent, ih, sent, List.append_assoc]
      rfl

theorem sent_singleton (qt : Qt) (p : Protocol) (a : Action) : p.sent qt [a] = (p.step qt a).2 :=
  List.append_nil _

end Protocol

/-! ## One end of a connection -/

namespace System

/-- The action a move is at end `s`, if any. -/
def action (y : System) (s : Side) : Move → List Action
  | .own _ (.receive _ _) => []
  | .own t a => if t = s then [a] else []
  | .deliver t i _ env =>
      if t = s then ((y.flight t)[i]?.map fun pkt => Action.receive pkt env).toList else []

/-- The actions at end `s` in a run. -/
def actions (qt : Qt) (s : Side) : System → List Move → List Action
  | _, [] => []
  | y, mv :: moves => y.action s mv ++ actions qt s (y.step qt mv) moves

variable {qt : Qt} {y : System} {s : Side}

theorem actions_append (qt : Qt) (s : Side) (y : System) (l l' : List Move) :
    y.actions qt s (l ++ l') = y.actions qt s l ++ (y.run qt l).actions qt s l' := by
  induction l generalizing y with
  | nil => rfl
  | cons mv l ih =>
      rw [List.cons_append, actions, ih, actions, List.append_assoc]
      rfl

theorem actions_singleton (qt : Qt) (s : Side) (y : System) (mv : Move) :
    y.actions qt s [mv] = y.action s mv := List.append_nil _

theorem run_append (qt : Qt) (y : System) (l l' : List Move) :
    y.run qt (l ++ l') = (y.run qt l).run qt l' := List.foldl_append

theorem node_act_self (qt : Qt) (y : System) (s : Side) (a : Action) :
    (y.act qt s a).node s = ((y.node s).step qt a).1 := Function.update_self _ _ _

theorem node_act_of_ne {t : Side} (h : s ≠ t) (a : Action) : (y.act qt t a).node s = y.node s :=
  Function.update_of_ne h _ _

theorem flight_act_other (qt : Qt) (y : System) (t : Side) (a : Action) :
    (y.act qt t a).flight t.other = y.flight t.other ++ ((y.node t).step qt a).2 := Function.update_self _ _ _

theorem flight_act_of_ne {t : Side} (h : s ≠ t.other) (a : Action) : (y.act qt t a).flight s = y.flight s :=
  Function.update_of_ne h _ _

theorem action_own {t : Side} {a : Action} (h : ∀ pkt env, a ≠ .receive pkt env) :
    y.action s (.own t a) = if t = s then [a] else [] := by
  cases a with
  | receive pkt env => exact absurd rfl (h pkt env)
  | _ => rfl

theorem node_act (qt : Qt) (y : System) (s t : Side) (a : Action) :
    (y.act qt t a).node s = (y.node s).run qt (if t = s then [a] else []) := by
  split_ifs with h
  · subst h
    exact node_act_self qt y t a
  · exact node_act_of_ne (Ne.symm h) a

theorem node_step (qt : Qt) (y : System) (s : Side) (mv : Move) :
    (y.step qt mv).node s = (y.node s).run qt (y.action s mv) := by
  cases mv with
  | own t a =>
      cases a with
      | receive pkt env => rfl
      | _ => exact node_act qt y s t _
  | deliver t i keep env =>
      simp only [step, action]
      cases (y.flight t)[i]? with
      | none => split_ifs <;> rfl
      | some pkt =>
          have h := node_act qt y s t (.receive pkt env)
          cases keep <;> exact h

/-- **A run of both ends is a run of each of them.** -/
theorem node_run (qt : Qt) (y : System) (s : Side) (moves : List Move) :
    (y.run qt moves).node s = (y.node s).run qt (y.actions qt s moves) := by
  induction moves generalizing y with
  | nil => rfl
  | cons mv moves ih =>
      have h := ih (y := y.step qt mv)
      rw [node_step, ← Protocol.run_append] at h
      exact h

/-- The packets end `s` has sent in a run from a fresh connection. -/
def sentBy (qt : Qt) (s : Side) (moves : List Move) : List Packet :=
  Protocol.fresh.sent qt (fresh.actions qt s moves)

/-- The packets that arrive at end `s` in a run from a fresh connection. -/
def arrivedAt (qt : Qt) (s : Side) (moves : List Move) : List Packet :=
  arrivals (fresh.actions qt s moves)

theorem node_run_fresh (qt : Qt) (s : Side) (moves : List Move) :
    (fresh.run qt moves).node s = Protocol.fresh.run qt (fresh.actions qt s moves) :=
  node_run qt fresh s moves

theorem sentBy_append (qt : Qt) (s : Side) (moves : List Move) (mv : Move) :
    sentBy qt s (moves ++ [mv]) = sentBy qt s moves ++
      ((fresh.run qt moves).node s).sent qt ((fresh.run qt moves).action s mv) := by
  rw [sentBy, actions_append, actions_singleton, Protocol.sent_append, ← node_run_fresh]
  rfl

theorem flight_act (qt : Qt) (y : System) (s t : Side) (a : Action) :
    (y.act qt t a).flight s = y.flight s ++ (y.node s.other).sent qt (if t = s.other then [a] else []) := by
  split_ifs with h
  · subst h
    rw [Protocol.sent_singleton]
    exact (congrArg _ (Side.other_other s).symm).trans ((flight_act_other qt y s.other a).trans
      (by rw [Side.other_other]))
  · rw [flight_act_of_ne fun hs => h (by rw [hs, Side.other_other])]
    exact (List.append_nil _).symm

theorem flight_act_receive (qt : Qt) (y : System) (t : Side) (pkt : Packet) (env : Env) :
    (y.act qt t (.receive pkt env)).flight = y.flight := by
  funext u
  rw [flight_act]
  split_ifs <;> exact List.append_nil _

theorem mem_flight_step {mv : Move} {pkt : Packet} (h : pkt ∈ (y.step qt mv).flight s) :
    pkt ∈ y.flight s ∨ pkt ∈ (y.node s.other).sent qt (y.action s.other mv) := by
  cases mv with
  | own t a =>
      cases a with
      | receive pkt' env => exact Or.inl h
      | _ =>
          change pkt ∈ (y.act qt t _).flight s at h
          rw [flight_act, List.mem_append] at h
          exact h
  | deliver t i keep env =>
      simp only [step] at h
      cases hi : (y.flight t)[i]? with
      | none =>
          rw [hi] at h
          exact Or.inl h
      | some pkt' =>
          rw [hi] at h
          simp only [flight_act_receive] at h
          cases keep with
          | true => exact Or.inl (flight_act_receive qt y t pkt' env ▸ h)
          | false =>
              simp only [Bool.false_eq_true, if_false, Function.update_apply] at h
              split_ifs at h with hs
              · subst hs
                exact Or.inl (List.mem_of_mem_eraseIdx h)
              · exact Or.inl h

theorem mem_flight_of_arrival {mv : Move} {pkt : Packet} (h : pkt ∈ arrivals (y.action s mv)) :
    pkt ∈ y.flight s := by
  cases mv with
  | own t a =>
      cases a with
      | receive pkt' env => exact absurd h List.not_mem_nil
      | _ =>
          rw [action_own] at h
          · split_ifs at h <;> exact absurd h List.not_mem_nil
          · exact fun _ _ => nofun
  | deliver t i keep env =>
      rw [action] at h
      split_ifs at h with hs
      · subst hs
        cases hi : (y.flight t)[i]? with
        | none =>
            rw [hi] at h
            exact absurd h List.not_mem_nil
        | some pkt' =>
            rw [hi] at h
            obtain rfl : pkt = pkt' := List.mem_singleton.mp h
            exact List.mem_of_getElem? hi
      · exact absurd h List.not_mem_nil

theorem flight_subset_sent (qt : Qt) (s : Side) (moves : List Move) :
    (fresh.run qt moves).flight s ⊆ sentBy qt s.other moves := by
  induction moves using List.reverseRecOn with
  | nil => exact List.nil_subset _
  | append_singleton moves mv ih =>
      intro pkt hpkt
      rw [run_append] at hpkt
      rw [sentBy_append, List.mem_append]
      exact (mem_flight_step hpkt).imp_left fun h => ih h

/-- **The transport invents no packet**: what arrives at one end was sent by the other. -/
theorem arrived_subset_sent (qt : Qt) (s : Side) (moves : List Move) :
    arrivedAt qt s moves ⊆ sentBy qt s.other moves := by
  induction moves using List.reverseRecOn with
  | nil => exact List.nil_subset _
  | append_singleton moves mv ih =>
      intro pkt hpkt
      rw [arrivedAt, actions_append, actions_singleton, arrivals_append, List.mem_append] at hpkt
      rw [sentBy_append, List.mem_append]
      rcases hpkt with hpkt | hpkt
      · exact Or.inl (ih hpkt)
      · exact Or.inl (flight_subset_sent qt s moves (mem_flight_of_arrival hpkt))

/-- **A move that takes what it delivers neither duplicates nor loses a packet.** -/
theorem flight_step_perm (qt : Qt) (y : System) (s : Side) {mv : Move} (h : mv.Takes) :
    (arrivals (y.action s mv) ++ (y.step qt mv).flight s).Perm
      (y.flight s ++ (y.node s.other).sent qt (y.action s.other mv)) := by
  cases mv with
  | own t a =>
      cases a with
      | receive pkt env => exact List.Perm.of_eq (List.append_nil _).symm
      | _ =>
          refine List.Perm.of_eq (Eq.trans ?_ (flight_act qt y s t _))
          simp only [action]
          split_ifs <;> rfl
  | deliver t i keep env =>
      obtain rfl : keep = false := h
      have hsent : ∀ u, (y.node u).sent qt (y.action u (.deliver t i false env)) = [] := by
        intro u
        simp only [action]
        split_ifs
        · cases (y.flight t)[i]? <;> rfl
        · rfl
      rw [hsent, List.append_nil]
      simp only [action, step]
      cases hi : (y.flight t)[i]? with
      | none =>
          simp only [Option.map_none, Option.toList_none, ite_self]
          exact List.Perm.refl _
      | some pkt =>
          simp only [Bool.false_eq_true, if_false, flight_act_receive]
          by_cases hs : s = t
          · subst hs
            obtain ⟨hlt, rfl⟩ := List.getElem?_eq_some_iff.mp hi
            rw [if_pos rfl, Function.update_self]
            exact List.getElem_cons_eraseIdx_perm hlt
          · rw [if_neg (Ne.symm hs), Function.update_of_ne hs]
            exact List.Perm.refl _

/-- **Without duplication, what was sent has arrived or is in flight**, each packet once. -/
theorem arrived_perm_sent (qt : Qt) (s : Side) {moves : List Move} (h : ∀ mv ∈ moves, mv.Takes) :
    (arrivedAt qt s moves ++ (fresh.run qt moves).flight s).Perm (sentBy qt s.other moves) := by
  induction moves using List.reverseRecOn with
  | nil => exact List.Perm.refl _
  | append_singleton moves mv ih =>
      have hstep := flight_step_perm qt (fresh.run qt moves) s
        (h mv (List.mem_append_right _ (List.mem_singleton.mpr rfl)))
      rw [arrivedAt, actions_append, actions_singleton, arrivals_append, run_append, sentBy_append,
        List.append_assoc]
      refine (hstep.append_left _).trans ?_
      rw [← List.append_assoc]
      exact (ih fun mv hmv => h mv (List.mem_append_left _ hmv)).append_right _

end System

/-! ## What is sent is true -/

namespace Protocol

theorem write_snd {qt : Qt} {p : Protocol} {i : ℕ} {m : MessageItem} {d : Device} (hm : p.posted[i]? = some m)
    (hd : m.dataDevice = some d) (now₁ now₂ : TimePoint) :
    (p.write qt i now₁ now₂).2 = [packItem qt m d (p.assignId m).1] := by
  unfold write
  rw [hm]
  simp only [preparePacketToSend_fst qt _ hd, assignId_posted, Option.toList_some]

theorem mem_write {qt : Qt} {p : Protocol} {i : ℕ} {now₁ now₂ : TimePoint} {pkt : Packet}
    (h : pkt ∈ (p.write qt i now₁ now₂).2) :
    ∃ m d, p.posted[i]? = some m ∧ m.dataDevice = some d ∧ pkt = packItem qt m d (p.assignId m).1 := by
  cases hm : p.posted[i]? with
  | none =>
      rw [write_of_none hm] at h
      exact absurd h List.not_mem_nil
  | some m =>
      cases hd : m.dataDevice with
      | none =>
          unfold write at h
          rw [hm] at h
          simp [preparePacketToSend, hd] at h
      | some d =>
          rw [write_snd hm hd] at h
          exact ⟨m, d, rfl, hd, List.mem_singleton.mp h⟩

theorem plainFlags_of_held {qt : Qt} {acts : List Action} {m : MessageItem}
    (hm : m ∈ (Protocol.fresh.run qt acts).posted) : m.PlainFlags := by
  have hnew : ∀ m : MessageItem, m.flags = 0 ∨ m.flags = Flag.fragmentQuery → m.PlainFlags := by
    rintro m (hf | hf) <;> constructor <;> rw [hf] <;> decide
  have hsame : ∀ m m' : MessageItem, m.SameMessage m' → m.PlainFlags → m'.PlainFlags := by
    rintro m m' hs ⟨h1, h2, h3⟩
    rcases hs.flags with hf | hf
    · exact ⟨hf ▸ h1, hf ▸ h2, hf ▸ h3⟩
    · constructor <;> rw [hf, hasFlag_or]
      · rw [h1]; decide
      · rw [h2]; decide
      · rw [h3]; decide
  have hall := Books.Steps.forall_items hnew hsame
    (fun x hx => absurd hx (Multiset.notMem_zero x)) (steps_run qt waitingHaveIds_fresh acts)
  obtain ⟨x, hx, rfl⟩ := exists_holding (Multiset.mem_add.mpr (Or.inl hm) : m ∈ held _)
  exact hall x hx

theorem log_prefix_step (qt : Qt) {p : Protocol} (hp : p.WaitingHaveIds) (a : Action) :
    p.log <+: (p.step qt a).1.log := Books.Steps.log_prefix (steps_step qt hp a)

theorem log_prefix_prepare (qt : Qt) {p : Protocol} (hp : p.WaitingHaveIds) {m : MessageItem} {d : Device}
    (hd : m.dataDevice = some d) (now₁ now₂ : TimePoint) :
    (p.assignId m).2.log <+: (preparePacketToSend qt p m now₁ now₂).2.log := by
  let q : Protocol := { (p.assignId m).2.emit [.transmitted m.uid (packItem qt m d (p.assignId m).1) now₂] with
    lastMsgSendTime := now₂ }
  have hq : q.WaitingHaveIds := fun x hx => hp x (by
    rwa [show q.waitingMessages = p.waitingMessages from waitingMessages_assignId p m] at hx)
  have hlog := Books.Steps.log_prefix
    (steps_written (m := packedItem m d (p.assignId m).1 now₁) (E := 0) hq rfl now₂)
  simp only [preparePacketToSend, hd]
  exact (List.prefix_append _ _).trans hlog

end Protocol

/-- The packet is packed from a message whose id was assigned together with its payload. -/
def Genuine (qt : Qt) (log : List Event) (pkt : Packet) : Prop :=
  ∃ m d, m.PlainFlags ∧ m.dataDevice = some d ∧ pkt = Protocol.packItem qt m d pkt.id ∧
    .assigned pkt.id d.data ∈ log

theorem Genuine.mono {qt : Qt} {log log' : List Event} {pkt : Packet} (h : Genuine qt log pkt)
    (hl : log ⊆ log') : Genuine qt log' pkt := by
  obtain ⟨m, d, hf, hd, hp, ha⟩ := h
  exact ⟨m, d, hf, hd, hp, hl ha⟩

theorem genuine_write (qt : Qt) (acts : List Action) {i : ℕ} {now₁ now₂ : TimePoint} {pkt : Packet}
    (h : pkt ∈ ((Protocol.fresh.run qt acts).write qt i now₁ now₂).2) :
    Genuine qt ((Protocol.fresh.run qt acts).write qt i now₁ now₂).1.log pkt := by
  have ho := orderly_run qt acts
  have hw := Protocol.waitingHaveIds_run qt acts
  have hflags : ∀ m ∈ (Protocol.fresh.run qt acts).posted, m.PlainFlags := fun m hm =>
    Protocol.plainFlags_of_held hm
  set p := Protocol.fresh.run qt acts with hp
  obtain ⟨m, d, hm, hd, rfl⟩ := Protocol.mem_write h
  have hmem := List.mem_of_getElem? hm
  obtain ⟨x, hx, hxm⟩ := Protocol.exists_holding (Multiset.mem_add.mpr (Or.inl hmem) : m ∈ p.held)
  have hpay : m.payload = d.data := by simp [MessageItem.payload, hd]
  let q : Protocol := { p with posted := p.posted.eraseIdx i }
  have hlog := Protocol.log_prefix_prepare qt (p := q) hw hd now₁ now₂
  rw [Protocol.write_of_posted hm]
  refine ⟨m, d, hflags m hmem, hd, rfl, hlog.subset ?_⟩
  rw [show q.assignId m = _ from Protocol.assignId_posted p _ m]
  change .assigned (p.assignId m).1 d.data ∈ (p.assignId m).2.log
  unfold Protocol.assignId
  cases hid : m.id with
  | some j =>
      have hsent := ho.sent x hx j (hxm ▸ hid)
      rw [hxm, hpay] at hsent
      exact hsent
  | none =>
      rw [hpay]
      exact List.mem_append_right _ (List.mem_singleton.mpr rfl)

/-- **Every packet sent is genuine.** -/
theorem genuine_sent (qt : Qt) (acts : List Action) :
    ∀ pkt ∈ Protocol.fresh.sent qt acts, Genuine qt (Protocol.fresh.run qt acts).log pkt := by
  induction acts using List.reverseRecOn with
  | nil => exact fun pkt h => absurd h List.not_mem_nil
  | append_singleton acts a ih =>
      intro pkt hpkt
      rw [Protocol.sent_append, Protocol.sent_singleton, List.mem_append] at hpkt
      rw [Protocol.run_append]
      rcases hpkt with hpkt | hpkt
      · exact (ih pkt hpkt).mono (Protocol.log_prefix_step qt (Protocol.waitingHaveIds_run qt acts) a).subset
      · cases a with
        | write i now₁ now₂ => exact genuine_write qt acts hpkt
        | _ => exact absurd hpkt List.not_mem_nil

/-- What the content says about the payload `D` of its message is true. -/
def Content.Tells (D : Bytes) : Content → Prop
  | .fragment _ fullSize pos _ data => fullSize = D.length ∧ D ≠ [] ∧
      (data = [] ∨ ∃ n, 0 < n ∧ pos + n ≤ D.length ∧ data = (D.drop pos).take n)
  | .answer _ data => data = D
  | .message data => data = D
  | _ => True

theorem tells_meaning (m : MessageItem) (d : Device) : (m.meaning d).Tells d.data := by
  have hpos : d.pos ≤ d.data.length := d.pos_le
  have hfs := m.fragmentSize_mem
  unfold MessageItem.meaning
  split_ifs with hbig hend
  · exact ⟨rfl, fun he => by simp [Device.size, he] at hbig, Or.inl rfl⟩
  · have hbig' : d.data.length > m.fragmentSize := hbig
    have hend' : d.pos ≠ d.data.length := hend
    refine ⟨rfl, fun he => by simp [he] at hbig',
      Or.inr ⟨min m.fragmentSize (d.data.length - d.pos), by omega, by omega, ?_⟩⟩
    rw [← List.take_take, show d.data.length - d.pos = (d.data.drop d.pos).length by simp,
      List.take_length]
  · cases m.answerId <;> rfl

/-- **A genuine packet tells the truth about the payload of its message.** -/
theorem Genuine.tells {qt : Qt} {log : List Event} {pkt : Packet} (h : Genuine qt log pkt) {c : Content}
    (hc : pkt.content qt = some c) :
    ∃ D, .assigned pkt.id D ∈ log ∧ (D.length < 2 ^ 32 → c.Tells D) := by
  obtain ⟨m, d, hf, hd, hp, ha⟩ := h
  refine ⟨d.data, ha, fun hsize => ?_⟩
  rw [hp, content_packItem qt hf] at hc
  by_cases hcmd : m.cmd = Cmd.removeFragment
  · unfold parseContent at hc
    rw [if_pos hcmd] at hc
    obtain ⟨x, _, rfl⟩ := Option.map_eq_some_iff.mp hc
    exact trivial
  by_cases hq : hasFlag m.flags Flag.fragmentQuery = true
  · unfold parseContent at hc
    rw [if_neg hcmd, fragmentQuery_packFlags, if_pos hq] at hc
    simp only [parseFragmentQuery, Option.bind_eq_bind, Option.bind_eq_some_iff] at hc
    obtain ⟨_, _, _, _, _, _, hc⟩ := hc
    obtain rfl := Option.some.inj hc
    exact trivial
  · rw [parseContent_packBody hf (Bool.not_eq_true _ ▸ hq) hcmd hsize] at hc
    obtain rfl := Option.some.inj hc
    exact tells_meaning m d

theorem mem_assignedIds {log : List Event} {i : UInt8} {D : Bytes} (h : .assigned i D ∈ log) :
    i ∈ assignedIds log := List.mem_filterMap.mpr ⟨_, h, rfl⟩

theorem assigned_unique {log : List Event} (h : (assignedIds log).Nodup) {i : UInt8} {D D' : Bytes}
    (h1 : .assigned i D ∈ log) (h2 : .assigned i D' ∈ log) : D = D' := by
  induction log with
  | nil => exact absurd h1 List.not_mem_nil
  | cons e log ih =>
      rw [show assignedIds (e :: log) = assignedIds [e] ++ assignedIds log from
        assignedIds_append [e] log] at h
      rcases List.mem_cons.mp h1 with rfl | h1'
      · rcases List.mem_cons.mp h2 with he | h2'
        · exact (Event.assigned.inj he).2.symm
        · exact absurd (mem_assignedIds h2') (List.nodup_cons.mp h).1
      · rcases List.mem_cons.mp h2 with rfl | h2'
        · exact absurd (mem_assignedIds h1') (List.nodup_cons.mp h).1
        · exact ih (List.nodup_append.mp h).2.1 h1' h2'

theorem length_assignedIds_le {log log' : List Event} (h : log <+: log') :
    (assignedIds log).length ≤ (assignedIds log').length := by
  obtain ⟨t, rfl⟩ := h
  rw [assignedIds_append, List.length_append]
  exact Nat.le_add_right _ _

theorem id_lt_of_assigned (qt : Qt) {acts : List Action} {i : UInt8} {D : Bytes}
    (hids : (assignedIds (Protocol.fresh.run qt acts).log).length ≤ 256)
    (h : .assigned i D ∈ (Protocol.fresh.run qt acts).log) :
    i.toNat < (assignedIds (Protocol.fresh.run qt acts).log).length := by
  have heq := (orderly_run qt acts).assigned_eq
  simp only [Protocol.books] at heq
  have hmem := mem_assignedIds h
  rw [heq] at hmem
  obtain ⟨k, hk, hid⟩ := List.mem_map.mp hmem
  rw [List.mem_range] at hk
  rw [← hid, UInt8.toNat_ofNat_of_lt' (by change k < 256; omega)]
  exact hk

theorem id_lt_of_sent (qt : Qt) {acts : List Action} {pkt : Packet}
    (hids : (assignedIds (Protocol.fresh.run qt acts).log).length ≤ 256)
    (h : pkt ∈ Protocol.fresh.sent qt acts) :
    pkt.id.toNat < (assignedIds (Protocol.fresh.run qt acts).log).length := by
  obtain ⟨m, d, _, _, _, ha⟩ := genuine_sent qt acts pkt h
  exact id_lt_of_assigned qt hids ha

theorem System.id_lt_of_arrived (qt : Qt) {s : Side} {moves : List Move} {pkt : Packet}
    (hids : (assignedIds ((System.fresh.run qt moves).node s.other).log).length ≤ 256)
    (h : pkt ∈ System.arrivedAt qt s moves) :
    pkt.id.toNat < (assignedIds ((System.fresh.run qt moves).node s.other).log).length := by
  rw [System.node_run_fresh] at hids ⊢
  exact id_lt_of_sent qt hids (System.arrived_subset_sent qt s moves h)

theorem System.id_ne_of_arrived (qt : Qt) {s : Side} {moves : List Move} {pkt : Packet}
    (hids : (assignedIds ((System.fresh.run qt moves).node s.other).log).length < 256)
    (h : pkt ∈ System.arrivedAt qt s moves) : pkt.id ≠ 255 := by
  intro he
  have hlt := System.id_lt_of_arrived qt hids.le h
  rw [he] at hlt
  exact absurd hids (not_lt.mpr hlt)

end HelpzNet
