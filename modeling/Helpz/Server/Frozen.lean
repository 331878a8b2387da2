import Helpz.Server.Clients
import Mathlib.Data.List.Basic

/-!
# Cleaning

`remove_frozen_clients` erases the clients whose `last_msg_recv_time_` is too long ago. `process_bytes` sets it, and
nothing else does.

* `Logged`: the time of a node is that of its last record, or the epoch; kept by each step (`logged_step`);
* `Silent`: nothing was received for a node during the timeout; `isFrozen_eq_false_iff`: what the cleaning looks at
  instead;
* `OnlySilent`, `Processed`: only silent clients are erased exactly if the others had a record (`onlySilent_iff`).
-/

namespace HelpzServer

open HelpzLib

namespace Server

variable {ε π : Type} {s s' : Server ε π} {n : ℕ}

/-- The nodes that are referred to are there, what is logged is past, and the time of a node is that of the last of
its records, or the epoch. -/
structure Logged (s : Server ε π) : Prop where
  clients : ∀ c ∈ s.clients, c.2 < s.nodes.length
  handling : ∀ n ∈ s.handling, n < s.nodes.length
  log : ∀ x ∈ s.log, x.node < s.nodes.length ∧ x.time ≤ s.now
  last : ∀ n x, s.nodes[n]? = some x → ∀ t, ⟨n, .processed, t⟩ ∈ s.log → t ≤ x.lastMsgRecvTime
  time : ∀ n x, s.nodes[n]? = some x → ⟨n, .processed, x.lastMsgRecvTime⟩ ∈ s.log ∨ x.lastMsgRecvTime = 0

theorem logged_start (now : ℕ) : (start now : Server ε π).Logged :=
  ⟨fun _ h => (nomatch h), fun _ h => (nomatch h), fun _ h => (nomatch h), fun _ _ h => (nomatch h),
    fun _ _ h => (nomatch h)⟩

theorem Logged.congr (h : s.Logged) (hclients : s'.clients ⊆ s.clients) (hhandling : s'.handling ⊆ s.handling)
    (hnodes : s'.nodes = s.nodes) (hlog : s'.log = s.log) (hnow : s.now ≤ s'.now) : s'.Logged := by
  refine ⟨fun c hc => ?_, fun n hn => ?_, fun x hx => ?_, ?_, ?_⟩
  · rw [hnodes]
    exact h.clients c (hclients hc)
  · rw [hnodes]
    exact h.handling n (hhandling hn)
  · rw [hlog] at hx
    rw [hnodes]
    exact ⟨(h.log x hx).1, Nat.le_trans (h.log x hx).2 hnow⟩
  · rw [hnodes, hlog]
    exact h.last
  · rw [hnodes, hlog]
    exact h.time

theorem mem_note {event : Event} {x : LogEntry} (hx : x ∈ (s.note n event).log) : x ∈ s.log ∨ x = ⟨n, event, s.now⟩ :=
  (List.mem_append.mp hx).imp_right List.mem_singleton.mp

theorem Logged.note (h : s.Logged) (hn : n < s.nodes.length) (event : Event) (hevent : event ≠ .processed) :
    (s.note n event).Logged := by
  refine ⟨h.clients, h.handling, fun x hx => ?_, fun m x hx t ht => ?_, fun m x hx => ?_⟩
  · obtain hold | rfl := mem_note hx
    · exact h.log x hold
    · exact ⟨hn, Nat.le_refl _⟩
  · obtain hold | he := mem_note ht
    · exact h.last m x hx t hold
    · exact absurd (congrArg LogEntry.event he).symm hevent
  · exact (h.time m x hx).imp_left fun hm => List.mem_append_left _ hm

theorem Logged.record (h : s.Logged) {x : ServerNode ε π} (hx : s.nodes[n]? = some x) :
    (Server.note { s with nodes := s.nodes.set n { x with lastMsgRecvTime := s.now } } n .processed).Logged := by
  obtain ⟨hlt, _⟩ := List.getElem?_eq_some_iff.mp hx
  have hset : ∀ (m : ℕ) (y : ServerNode ε π), (s.nodes.set n { x with lastMsgRecvTime := s.now })[m]? = some y →
      (m = n ∧ y.lastMsgRecvTime = s.now) ∨ (m ≠ n ∧ s.nodes[m]? = some y) := by
    intro m y hy
    rw [List.getElem?_set] at hy
    split_ifs at hy with hm
    · exact .inl ⟨hm.symm, by rw [← Option.some.inj hy]⟩
    · exact .inr ⟨fun he => hm he.symm, hy⟩
  refine ⟨fun c hc => ?_, fun m hm => ?_, fun y hy => ?_, fun m y hy t ht => ?_, fun m y hy => ?_⟩
  · exact Nat.lt_of_lt_of_eq (h.clients c hc) List.length_set.symm
  · exact Nat.lt_of_lt_of_eq (h.handling m hm) List.length_set.symm
  · obtain hold | rfl := mem_note hy
    · exact ⟨Nat.lt_of_lt_of_eq (h.log y hold).1 List.length_set.symm, (h.log y hold).2⟩
    · exact ⟨Nat.lt_of_lt_of_eq hlt List.length_set.symm, Nat.le_refl _⟩
  · obtain ⟨rfl, htime⟩ | ⟨hne, hold⟩ := hset m y hy
    · -- all records are past
      rw [htime]
      obtain hlog | he := mem_note ht
      · exact (h.log _ hlog).2
      · exact Nat.le_of_eq (congrArg LogEntry.time he)
    · obtain hlog | he := mem_note ht
      · exact h.last m y hold t hlog
      · exact absurd (congrArg LogEntry.node he) hne
  · obtain ⟨rfl, htime⟩ | ⟨_, hold⟩ := hset m y hy
    · rw [htime]
      exact .inl (List.mem_append_right _ (List.mem_singleton_self _))
    · exact (h.time m y hold).imp_left fun hlog => List.mem_append_left _ hlog

theorem Logged.nodes (h : s.Logged) {clients : List (ε × ℕ)} {nodes : List (ServerNode ε π)}
    (hlen : s.nodes.length ≤ nodes.length) (hclients : ∀ c ∈ clients, c ∈ s.clients ∨ c.2 < nodes.length)
    (hold : ∀ (m : ℕ) (y : ServerNode ε π), nodes[m]? = some y →
      (∃ z, s.nodes[m]? = some z ∧ y.lastMsgRecvTime = z.lastMsgRecvTime) ∨
        (s.nodes.length ≤ m ∧ y.lastMsgRecvTime = 0)) (writer : π → Option ℕ) :
    Logged { s with clients := clients, nodes := nodes, writer := writer } where
  clients c hc := (hclients c hc).elim (fun hmem => Nat.lt_of_lt_of_le (h.clients c hmem) hlen) id
  handling m hm := Nat.lt_of_lt_of_le (h.handling m hm) hlen
  log x hx := ⟨Nat.lt_of_lt_of_le (h.log x hx).1 hlen, (h.log x hx).2⟩
  last m y hy t ht := by
    obtain ⟨z, hz, htime⟩ | ⟨hm, _⟩ := hold m y hy
    · rw [htime]
      exact h.last m z hz t ht
    · exact absurd (h.log _ ht).1 (Nat.not_lt.mpr hm)
  time m y hy := by
    obtain ⟨z, hz, htime⟩ | ⟨_, htime⟩ := hold m y hy
    · rw [htime]
      exact h.time m z hz
    · exact .inr htime

theorem Logged.set (h : s.Logged) {x : ServerNode ε π} (hx : s.nodes[n]? = some x) (node : Node π)
    (writer : π → Option ℕ) :
    Logged { s with nodes := s.nodes.set n { x with node := node }, writer := writer } := by
  refine h.nodes (Nat.le_of_eq List.length_set.symm) (fun c hc => .inl hc) (fun m y hy => ?_) writer
  rw [List.getElem?_set] at hy
  split_ifs at hy with hm
  · exact .inl ⟨x, hm ▸ hx, by rw [← Option.some.inj hy]⟩
  · exact .inl ⟨y, hy, rfl⟩

theorem Logged.processBytes (h : s.Logged) (size : ℕ) (p : π) : (s.processBytes size p).Logged := by
  unfold Server.processBytes
  split_ifs
  · exact h
  · split
    · exact h
    · split
      · exact h
      next x hx => exact h.record hx

section

variable [DecidableEq π]

theorem Logged.act (h : s.Logged) (n : ℕ) (c : Node.Call π) : (s.act n c).Logged := by
  unfold Server.act
  split
  · exact h
  next x hx => exact h.set hx _ _

theorem Logged.callback (h : s.Logged) (n : ℕ) (c : Callback π) : (s.callback n c).Logged := by
  unfold Server.callback
  split
  · exact h
  · split_ifs
    · exact h
    · cases c with
      | alert type =>
          dsimp only
          split_ifs
          · exact (h.act n _).congr (fun _ h => h) (fun _ h => h) rfl rfl (Nat.le_refl _)
          · exact h.act n _
      | chooseAppProtocol p =>
          cases p with
          | none => exact h.congr (fun _ h => h) (fun _ h => h) rfl rfl (Nat.le_refl _)
          | some p => exact h.act n _
      | record size => exact h.congr (fun _ h => h) (fun _ h => h) rfl rfl (Nat.le_refl _)

theorem Logged.callbacks (h : s.Logged) (n : ℕ) (callbacks : List (Callback π)) :
    (callbacks.foldl (fun s c => s.callback n c) s).Logged := by
  induction callbacks generalizing s with
  | nil => exact h
  | cons c callbacks ih => exact ih (h.callback n c)

theorem Logged.closeAll (h : s.Logged) (l : List (ε × ℕ)) :
    (l.foldl (fun s c => s.act c.2 .close) s).Logged ∧
      (l.foldl (fun s c => s.act c.2 .close) s).clients = s.clients := by
  induction l generalizing s with
  | nil => exact ⟨h, rfl⟩
  | cons c l ih =>
      obtain ⟨hlogged, hclients⟩ := ih (h.act c.2 .close)
      exact ⟨hlogged, hclients.trans (clients_act s c.2 .close)⟩

theorem Logged.removeWhere (h : s.Logged) (p : ℕ → Bool) : (s.removeWhere p).Logged := by
  obtain ⟨hlogged, hclients⟩ := h.closeAll (s.clients.filter fun c => p c.2)
  refine hlogged.congr ?_ (fun _ h => h) rfl rfl (Nat.le_refl _)
  rw [hclients]
  exact List.filter_subset_self _

end

/-! ## Every step -/

variable [DecidableEq ε]

theorem findClient_lt (h : s.Logged) {e : ε} (hn : s.findClient e = some n) : n < s.nodes.length := by
  obtain ⟨c, hc, rfl⟩ := Option.map_eq_some_iff.mp hn
  exact h.clients c (List.mem_of_find?_eq_some hc)

theorem Logged.getNode (h : s.Logged) (e : ε) :
    (s.getNode e).1.Logged ∧ (s.getNode e).2 < (s.getNode e).1.nodes.length := by
  unfold Server.getNode Server.createClient
  cases hf : s.findClient e with
  | some n => exact ⟨h, findClient_lt h hf⟩
  | none =>
      have hlen : (s.nodes ++ [(⟨e, ⟨true, none⟩, 0⟩ : ServerNode ε π)]).length = s.nodes.length + 1 := by simp
      refine ⟨Logged.note (h.nodes ?_ (fun c hc => ?_) (fun m y hy => ?_) s.writer) ?_ .created nofun, ?_⟩
      · omega
      · obtain hold | hlast := List.mem_append.mp hc
        · exact .inl hold
        · rw [List.mem_singleton.mp hlast]
          exact .inr (by omega)
      · obtain hlt | hge := Nat.lt_or_ge m s.nodes.length
        · rw [List.getElem?_append_left hlt] at hy
          exact .inl ⟨y, hy, rfl⟩
        · rw [List.getElem?_append_right hge] at hy
          refine .inr ⟨hge, ?_⟩
          rw [List.mem_singleton.mp (List.mem_of_getElem? hy)]
      · exact hlen ▸ Nat.lt_succ_self _
      · exact hlen ▸ Nat.lt_succ_self _

variable [DecidableEq π] (equal : π → π → Bool)

/-- **Every step keeps the times.** -/
theorem logged_step (h : s.Logged) (mv : Move ε π) : (s.step equal mv).Logged := by
  cases mv with
  | receive e =>
      obtain ⟨hnode, hlt⟩ := h.getNode e
      have hmore : Logged { (s.getNode e).1 with handling := (s.getNode e).1.handling ++ [(s.getNode e).2] } := by
        refine ⟨hnode.clients, fun m hm => ?_, hnode.log, hnode.last, hnode.time⟩
        obtain hold | hlast := List.mem_append.mp hm
        · exact hnode.handling m hold
        · rw [List.mem_singleton.mp hlast]
          exact hlt
      exact hmore.note hlt .datagram nofun
  | processData k callbacks =>
      simp only [step]
      split
      · exact h
      next n hn =>
        have hlt := h.handling n (List.mem_of_getElem? hn)
        have herase : Logged { s with handling := s.handling.eraseIdx k } := h.congr (fun _ hc => hc)
          (fun _ => List.mem_of_mem_eraseIdx) rfl rfl (Nat.le_refl _)
        exact (herase.note hlt .datagram nofun).callbacks n callbacks
  | write n =>
      simp only [step]
      split
      · exact h
      · exact h.congr (fun _ h => h) (fun _ h => h) rfl rfl (Nat.le_refl _)
  | execute k =>
      simp only [step]
      split
      · exact h
      next t _ =>
        have herase : Logged { s with tasks := s.tasks.eraseIdx k } :=
          h.congr (fun _ hc => hc) (fun _ hn => hn) rfl rfl (Nat.le_refl _)
        cases t with
        | write e => exact (herase.getNode e).1
        | removeClient e =>
            exact herase.congr (List.filter_subset_self _) (fun _ hn => hn) rfl rfl (Nat.le_refl _)
  | removeClient e =>
      have hremove : (s.removeClient e).Logged :=
        h.congr (List.filter_subset_self _) (fun _ hn => hn) rfl rfl (Nat.le_refl _)
      exact hremove
  | removeCopy client =>
      simp only [step, removeCopy]
      split_ifs
      · exact h.removeWhere _
      · exact h
  | removeFrozenClients frozenTimeout =>
      simp only [step, removeFrozenClients]
      split_ifs
      · exact h.removeWhere _
      · exact h
  | takeRecord =>
      simp only [step]
      split
      · exact h
      · split <;> exact h.congr (fun _ hc => hc) (fun _ hn => hn) rfl rfl (Nat.le_refl _)
  | processBytes k =>
      simp only [step]
      split
      · exact h
      next size p _ =>
        have herase : Logged { s with hands := s.hands.eraseIdx k } :=
          h.congr (fun _ hc => hc) (fun _ hn => hn) rfl rfl (Nat.le_refl _)
        exact herase.processBytes size p
  | tick d =>
      have htick : Logged { s with now := s.now + d } :=
        h.congr (fun _ hc => hc) (fun _ hn => hn) rfl rfl (Nat.le_add_right _ _)
      exact htick

/-! ## What is erased -/

omit [DecidableEq ε] [DecidableEq π] in
/-- **What the cleaning looks at**: whether the node had a record within the timeout, or the timeout reaches back to
the epoch. -/
theorem isFrozen_eq_false_iff (h : s.Logged) {T : ℤ} (hn : n < s.nodes.length) :
    s.isFrozen T n = false ↔
      (s.now : ℤ) ≤ T ∨ ∃ t : ℕ, ⟨n, .processed, t⟩ ∈ s.log ∧ (s.now : ℤ) - t ≤ T := by
  obtain ⟨x, hx⟩ : ∃ x, s.nodes[n]? = some x := ⟨_, List.getElem?_eq_getElem hn⟩
  simp only [isFrozen, hx, decide_eq_false_iff_not, Int.not_lt, gt_iff_lt]
  constructor
  · intro hle
    obtain hlog | hzero := h.time n x hx
    · exact .inr ⟨_, hlog, hle⟩
    · rw [hzero] at hle
      exact .inl (by omega)
  · rintro (hle | ⟨t, ht, hle⟩)
    · omega
    · have hlast := h.last n x hx t ht
      omega

/-- No datagram was handled for the node during the last `T`, and it was not created less than `T` ago. -/
def Silent (s : Server ε π) (T : ℤ) (n : ℕ) : Prop :=
  (∀ t : ℕ, ⟨n, .datagram, t⟩ ∈ s.log → T < s.now - t) ∧ ∀ t : ℕ, ⟨n, .created, t⟩ ∈ s.log → T ≤ s.now - t

/-- The clients that a cleaning erases are silent. -/
def OnlySilent (s : Server ε π) (mv : Move ε π) : Prop :=
  ∀ T, mv = .removeFrozenClients T → ∀ c ∈ s.clients, c ∉ (s.step equal mv).clients → s.Silent T c.2

/-- At a cleaning, the clients that are not silent had a record within the timeout, or it reaches back to the
epoch. -/
def Processed (s : Server ε π) (mv : Move ε π) : Prop :=
  ∀ T, mv = .removeFrozenClients T → ∀ c ∈ s.clients, ¬s.Silent T c.2 →
    s.now ≤ T ∨ ∃ t : ℕ, ⟨c.2, .processed, t⟩ ∈ s.log ∧ s.now - t ≤ T

omit [DecidableEq ε] in
theorem mem_removeFrozenClients {c : ε × ℕ} (hc : c ∈ s.clients) (T : ℤ) :
    c ∈ (s.removeFrozenClients T).clients ↔ s.isFrozen T c.2 = false := by
  unfold removeFrozenClients
  split_ifs with hcheck
  · simp [removeWhere, hc]
  · refine iff_of_true hc ?_
    simp only [checkFrozenClients, Bool.not_eq_true, List.any_eq_false] at hcheck
    exact hcheck c hc

theorem onlySilent_step (h : s.Logged) (mv : Move ε π) : s.OnlySilent equal mv ↔ s.Processed mv := by
  constructor
  · rintro hsilent T rfl c hc hnot
    refine (isFrozen_eq_false_iff h (h.clients c hc)).mp ?_
    by_contra hfrozen
    exact hnot (hsilent T rfl c hc fun hmem => hfrozen ((mem_removeFrozenClients hc T).mp hmem))
  · rintro hprocessed T rfl c hc hgone
    by_contra hnot
    have hrecord := hprocessed T rfl c hc hnot
    exact hgone ((mem_removeFrozenClients hc T).mpr ((isFrozen_eq_false_iff h (h.clients c hc)).mpr hrecord))

/-- **Cleaning erases silent clients only**, at every step of a run, exactly if at each cleaning the clients that are
not silent had a record processed within the timeout, or it reaches back to the epoch. -/
theorem onlySilent_iff (now : ℕ) (moves : List (Move ε π)) :
    Along (fun s mv => some (step equal s mv)) (OnlySilent equal) (start now) moves ↔
      Along (fun s mv => some (step equal s mv)) Processed (start now) moves :=
  along_congr (I := Logged) (fun _ mv h => onlySilent_step equal h mv) (fun _ mv h _ => logged_step equal h mv)
    (logged_start now)

/-- A client is erased at the time it is created. -/
theorem new_client_erased : ¬ ∀ moves : List (Move ℕ ℕ),
    Along (fun s mv => some (step (fun _ _ => false) s mv)) (OnlySilent fun _ _ => false) (start 100) moves := by
  intro h
  have hsilent := ((h [.receive 1, .removeFrozenClients 30]).2 _ rfl).1 30 rfl (1, 0) (by decide) (by decide)
  have hcreated := hsilent.2 100 (by decide)
  revert hcreated
  decide

end Server

end HelpzServer
