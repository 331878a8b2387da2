import Helpz.Net.Silence
import Helpz.Net.Orderly
import Mathlib.Data.List.TakeWhile

/-!
# When an id is used again

`next_tx_msg_id_` has eight bits and wraps without a look at the items that are still outstanding. The id
of an item is the number of ids given out before it, modulo 256; so a new id is free as long as fewer than
255 ids were given out since the first transmission of each outstanding item.

* `givenSince u log`: how many ids were given out since item `u` was first transmitted;
* `Roomy`: the condition, on the state before an id is given out;
* `Counted`: the id of an outstanding item, from the ids given out since;
* `Distinct`: no two items held have the same id, and none was evicted;
* `ids_unique`: over every run.
-/

namespace HelpzNet

open HelpzLib

/-- The event is a transmission of item `u`. -/
def Event.transmits (u : ℕ) : Event → Bool
  | .transmitted uid _ _ => decide (uid = u)
  | _ => false

/-- The number of ids given out since item `u` was first transmitted. -/
def givenSince (u : ℕ) (log : List Event) : ℕ :=
  (assignedIds (log.dropWhile fun e => !e.transmits u)).length

/-- The item was transmitted. -/
def wasSent (u : ℕ) (log : List Event) : Prop := ∃ e ∈ log, e.transmits u = true

theorem wasSent_append {u : ℕ} {l l' : List Event} : wasSent u (l ++ l') ↔ wasSent u l ∨ wasSent u l' := by
  simp only [wasSent, List.mem_append, or_and_right, exists_or]

theorem not_wasSent_of_unsent {u : ℕ} {l : List Event} (h : ∀ e ∈ l, e.Unsent) : ¬ wasSent u l := by
  rintro ⟨e, he, ht⟩
  have hu := h e he
  cases e with
  | transmitted uid pkt now => exact hu
  | _ => cases ht

theorem assignedIds_of_unsent {l : List Event} (h : ∀ e ∈ l, e.Unsent) : assignedIds l = [] := by
  refine List.filterMap_eq_nil_iff.mpr fun e he => ?_
  have hu := h e he
  cases e with
  | assigned id data => exact hu.elim
  | _ => rfl

theorem givenSince_append {u : ℕ} {log : List Event} (h : wasSent u log) (l : List Event) :
    givenSince u (log ++ l) = givenSince u log + (assignedIds l).length := by
  obtain ⟨e, he, ht⟩ := h
  have hne : (log.dropWhile fun e => !e.transmits u) ≠ [] := by
    intro hnil
    have := List.dropWhile_eq_nil_iff.mp hnil e he
    rw [ht] at this
    cases this
  unfold givenSince
  rw [List.dropWhile_append, if_neg (by simpa using hne), assignedIds_append, List.length_append]

theorem givenSince_first {u : ℕ} {log : List Event} (h : ¬ wasSent u log) {e : Event}
    (he : e.transmits u = true) (l : List Event) :
    givenSince u (log ++ e :: l) = (assignedIds (e :: l)).length := by
  have hnil : (log.dropWhile fun e => !e.transmits u) = [] := by
    refine List.dropWhile_eq_nil_iff.mpr fun x hx => ?_
    rw [Bool.not_eq_true', ← Bool.not_eq_true]
    exact fun hs => h ⟨x, hx, hs⟩
  unfold givenSince
  rw [List.dropWhile_append, if_pos (by rw [hnil]; rfl), List.dropWhile_cons_of_neg (by simp [he])]

namespace Protocol

variable {qt : Qt} {p q : Protocol} {a : Action}

/-- If the action gives out an id, fewer than 255 were given out since the first transmission of each item
that is still held with one. -/
def Roomy (p : Protocol) : Action → Prop
  | .write i _ _ => ∀ m, p.posted[i]? = some m → m.id = none → ∀ x ∈ p.held, x.id.isSome = true →
      givenSince x.uid p.log < 255
  | _ => True

instance decidableRoomy (p : Protocol) : (a : Action) → Decidable (p.Roomy a)
  | .write i _ _ =>
      decidable_of_iff (∀ m ∈ p.posted[i]?, m.id = none → ∀ x ∈ p.held, x.id.isSome = true →
        givenSince x.uid p.log < 255) Iff.rfl
  | .send .. | .receive .. | .timer .. => inferInstanceAs (Decidable True)

/-! ## Which items are held after an action -/

theorem held_step (qt : Qt) (p : Protocol) (h : ∀ i now₁ now₂, a ≠ .write i now₁ now₂) :
    ∀ m ∈ (p.step qt a).1.held, p.IsNew m ∨ ∃ x ∈ p.held, x.uid = m.uid ∧ x.id = m.id := by
  intro m hm
  rcases mem_held.mp hm with hm | hm
  · rcases (posts_step qt p a).posted m hm with hm | hm
    · exact Or.inr ⟨m, mem_held.mpr (Or.inl hm), rfl, rfl⟩
    cases hm with
    | new hnew => exact Or.inl hnew
    | @resent _ _ x hx _ => exact Or.inr ⟨x, mem_held.mpr (Or.inr (mem_waiting_of_popped hx)), rfl, rfl⟩
    | @queried _ _ _ _ _ x _ hx => exact Or.inr ⟨x, mem_held.mpr (Or.inr (mem_of_pop hx)), rfl, rfl⟩
  · obtain ⟨k, hk⟩ := SortedMap.mem_values.mp hm
    rcases (unsent_step qt p h).waiting _ hk with hk | ⟨_, _, id, pos, _, x, _, _, _, hx, he⟩
    · exact Or.inr ⟨m, mem_held.mpr (Or.inr (SortedMap.mem_values.mpr ⟨k, hk⟩)), rfl, rfl⟩
    · obtain ⟨_, rfl⟩ := Prod.mk.inj he
      exact Or.inr ⟨m, mem_held.mpr (Or.inr (mem_of_pop (Option.filter_eq_some_iff.mp hx).1)), rfl, rfl⟩

/-! ## Counting -/

/-- Only items that exist were transmitted; one without an id was not; and the id of any other is the
number of ids given out before it. -/
structure Counted (p : Protocol) : Prop where
  known : ∀ u, wasSent u p.log → u < p.alloc
  unsent : ∀ m ∈ p.held, m.id = none → ¬ wasSent m.uid p.log
  given : ∀ m ∈ p.held, ∀ j, m.id = some j → wasSent m.uid p.log ∧
    ∃ k, k + givenSince m.uid p.log + 1 = (assignedIds p.log).length ∧ j = UInt8.ofNat k

theorem counted_fresh : fresh.Counted := by
  have hnone : ∀ m, m ∉ fresh.held := fun m hm => by
    rcases mem_held.mp hm with h | h
    · cases h
    · exact absurd h (Multiset.notMem_zero m)
  refine ⟨?_, fun m hm => absurd hm (hnone m), fun m hm => absurd hm (hnone m)⟩
  rintro u ⟨e, he, _⟩
  cases he

theorem Counted.congr (h : p.Counted) {evs : List Event} (hlog : q.log = p.log ++ evs)
    (hevs : ∀ e ∈ evs, e.Unsent) (halloc : p.alloc ≤ q.alloc)
    (hheld : ∀ m ∈ q.held, p.IsNew m ∨ ∃ x ∈ p.held, x.uid = m.uid ∧ x.id = m.id) : q.Counted := by
  have hsent : ∀ u, wasSent u (p.log ++ evs) ↔ wasSent u p.log := by
    intro u
    rw [wasSent_append, or_iff_left (not_wasSent_of_unsent hevs)]
  have hids : assignedIds (p.log ++ evs) = assignedIds p.log := by
    rw [assignedIds_append, assignedIds_of_unsent hevs, List.append_nil]
  refine ⟨?_, ?_, ?_⟩
  · intro u hu
    rw [hlog, hsent] at hu
    exact lt_of_lt_of_le (h.known u hu) halloc
  · intro m hm hid
    rw [hlog, hsent]
    rcases hheld m hm with hnew | ⟨x, hx, hxu, hxi⟩
    · exact fun hs => absurd (h.known _ hs) (not_lt.mpr hnew.1)
    · rw [← hxu]
      exact h.unsent x hx (hxi.trans hid)
  · intro m hm j hj
    rcases hheld m hm with hnew | ⟨x, hx, hxu, hxi⟩
    · rw [hnew.2] at hj
      cases hj
    · obtain ⟨hs, k, hk, hjk⟩ := h.given x hx j (hxi.trans hj)
      rw [hxu] at hs hk
      refine ⟨by rw [hlog, hsent]; exact hs, k, ?_, hjk⟩
      rw [hlog, givenSince_append hs, assignedIds_of_unsent hevs, hids]
      exact hk

theorem not_wasSent_idEvents (p : Protocol) (m : MessageItem) (u : ℕ) : ¬ wasSent u (p.idEvents m) := by
  unfold idEvents
  rintro ⟨e, he, ht⟩
  split at he
  · obtain rfl := List.mem_singleton.mp he
    cases ht
  · cases he

theorem assignedIds_idEvents_some {m : MessageItem} {j : UInt8} (h : m.id = some j) :
    assignedIds (p.idEvents m) = [] := by
  rw [idEvents, h]
  rfl

/-- The log after an item was sent, as `log_write` has it. -/
def sentLog (p : Protocol) (m : MessageItem) (pkt : Packet) (now : TimePoint) (evs : List Event) : List Event :=
  p.log ++ (p.idEvents m ++ .transmitted m.uid pkt now :: evs)

section Sent

variable {m : MessageItem} {pkt : Packet} {now : TimePoint} {evs : List Event} (hevs : ∀ e ∈ evs, e.Unsent)

include hevs

theorem wasSent_sentLog (u : ℕ) : wasSent u (p.sentLog m pkt now evs) ↔ wasSent u p.log ∨ m.uid = u := by
  have hone : wasSent u [.transmitted m.uid pkt now] ↔ m.uid = u := by simp [wasSent, Event.transmits]
  rw [sentLog, wasSent_append, wasSent_append, or_iff_right (p.not_wasSent_idEvents m u), ← List.singleton_append,
    wasSent_append, or_iff_left (not_wasSent_of_unsent hevs), hone]

theorem assignedIds_transmitted : assignedIds (Event.transmitted m.uid pkt now :: evs) = [] := by
  change assignedIds evs = []
  exact assignedIds_of_unsent hevs

theorem assignedIds_sentLog :
    assignedIds (p.sentLog m pkt now evs) = assignedIds p.log ++ assignedIds (p.idEvents m) := by
  rw [sentLog, assignedIds_append, assignedIds_append, assignedIds_transmitted hevs, List.append_nil]

theorem givenSince_sentLog {u : ℕ} (hs : wasSent u p.log) :
    givenSince u (p.sentLog m pkt now evs) = givenSince u p.log + (assignedIds (p.idEvents m)).length := by
  rw [sentLog, givenSince_append hs, assignedIds_append, assignedIds_transmitted hevs, List.append_nil]

theorem Counted.given_sentLog (h : p.Counted) (hmem : m ∈ p.held)
    (htx : p.nextTxMsgId = UInt8.ofNat (assignedIds p.log).length) :
    ∃ k, k + givenSince m.uid (p.sentLog m pkt now evs) + 1 = (assignedIds (p.sentLog m pkt now evs)).length ∧
      (p.assignId m).1 = UInt8.ofNat k := by
  rw [assignedIds_sentLog hevs]
  cases hid : m.id with
  | some j =>
      obtain ⟨hs, k, hk, hjk⟩ := h.given m hmem j hid
      refine ⟨k, ?_, ?_⟩
      · rw [givenSince_sentLog hevs hs, assignedIds_idEvents_some hid, List.append_nil]
        exact hk
      · rw [assignId, hid]
        exact hjk
  | none =>
      have hns : ¬ wasSent m.uid (p.log ++ p.idEvents m) := by
        rw [wasSent_append, not_or]
        exact ⟨h.unsent m hmem hid, p.not_wasSent_idEvents m m.uid⟩
      refine ⟨(assignedIds p.log).length, ?_, ?_⟩
      · rw [sentLog, ← List.append_assoc, givenSince_first hns (by simp [Event.transmits]),
          assignedIds_transmitted hevs, List.length_append, idEvents, hid]
        rfl
      · rw [assignId, hid]
        exact htx

end Sent

theorem Counted.write (h : p.Counted) (qt : Qt) (hl : Ledger (p.books 0))
    (htx : p.nextTxMsgId = UInt8.ofNat (assignedIds p.log).length) (i : ℕ) (now₁ now₂ : TimePoint) :
    (p.write qt i now₁ now₂).1.Counted := by
  cases hm : p.posted[i]? with
  | none =>
      rw [write_of_none hm]
      exact h
  | some m =>
  have hmem : m ∈ p.held := mem_held.mpr (Or.inl (List.mem_of_getElem? hm))
  have halloc := (posts_write (X := fun _ => False) qt p i now₁ now₂).alloc
  have hold : ∀ x, x ∈ p.posted.eraseIdx i ∨ x ∈ p.waitingMessages.values → x ∈ p.held := fun x hx =>
    mem_held.mpr (hx.imp_left List.mem_of_mem_eraseIdx)
  cases hd : m.dataDevice with
  | none =>
      apply h.congr (log_write_dropped hm hd now₁ now₂) _ halloc
      · intro x hx
        rcases held_write hm hx with hx | ⟨d, hd', _⟩
        · exact Or.inr ⟨x, hold x hx, rfl, rfl⟩
        · rw [hd] at hd'
          cases hd'
      · intro e he
        exact unsent_of_calm e (calm_destroy m _ e he)
  | some d =>
  obtain ⟨pkt, evs, hlog, hevs⟩ := log_write unsent_of_calm qt hm hd now₁ now₂
  change _ = p.sentLog m pkt now₂ evs at hlog
  refine ⟨?_, ?_, ?_⟩
  · intro u hu
    rw [hlog, wasSent_sentLog hevs] at hu
    refine lt_of_lt_of_le (hu.elim (h.known u) fun he => ?_) halloc
    obtain ⟨y, hy, hym⟩ := exists_holding hmem
    exact he ▸ hym ▸ hl.uid_lt hy
  · intro x hx hid
    rcases held_write hm hx with hx | ⟨d', _, rfl⟩
    · rw [hlog, wasSent_sentLog hevs, not_or]
      exact ⟨h.unsent x (hold x hx) hid, (hl.uid_ne hm hx).symm⟩
    · cases hid
  · intro x hx j hj
    rw [hlog, wasSent_sentLog hevs]
    rcases held_write hm hx with hx | ⟨d', _, rfl⟩
    · obtain ⟨hs, k, hk, hjk⟩ := h.given x (hold x hx) j hj
      refine ⟨Or.inl hs, k, ?_, hjk⟩
      rw [givenSince_sentLog hevs hs, assignedIds_sentLog hevs, List.length_append]
      omega
    · have hjid : (p.assignId m).1 = j := Option.some.inj hj
      rw [← hjid]
      exact ⟨Or.inr rfl, h.given_sentLog hevs hmem htx⟩

/-- **An id that is given out while there is room is not the id of an item held.** -/
theorem Counted.id_ne (h : p.Counted) {x : MessageItem} (hx : x ∈ p.held)
    (hroom : x.id.isSome = true → givenSince x.uid p.log < 255) :
    x.id ≠ some (UInt8.ofNat (assignedIds p.log).length) := by
  intro hid
  obtain ⟨_, k, hk, hj⟩ := h.given x hx _ hid
  have hlt := hroom (by rw [hid]; rfl)
  have hmod := congrArg UInt8.toNat hj
  rw [UInt8.toNat_ofNat', UInt8.toNat_ofNat', ← hk] at hmod
  omega

end Protocol

/-! ## Distinct ids -/

/-- No two items held have the same id, and no item was evicted. -/
structure Distinct (b : Books) : Prop where
  ids : (heldIds b.bag).Nodup
  kept : ∀ u, .destroyed u .evicted ∉ b.log

namespace Distinct

open Books

variable {b b' : Books}

theorem emit {bag : Multiset Holding} {alloc alloc' : ℕ} {tx : UInt8} {w : Bool} {log : List Event}
    (h : Distinct ⟨bag, alloc, tx, w, log⟩) {e : Event} (he : ∀ u, e ≠ .destroyed u .evicted) :
    Distinct ⟨bag, alloc', tx, w, log ++ [e]⟩ := by
  refine ⟨h.ids, fun u hu => ?_⟩
  rcases List.mem_append.mp hu with hu | hu
  · exact h.kept u hu
  · exact he u (List.mem_singleton.mp hu).symm

theorem replace {bag : Multiset Holding} {alloc : ℕ} {tx : UInt8} {w : Bool} {log : List Event} {x y : Holding}
    (h : Distinct ⟨x ::ₘ bag, alloc, tx, w, log⟩) (hid : y.item.id = x.item.id) :
    Distinct ⟨y ::ₘ bag, alloc, tx, w, log⟩ := by
  refine ⟨?_, h.kept⟩
  simp only [heldIds_congr hid]
  exact h.ids

/-- **Every move but the assignment of an id keeps the ids distinct**: an item is evicted only by another
one with its id. -/
theorem move (h : Distinct b) (hm : Books.Move b b')
    (hn : (assignedIds b'.log).length ≤ (assignedIds b.log).length) : Distinct b' := by
  cases hm with
  | note e he => exact h.emit fun u heq => by have hs := he.subject_eq; rw [heq] at hs; cases hs
  | @create bag alloc tx w log m hu hid hd hf =>
      have h' : Distinct ⟨bag, alloc + 1, tx, w, log ++ [.created m]⟩ := h.emit fun _ => nofun
      refine ⟨?_, h'.kept⟩
      simp only [heldIds_cons_none (x := .idle m) hid]
      exact h'.ids
  | touch m m' hs hid => exact h.replace hid
  | @assign bag alloc tx w log pre m hid =>
      simp [assignedIds] at hn
  | park m hid => exact h.replace rfl
  | take m => exact h.replace rfl
  | @record bag alloc tx w log pre m e he =>
      refine (h.emit fun u heq => ?_).replace rfl
      obtain ⟨hid, y, hy, hye⟩ := he.justified u _ heq
      obtain ⟨i, hi⟩ := Option.isSome_iff_exists.mp hid
      have hnd : (heldIds (⟨m, false, pre⟩ ::ₘ bag)).Nodup := h.ids
      rw [heldIds_cons_some hi, Multiset.nodup_cons] at hnd
      exact hnd.1 ((Multiset.mem_filterMap _ _).mpr ⟨y, hy, hye.trans hi⟩)
  | @close bag alloc tx w log pre m ho =>
      refine ⟨Multiset.nodup_of_le ?_ h.ids, h.kept⟩
      exact Multiset.filterMap_le_filterMap _ (Multiset.le_cons_self _ _)

theorem steps (h : Distinct b) (hs : Steps b b')
    (hn : (assignedIds b'.log).length ≤ (assignedIds b.log).length) : Distinct b' := by
  induction hs with
  | refl => exact h
  | @tail c b' hs hm ih =>
      have hbefore := length_assignedIds_le (Steps.log_prefix hs)
      have hafter := length_assignedIds_le (Steps.log_prefix (.single hm))
      exact (ih (hafter.trans hn)).move hm (hn.trans hbefore)

theorem assign {bag : Multiset Holding} {alloc : ℕ} {tx : UInt8} {w : Bool} {log : List Event} {m : MessageItem}
    (h : Distinct ⟨.idle m ::ₘ bag, alloc, tx, w, log⟩) (hid : m.id = none) (hfree : tx ∉ heldIds bag) :
    Distinct ⟨.idle { m with id := some tx } ::ₘ bag, alloc, tx + 1, w, log ++ [.assigned tx m.payload]⟩ := by
  have h' : Distinct ⟨.idle m ::ₘ bag, alloc, tx, w, log ++ [.assigned tx m.payload]⟩ := h.emit fun _ => nofun
  refine ⟨?_, h'.kept⟩
  have hnd := h.ids
  simp only [heldIds_cons_none (x := .idle m) hid] at hnd
  simp only [heldIds_cons_some (x := .idle { m with id := some tx }) (i := tx) rfl]
  exact Multiset.nodup_cons.mpr ⟨hfree, hnd⟩

end Distinct

namespace Protocol

variable {qt : Qt} {p : Protocol} {a : Action}

/-- What holds in every state of a run with room. -/
structure Unmixed (p : Protocol) : Prop where
  waits : p.WaitingHaveIds
  ledger : Ledger (p.books 0)
  orderly : Orderly (p.books 0)
  counted : p.Counted
  distinct : Distinct (p.books 0)

theorem unmixed_fresh : fresh.Unmixed :=
  ⟨waitingHaveIds_fresh, ledger_fresh, orderly_fresh, counted_fresh, Multiset.nodup_zero, fun _ => List.not_mem_nil⟩

theorem Unmixed.id_free (h : p.Unmixed) {i : ℕ} {now₁ now₂ : TimePoint} {m : MessageItem}
    (hroom : p.Roomy (.write i now₁ now₂)) (hm : p.posted[i]? = some m) (hid : m.id = none) :
    ∀ x ∈ p.held, x.id ≠ some p.nextTxMsgId := by
  intro x hx
  have htx : p.nextTxMsgId = UInt8.ofNat (assignedIds p.log).length := h.orderly.nextTx_eq
  rw [htx]
  exact h.counted.id_ne hx (hroom m hm hid x hx)

theorem Unmixed.distinct_assigned (h : p.Unmixed) {i : ℕ} {m : MessageItem} (hm : p.posted[i]? = some m)
    (hid : m.id = none) (hne : ∀ x ∈ p.held, x.id ≠ some p.nextTxMsgId) :
    let q : Protocol := { p with posted := p.posted.eraseIdx i }
    Distinct ((q.assignId m).2.books (.idle { m with id := some (q.assignId m).1 } ::ₘ 0)) := by
  intro q
  have hbooks := books_taken hm
  have hfree : q.nextTxMsgId ∉ heldIds (0 + q.holdings) := by
    intro hmem
    obtain ⟨y, hy, hyid⟩ := (Multiset.mem_filterMap _ _).mp hmem
    have hy' : y ∈ (p.books 0).bag := by
      rw [← hbooks, books_cons]
      exact Multiset.mem_cons_of_mem hy
    exact hne y.item (mem_holdings hy').1 hyid
  let q' : Protocol := { q with
    nextTxMsgId := q.nextTxMsgId + 1
    log := q.log ++ [.assigned q.nextTxMsgId m.payload] }
  have hq : q.assignId m = (q.nextTxMsgId, q') := by
    simp only [assignId, hid, q']
  have hd := h.distinct
  rw [← hbooks, books_cons] at hd
  rw [hq, books_cons]
  exact hd.assign hid hfree

theorem Unmixed.distinct_write (h : p.Unmixed) (qt : Qt) {i : ℕ} {now₁ now₂ : TimePoint}
    (hroom : p.Roomy (.write i now₁ now₂)) : Distinct ((p.write qt i now₁ now₂).1.books 0) := by
  cases hm : p.posted[i]? with
  | none =>
      rw [write_of_none hm]
      exact h.distinct
  | some m =>
  have hsteps := steps_write qt h.waits i now₁ now₂
  cases hd : m.dataDevice with
  | none =>
      refine h.distinct.steps hsteps (le_of_eq ?_)
      change (assignedIds (p.write qt i now₁ now₂).1.log).length = (assignedIds p.log).length
      rw [log_write_dropped hm hd, assignedIds_append, assignedIds_of_unsent fun e he =>
        unsent_of_calm e (calm_destroy m _ e he), List.append_nil]
  | some d =>
  obtain ⟨pkt, evs, hlog, hevs⟩ := log_write unsent_of_calm qt hm hd now₁ now₂
  have hids : assignedIds (p.write qt i now₁ now₂).1.log = assignedIds p.log ++ assignedIds (p.idEvents m) :=
    hlog ▸ assignedIds_sentLog hevs
  cases hid : m.id with
  | some j =>
      refine h.distinct.steps hsteps (le_of_eq (congrArg List.length ?_))
      rw [assignedIds_idEvents_some hid, List.append_nil] at hids
      exact hids
  | none =>
      -- the assignment first, then the rest of the writing
      let q : Protocol := { p with posted := p.posted.eraseIdx i }
      have hassigned : Distinct ((q.assignId m).2.books (.idle { m with id := some (q.assignId m).1 } ::ₘ 0)) :=
        h.distinct_assigned hm hid (h.id_free hroom hm hid)
      have hw : (p.write qt i now₁ now₂).1 = (preparePacketToSend qt q m now₁ now₂).2 :=
        write_of_posted hm qt now₁ now₂
      rw [hw]
      refine hassigned.steps (steps_prepared qt (p := q) h.waits hd now₁ now₂) (le_of_eq ?_)
      change (assignedIds (preparePacketToSend qt q m now₁ now₂).2.log).length =
        (assignedIds (q.assignId m).2.log).length
      rw [← hw, hids]
      simp [assignId, idEvents, hid, q]

theorem Unmixed.step (h : p.Unmixed) (qt : Qt) (hroom : p.Roomy a) : (p.step qt a).1.Unmixed := by
  have hsteps := steps_step qt h.waits a
  by_cases hw : ∃ i now₁ now₂, a = .write i now₁ now₂
  · obtain ⟨i, now₁, now₂, rfl⟩ := hw
    exact ⟨h.waits.step qt _, h.ledger.steps hsteps, h.orderly.steps hsteps,
      h.counted.write qt h.ledger h.orderly.nextTx_eq i now₁ now₂, h.distinct_write qt hroom⟩
  · have hw' : ∀ i now₁ now₂, a ≠ .write i now₁ now₂ := fun i now₁ now₂ he => hw ⟨i, now₁, now₂, he⟩
    obtain ⟨evs, hlog, hevs⟩ := (unsent_step qt p hw').log
    refine ⟨h.waits.step qt _, h.ledger.steps hsteps, h.orderly.steps hsteps,
      h.counted.congr hlog hevs (posts_step qt p a).alloc (held_step qt p hw'),
      h.distinct.steps hsteps (le_of_eq (congrArg List.length ?_))⟩
    change assignedIds (p.step qt a).1.log = assignedIds p.log
    rw [hlog, assignedIds_append, assignedIds_of_unsent hevs, List.append_nil]

theorem Unmixed.run (h : p.Unmixed) (qt : Qt) {acts : List Action}
    (hroom : Along (fun p a => some (p.step qt a).1) Roomy p acts) : (p.run qt acts).Unmixed := by
  induction acts generalizing p with
  | nil => exact h
  | cons a acts ih => exact ih (h.step qt hroom.1) (hroom.2 _ rfl)

/-- **Ids of outstanding messages are unique as long as there is room**: in a run in which fewer than 255
ids are given out between the first transmission of an item and the giving out of an id while it is still
held, no id is given out that an item held has, and no item is evicted by another. -/
theorem ids_unique (qt : Qt) (acts : List Action)
    (hroom : Along (fun p a => some (p.step qt a).1) Roomy fresh acts) :
    (∀ pre i now₁ now₂ rest m, acts = pre ++ .write i now₁ now₂ :: rest →
        (fresh.run qt pre).posted[i]? = some m → m.id = none →
        ∀ x ∈ (fresh.run qt pre).held, x.id ≠ some (fresh.run qt pre).nextTxMsgId) ∧
      ∀ u, .destroyed u .evicted ∉ (fresh.run qt acts).log := by
  constructor
  · rintro pre i now₁ now₂ rest m rfl hm hid
    obtain ⟨hpre, hrest⟩ := along_append.mp hroom
    exact (unmixed_fresh.run qt hpre).id_free hrest.1 hm hid
  · exact (unmixed_fresh.run qt hroom).distinct.kept

/-- Three messages, the first of which waits for an answer. -/
def twoWaiting : List Action :=
  [.send 16 none [.timeout true 0 (seconds 20) (seconds 3)], .write 0 0 0, .send 17 none [], .write 0 1 1,
    .send 18 none [], .write 0 2 2]

theorem ids_unique_twoWaiting :
    (∀ pre i now₁ now₂ rest m, twoWaiting = pre ++ .write i now₁ now₂ :: rest →
        (fresh.run Qt.storing pre).posted[i]? = some m → m.id = none →
        ∀ x ∈ (fresh.run Qt.storing pre).held, x.id ≠ some (fresh.run Qt.storing pre).nextTxMsgId) ∧
      ∀ u, .destroyed u .evicted ∉ (fresh.run Qt.storing twoWaiting).log :=
  ids_unique Qt.storing twoWaiting (by decide)

/-- A message that waits for a hundred seconds, 255 others, and the 257th posted. -/
def longRun : List Action :=
  [.send 16 none [.timeout true 0 (seconds 100) (seconds 100)], .write 0 0 0] ++
    (List.replicate 255 [.send 16 none [], .write 0 0 0]).flatten ++ [.send 16 none []]

/-- The 257th message gets the id under which the first one waits. -/
theorem id_given_twice : ¬ ∀ (qt : Qt) (acts : List Action) (i : ℕ) (m : MessageItem),
    (fresh.run qt acts).posted[i]? = some m → m.id = none →
    ∀ x ∈ (fresh.run qt acts).waitingMessages.values, x.id ≠ some (fresh.run qt acts).nextTxMsgId := by
  intro h
  have hstate : ((fresh.run Qt.storing longRun).posted[0]?.map MessageItem.id = some none ∧
      (fresh.run Qt.storing longRun).waitingMessages.items.map (fun x => x.2.id) = [some 0]) ∧
      (fresh.run Qt.storing longRun).nextTxMsgId = 0 := by decide +kernel
  obtain ⟨⟨hposted, hwaiting⟩, htx⟩ := hstate
  obtain ⟨m, hm, hid⟩ := Option.map_eq_some_iff.mp hposted
  obtain ⟨x, hx, hxid⟩ := List.mem_map.mp (hwaiting ▸ List.mem_singleton.mpr rfl)
  refine h Qt.storing longRun 0 m hm hid x.2 (SortedMap.mem_values.mpr ⟨x.1, hx⟩) ?_
  rw [hxid, htx]

end Protocol

end HelpzNet
