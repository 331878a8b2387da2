import Helpz.Net.Outcome
import Mathlib.Data.List.Nodup

/-!
# Ids, devices and the writer

A second invariant of the books, again checked on the elementary moves. Ids are given out in order
from `0` on, an item with an id was assigned it together with its payload, and as long as no id is
used twice no item is evicted by another. Every item has a device and there is a writer, so that
none is rejected.
-/

namespace HelpzNet

open HelpzLib

/-- The ids given out, in order. -/
def assignedIds (log : List Event) : List UInt8 :=
  log.filterMap fun
    | .assigned id _ => some id
    | _ => none

@[simp] theorem assignedIds_append (l l' : List Event) :
    assignedIds (l ++ l') = assignedIds l ++ assignedIds l' := List.filterMap_append

theorem assignedIds_of_plain {e : Event} (h : e.Plain) : assignedIds [e] = [] := by
  cases e <;> first | rfl | exact h.elim

theorem assignedIds_of_subject {e : Event} {u : ℕ} (h : e.subject = some u) : assignedIds [e] = [] := by
  cases e <;> first | rfl | cases h

theorem nodup_ids {n : ℕ} (h : n ≤ 256) : ((List.range n).map UInt8.ofNat).Nodup := by
  refine List.Nodup.map_on (fun a ha b hb hab => ?_) List.nodup_range
  rw [List.mem_range] at ha hb
  have := congrArg UInt8.toNat hab
  rwa [UInt8.toNat_ofNat_of_lt' (by change a < 256; omega),
    UInt8.toNat_ofNat_of_lt' (by change b < 256; omega)] at this

/-- The ids of the items held. -/
def heldIds (bag : Multiset Holding) : Multiset UInt8 := bag.filterMap fun x => x.item.id

theorem heldIds_cons_none {x : Holding} (h : x.item.id = none) (bag : Multiset Holding) :
    heldIds (x ::ₘ bag) = heldIds bag := Multiset.filterMap_cons_none x bag h

theorem heldIds_cons_some {x : Holding} {i : UInt8} (h : x.item.id = some i) (bag : Multiset Holding) :
    heldIds (x ::ₘ bag) = i ::ₘ heldIds bag := Multiset.filterMap_cons_some _ x bag h

theorem heldIds_congr {x y : Holding} (h : y.item.id = x.item.id) (bag : Multiset Holding) :
    heldIds (y ::ₘ bag) = heldIds (x ::ₘ bag) := by
  cases hx : x.item.id with
  | none => rw [heldIds_cons_none hx, heldIds_cons_none (h.trans hx)]
  | some i => rw [heldIds_cons_some hx, heldIds_cons_some (h.trans hx)]

/-- **Ids, devices and the writer are in order.** -/
structure Orderly (b : Books) : Prop where
  hasWriter : b.hasWriter = true
  device : ∀ x ∈ b.bag, x.item.dataDevice.isSome
  sent : ∀ x ∈ b.bag, ∀ i, x.item.id = some i → .assigned i x.item.payload ∈ b.log
  ids_le : heldIds b.bag ≤ ↑(assignedIds b.log)
  assigned_eq : assignedIds b.log = (List.range (assignedIds b.log).length).map UInt8.ofNat
  nextTx_eq : b.nextTx = UInt8.ofNat (assignedIds b.log).length
  not_rejected : ∀ u, .destroyed u .rejected ∉ b.log
  not_evicted : (assignedIds b.log).length ≤ 256 → ∀ u, .destroyed u .evicted ∉ b.log

namespace Orderly

open Books

variable {bag : Multiset Holding} {alloc alloc' : ℕ} {tx : UInt8} {w : Bool} {log : List Event}

theorem nodup {b : Books} (h : Orderly b) (hn : (assignedIds b.log).length ≤ 256) :
    (heldIds b.bag).Nodup := by
  refine Multiset.nodup_of_le h.ids_le ?_
  rw [Multiset.coe_nodup, h.assigned_eq]
  exact nodup_ids hn

theorem not_evicts {x : Holding} (h : Orderly ⟨x ::ₘ bag, alloc, tx, w, log⟩)
    (hn : (assignedIds log).length ≤ 256) (hx : x.item.id.isSome) : ∀ y ∈ bag, y.item.id ≠ x.item.id := by
  intro y hy he
  obtain ⟨i, hi⟩ := Option.isSome_iff_exists.mp hx
  have hnd : (heldIds (x ::ₘ bag)).Nodup := h.nodup hn
  rw [heldIds_cons_some hi, Multiset.nodup_cons] at hnd
  exact hnd.1 ((Multiset.mem_filterMap _ _).mpr ⟨y, hy, he.trans hi⟩)

theorem emit (h : Orderly ⟨bag, alloc, tx, w, log⟩) {e : Event} (he : assignedIds [e] = [])
    (hr : ∀ u, e ≠ .destroyed u .rejected)
    (hv : (assignedIds log).length ≤ 256 → ∀ u, e ≠ .destroyed u .evicted) :
    Orderly ⟨bag, alloc', tx, w, log ++ [e]⟩ := by
  have hids : assignedIds (log ++ [e]) = assignedIds log := by rw [assignedIds_append, he, List.append_nil]
  have hnot : ∀ {x : Event}, x ∉ log → e ≠ x → x ∉ log ++ [e] := fun h1 h2 hmem => by
    rcases List.mem_append.mp hmem with h3 | h3
    · exact h1 h3
    · exact h2 (List.mem_singleton.mp h3).symm
  refine ⟨h.hasWriter, h.device, fun x hx i hi => List.mem_append_left _ (h.sent x hx i hi), ?_, ?_, ?_,
    fun u => hnot (h.not_rejected u) (hr u), fun hn u => ?_⟩
  · simpa only [hids] using h.ids_le
  · simpa only [hids] using h.assigned_eq
  · simpa only [hids] using h.nextTx_eq
  · simp only [hids] at hn
    exact hnot (h.not_evicted hn u) (hv hn u)

theorem replace {x y : Holding} (h : Orderly ⟨x ::ₘ bag, alloc, tx, w, log⟩) (hid : y.item.id = x.item.id)
    (hs : x.item.SameMessage y.item) : Orderly ⟨y ::ₘ bag, alloc, tx, w, log⟩ := by
  obtain ⟨hd, hdr⟩ := Multiset.forall_mem_cons.mp h.device
  obtain ⟨hst, hstr⟩ := Multiset.forall_mem_cons.mp h.sent
  refine ⟨h.hasWriter, Multiset.forall_mem_cons.mpr ⟨hs.device ▸ hd, hdr⟩,
    Multiset.forall_mem_cons.mpr ⟨fun i hi => ?_, hstr⟩, ?_, h.assigned_eq, h.nextTx_eq, h.not_rejected,
    h.not_evicted⟩
  · rw [hs.payload]
    exact hst i (hid ▸ hi)
  · simp only [heldIds_congr hid]
    exact h.ids_le

theorem close {x : Holding} (h : Orderly ⟨x ::ₘ bag, alloc, tx, w, log⟩) :
    Orderly ⟨bag, alloc, tx, w, log⟩ := by
  refine ⟨h.hasWriter, (Multiset.forall_mem_cons.mp h.device).2, (Multiset.forall_mem_cons.mp h.sent).2,
    le_trans ?_ h.ids_le, h.assigned_eq, h.nextTx_eq, h.not_rejected, h.not_evicted⟩
  exact Multiset.filterMap_le_filterMap _ (Multiset.le_cons_self _ _)

/-- **Every elementary move keeps ids, devices and the writer in order.** -/
theorem move {b b' : Books} (h : Orderly b) (hm : Books.Move b b') : Orderly b' := by
  cases hm with
  | note e he =>
      have hs := he.subject_eq
      exact h.emit (assignedIds_of_plain he) (fun u heq => by rw [heq] at hs; cases hs)
        fun _ u heq => by rw [heq] at hs; cases hs
  | @create bag alloc tx w log m hu hid hd hf =>
      have h' : Orderly ⟨bag, alloc + 1, tx, w, log ++ [.created m]⟩ :=
        h.emit rfl (fun _ => nofun) fun _ _ => nofun
      refine ⟨h'.hasWriter, Multiset.forall_mem_cons.mpr ⟨hd, h'.device⟩,
        Multiset.forall_mem_cons.mpr ⟨fun i hi => (nomatch hid.symm.trans hi), h'.sent⟩, ?_, h'.assigned_eq,
        h'.nextTx_eq, h'.not_rejected, h'.not_evicted⟩
      simp only [heldIds_cons_none (x := .idle m) hid]
      exact h'.ids_le
  | touch m m' hs hid => exact h.replace hid hs
  | @assign bag alloc tx w log pre m hid =>
      have hids : assignedIds (log ++ [.assigned tx m.payload]) = assignedIds log ++ [tx] := by
        simp [assignedIds]
      have hlen : (assignedIds (log ++ [.assigned tx m.payload])).length = (assignedIds log).length + 1 := by
        rw [hids, List.length_append, List.length_singleton]
      have hnot : ∀ {u why}, .destroyed u why ∉ log → .destroyed u why ∉ log ++ [.assigned tx m.payload] := by
        intro u why h1 h2
        rcases List.mem_append.mp h2 with h3 | h3
        · exact h1 h3
        · cases List.mem_singleton.mp h3
      obtain ⟨hd, hdr⟩ := Multiset.forall_mem_cons.mp h.device
      obtain ⟨_, hstr⟩ := Multiset.forall_mem_cons.mp h.sent
      refine ⟨h.hasWriter, Multiset.forall_mem_cons.mpr ⟨hd, hdr⟩, Multiset.forall_mem_cons.mpr ⟨fun i hi => ?_,
        fun x hx i hi => List.mem_append_left _ (hstr x hx i hi)⟩, ?_, ?_, ?_,
        fun u => hnot (h.not_rejected u), fun hn u => hnot (h.not_evicted ?_ u)⟩
      · obtain rfl : tx = i := Option.some.inj hi
        exact List.mem_append_right _ (List.mem_singleton.mpr rfl)
      · have hle : heldIds (⟨m, false, pre⟩ ::ₘ bag) ≤ ↑(assignedIds log) := h.ids_le
        rw [heldIds_cons_none hid] at hle
        change heldIds (⟨{ m with id := some tx }, false, pre⟩ ::ₘ bag) ≤ _
        rw [heldIds_cons_some (i := tx) rfl]
        simp only [hids, ← Multiset.coe_add, Multiset.coe_singleton]
        rw [← Multiset.singleton_add, add_comm]
        exact add_le_add hle le_rfl
      · simp only [hids, List.length_append, List.length_singleton, List.range_succ, List.map_append,
          List.map_singleton]
        rw [← h.assigned_eq]
        exact congrArg (assignedIds log ++ [·]) h.nextTx_eq
      · simp only [hlen, UInt8.ofNat_add]
        exact congrArg (· + 1) h.nextTx_eq
      · simp only [hlen] at hn
        simp only
        omega
  | park m hid => exact h.replace rfl (.refl m)
  | take m => exact h.replace rfl (.refl m)
  | @record bag alloc tx w log pre m e he =>
      refine (h.emit (assignedIds_of_subject he.subject) (fun u heq => ?_) fun hn u heq => ?_).replace rfl
        (.refl m)
      · rcases he.justified u _ heq with hw | hd
        · have hw' : w = true := h.hasWriter
          rw [hw] at hw'
          cases hw'
        · have := h.device ⟨m, false, pre⟩ (Multiset.mem_cons_self _ _)
          rw [show (Holding.mk m false pre).item.dataDevice = none from hd] at this
          cases this
      · obtain ⟨hid, y, hy, hye⟩ := he.justified u _ heq
        exact h.not_evicts hn hid y hy hye
  | close m ho => exact h.close

theorem steps {b b' : Books} (h : Orderly b) (hs : Steps b b') : Orderly b' := by
  induction hs with
  | refl => exact h
  | tail _ hm ih => exact ih.move hm

end Orderly

theorem orderly_fresh : Orderly (Protocol.fresh.books 0) :=
  ⟨rfl, fun x hx => absurd hx (Multiset.notMem_zero x), fun x hx => absurd hx (Multiset.notMem_zero x), le_rfl,
    rfl, rfl, fun _ => List.not_mem_nil, fun _ _ => List.not_mem_nil⟩

/-- **Ids, devices and the writer are in order in every run.** -/
theorem orderly_run (qt : Qt) (acts : List Action) : Orderly ((Protocol.fresh.run qt acts).books 0) :=
  orderly_fresh.steps (Protocol.steps_run qt Protocol.waitingHaveIds_fresh acts)

end HelpzNet
