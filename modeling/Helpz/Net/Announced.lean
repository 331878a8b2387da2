import Helpz.Net.Transfers

/-!
# The announced size of a transfer

A transfer is made with the full size its first packet announces; the entry does not remember it. Later
packets give a position and data of their own, which nothing compares with it.

* `Announcing`: an object, with the size each of its transfers was made with;
* `Within`: the data does not exceed the size, and what is not missing is within the data;
* `KeepsSize`, `EndsWithin`: what is expected of an action, and when it is so; `keepsSize_iff`: over runs.
-/

namespace HelpzNet

open HelpzLib

/-- The device holds at most `size` bytes, and all offsets that are not missing. -/
structure FragmentedMessage.Within (size : ℕ) (m : FragmentedMessage) : Prop where
  size_lt : size < protocolMaxMessageSize
  length_le : m.data.length ≤ size
  parts : 0 < size → Separated m.partVect
  written : ∀ k < size, k ∉ offsets m.partVect → k < m.data.length

namespace FragmentedMessage

variable {size : ℕ} {m m' : FragmentedMessage}

theorem within_new (id cmd : UInt8) (mx : ℕ) (h : size < protocolMaxMessageSize) :
    Within size (new id cmd mx size) := by
  refine ⟨h, Nat.zero_le _, fun hpos => separated_cons.mpr ⟨hpos, by simp, separated_nil⟩, fun k hk hno => ?_⟩
  exact absurd (mem_offsets_cons.mpr (Or.inl ⟨Nat.zero_le k, hk⟩)) hno

theorem Within.congr (h : Within size m) (h1 : m'.data = m.data) (h2 : m'.partVect = m.partVect) :
    Within size m' :=
  ⟨h.size_lt, h1 ▸ h.length_le, h2 ▸ h.parts, by rw [h1, h2]; exact h.written⟩

/-- **Data that ends within the size keeps the transfer within it.** -/
theorem Within.addData (h : Within size m) {pos : ℕ} {bytes : Bytes} (hne : bytes ≠ [])
    (hle : pos + bytes.length ≤ size) : Within size (m.addData pos bytes) := by
  have hlen := List.length_pos_iff.mpr hne
  have hsize := h.size_lt
  have hsep := h.parts (by omega)
  have hmod : (pos + bytes.length) % 2 ^ 32 = pos + bytes.length := by
    unfold protocolMaxMessageSize at hsize
    exact Nat.mod_eq_of_lt (by omega)
  have hlt : pos < pos + bytes.length := by omega
  have hdata : (m.addData pos bytes).data.length = max m.data.length (pos + bytes.length) :=
    length_writeAt 0 m.data pos bytes
  refine ⟨hsize, ?_, fun _ => ?_, fun k hk hno => ?_⟩
  · rw [hdata]
    exact max_le h.length_le hle
  · simp only [FragmentedMessage.addData, hmod]
    exact separated_removeFromPartVect hsep hlt
  · simp only [FragmentedMessage.addData, hmod] at hno
    rw [mem_offsets_removeFromPartVect hsep hlt] at hno
    rw [hdata]
    by_cases hin : k ∈ offsets m.partVect
    · have hpart : pos ≤ k ∧ k < pos + bytes.length := not_not.mp fun hn => hno ⟨hin, hn⟩
      exact lt_max_of_lt_right hpart.2
    · exact lt_max_of_lt_left (h.written k hk hin)

/-- **A transfer without a missing part has exactly the announced size.** -/
theorem Within.length_eq (h : Within size m) (he : m.isPartsEmpty = true) : m.data.length = size := by
  have hnil : m.partVect = [] := List.isEmpty_iff.mp he
  refine le_antisymm h.length_le ?_
  by_contra hlt
  have hlast : size - 1 ∉ offsets m.partVect := by
    rw [hnil, offsets_nil]
    exact Set.notMem_empty _
  have := h.written (size - 1) (by omega) hlast
  omega

end FragmentedMessage

/-- A protocol object, and for each transfer the full size announced by the packet that made its entry. -/
structure Announcing where
  node : Protocol
  size : UInt8 → ℕ

namespace Announcing

open Protocol FragmentedMessage

def fresh : Announcing := ⟨.fresh, fun _ => 0⟩

/-- The announced sizes after an action: a fragment for which there is no entry announces one. -/
def announce (qt : Qt) (s : Announcing) : Action → UInt8 → ℕ
  | .receive pkt env =>
      match pkt.content qt with
      | some (.fragment _ fullSize _ _ _) =>
          if ((s.node.afterTest pkt env).fragmentedMessages pkt.id).isNone then
            Function.update s.size pkt.id fullSize
          else s.size
      | _ => s.size
  | _ => s.size

/-- One action. -/
def step (qt : Qt) (s : Announcing) (act : Action) : Announcing :=
  ⟨(s.node.step qt act).1, s.announce qt act⟩

/-- After the action no transfer has more data than announced, and if the action completes one, the data
handed over has exactly the announced size. -/
structure KeepsSize (qt : Qt) (s : Announcing) (act : Action) : Prop where
  bounded : ∀ x m, (s.step qt act).node.fragmentedMessages x = some m →
    m.data.length ≤ (s.step qt act).size x
  exact : ∀ pkt env, act = .receive pkt env → Completes qt s.node pkt env →
    ∃ data, handovers (s.step qt act).node.log = handovers s.node.log ++ [(pkt.id, data)] ∧
      data.length = (s.step qt act).size pkt.id

/-- The data that the action adds to a transfer ends within the announced size. -/
def EndsWithin (qt : Qt) (s : Announcing) : Action → Prop
  | .receive pkt env => ∀ a fullSize pos mx data, Takes qt s.node pkt env a fullSize pos mx data → data ≠ [] →
      pos + data.length ≤ s.announce qt (.receive pkt env) pkt.id
  | _ => True

/-- Every transfer is within its announced size. -/
def AllWithin (s : Announcing) : Prop := ∀ x m, s.node.fragmentedMessages x = some m → Within (s.size x) m

variable {qt : Qt} {s : Announcing} {pkt : Packet} {env : Env} {a : Option UInt8} {fullSize pos mx : ℕ}
  {data : Bytes}

theorem announce_of_entry {x : UInt8} {m : FragmentedMessage}
    (h : (s.node.afterTest pkt env).fragmentedMessages x = some m) :
    s.announce qt (.receive pkt env) x = s.size x := by
  have hupdate : ((s.node.afterTest pkt env).fragmentedMessages pkt.id).isNone = true → x ≠ pkt.id := by
    rintro hnone rfl
    rw [h] at hnone
    cases hnone
  simp only [announce]
  cases pkt.content qt with
  | none => rfl
  | some c =>
      cases c with
      | fragment a fullSize pos mx data =>
          simp only
          split_ifs with hnone
          · exact Function.update_of_ne (hupdate hnone) _ _
          · rfl
      | _ => rfl

theorem announce_of_no_arrival {act : Action} (h : ∀ pkt env, act ≠ .receive pkt env) :
    s.announce qt act = s.size := by
  cases act with
  | receive pkt env => exact absurd rfl (h pkt env)
  | _ => rfl

theorem within_fragmentEntry (h : s.AllWithin) (ht : Takes qt s.node pkt env a fullSize pos mx data) :
    Within (s.announce qt (.receive pkt env) pkt.id)
      ((s.node.afterTest pkt env).fragmentEntry pkt.id pkt.cmd mx fullSize) := by
  unfold fragmentEntry
  cases he : (s.node.afterTest pkt env).fragmentedMessages pkt.id with
  | none =>
      have hnew : s.announce qt (.receive pkt env) pkt.id = fullSize := by
        simp only [announce, ht.content, he, Option.isNone_none, if_true, Function.update_self]
      rw [hnew]
      exact within_new _ _ _ ht.size
  | some m =>
      rw [announce_of_entry he]
      exact h pkt.id m (entry_of_afterTest he)

theorem within_entryWith (h : s.AllWithin) (hw : s.EndsWithin qt (.receive pkt env))
    (ht : Takes qt s.node pkt env a fullSize pos mx data) :
    Within (s.announce qt (.receive pkt env) pkt.id) (s.node.entryWith pkt env fullSize pos mx data) := by
  have hentry := within_fragmentEntry h ht
  unfold entryWith grownEntry addFragment
  split_ifs with hdata
  · exact hentry.congr rfl rfl
  · have hopened : Within (s.announce qt (.receive pkt env) pkt.id)
        { (s.node.afterTest pkt env).fragmentEntry pkt.id pkt.cmd mx fullSize with isOpen := true } :=
      hentry.congr rfl rfl
    exact hopened.addData hdata (hw a fullSize pos mx data ht hdata)

/-- **An action whose data ends within the announced size keeps all transfers within theirs.** -/
theorem AllWithin.step (h : s.AllWithin) {act : Action} (hw : s.EndsWithin qt act) : (s.step qt act).AllWithin := by
  intro x m' hm
  by_cases ha : ∃ pkt env, act = .receive pkt env
  · obtain ⟨pkt, env, rfl⟩ := ha
    rcases entry_receive hm with hx | ⟨a, fullSize, pos, mx, data, rfl, ht, h1, h2, _⟩
    · change Within (s.announce qt (.receive pkt env) x) m'
      rw [announce_of_entry hx]
      exact h x m' (entry_of_afterTest hx)
    · exact (within_entryWith h hw ht).congr h1 h2
  · have hno : ∀ pkt env, act ≠ .receive pkt env := fun pkt env he => ha ⟨pkt, env, he⟩
    obtain ⟨m, hx, hs⟩ := entry_of_no_arrival hno hm
    change Within (s.announce qt act x) m'
    rw [announce_of_no_arrival hno]
    exact (h x m hx).congr hs.data hs.partVect

theorem keepsSize_of_endsWithin (h : s.AllWithin) {act : Action} (hw : s.EndsWithin qt act) :
    KeepsSize qt s act := by
  refine ⟨fun x m hm => ((h.step hw) x m hm).length_le, ?_⟩
  rintro pkt env rfl ⟨a, fullSize, pos, mx, data, ht, he⟩
  exact ⟨_, (ht.step_complete he).2, (within_entryWith h hw ht).length_eq he⟩

theorem le_length_entryWith (p : Protocol) (pkt : Packet) (env : Env) (fullSize pos mx : ℕ)
    (hdata : data ≠ []) : pos + data.length ≤ (p.entryWith pkt env fullSize pos mx data).data.length := by
  rw [entryWith, grownEntry, addFragment, if_neg hdata]
  simp only [FragmentedMessage.addData, length_writeAt]
  exact le_max_right _ _

theorem endsWithin_of_keepsSize {act : Action} (h : KeepsSize qt s act) : s.EndsWithin qt act := by
  cases act with
  | receive pkt env =>
      intro a fullSize pos mx data ht hdata
      refine (le_length_entryWith s.node pkt env fullSize pos mx hdata).trans ?_
      cases he : (s.node.entryWith pkt env fullSize pos mx data).isPartsEmpty with
      | true =>
          obtain ⟨data', hhand, hlen⟩ := h.exact pkt env rfl ⟨a, fullSize, pos, mx, data, ht, he⟩
          have hsame := hhand.symm.trans (ht.step_complete he).2
          obtain ⟨_, rfl⟩ := Prod.mk.inj (List.singleton_inj.mp (List.append_cancel_left hsame))
          exact le_of_eq hlen
      | false =>
          have hentry := (ht.step_goesOn he).1
          refine h.bounded pkt.id (nextEntry _ env.now₂) ?_
          change (s.node.step qt (.receive pkt env)).1.fragmentedMessages pkt.id = _
          rw [hentry, Function.update_self]
  | _ => exact trivial

/-- **A transfer keeps to its announced size, in a run, exactly if the data of every fragment that is taken
into it ends within that size.** -/
theorem keepsSize_iff (qt : Qt) (acts : List Action) :
    Along (fun s act => some (step qt s act)) (KeepsSize qt) fresh acts ↔
      Along (fun s act => some (step qt s act)) (EndsWithin qt) fresh acts := by
  refine along_congr (I := AllWithin) (fun s act h => ?_) (fun s act h hk => ?_) ?_
  · exact ⟨endsWithin_of_keepsSize, keepsSize_of_endsWithin h⟩
  · exact h.step (endsWithin_of_keepsSize hk)
  · intro x m hm
    cases hm

/-- **Nothing keeps a transfer to its size**: one byte is announced, and four are handed over. -/
theorem exceeds_announced : ¬ ∀ (qt : Qt) (acts : List Action),
    Along (fun s act => some (step qt s act)) (KeepsSize qt) fresh acts := by
  intro h
  let pkt : Packet := ⟨0, 16, Flag.fragment, toBE 4 1 ++ (toBE 4 0 ++ [1, 2, 3, 4])⟩
  have hk := (h Qt.storing [.receive pkt .quiet]).1
  have hw := endsWithin_of_keepsSize hk none 1 0 0 [1, 2, 3, 4]
    ⟨by decide, by decide, by decide, by decide⟩ (by decide)
  revert hw
  decide

end Announcing

end HelpzNet
