import Helpz.Net.Defs
import Helpz.Lib.Store
import Helpz.Lib.Parts

/-!
# Messages received in fragments

`Fragmented_Message` (`net_fragmented_message.cpp`): the data device a large message is collected
in and the list of the parts that are still missing.

* `removeFromPartVect`: the sweep over the list of missing parts, branch by branch as the source
  has it; `offsets_removeFromPartVect` shows that it is set difference and
  `separated_removeFromPartVect` that the list stays in normal form.
* `FragmentedMessage.addData`, `getNextPart`.
* `Collects ref m`: the bytes received so far are those of `ref`; preserved by `addData` of a slice
  of `ref` (`Collects.addData`), and `Collects.eq` once no part is missing.
-/

namespace HelpzNet

open HelpzLib

/-- `Fragmented_Message::remove_from_part_vect`: take `[s, e)` out of the list of parts. -/
def removeFromPartVect : List (ℕ × ℕ) → ℕ → ℕ → List (ℕ × ℕ)
  | [], _, _ => []
  | p :: l, s, e =>
      -- the whole new part lies before this one
      if e ≤ p.1 then p :: l
      -- the new part lies after this one
      else if s > p.2 then p :: removeFromPartVect l s e
      else if s < p.1 then
        if e > p.2 then removeFromPartVect l p.2 e
        else if e = p.2 then l else (e, p.2) :: l
      else if s > p.1 then
        if e > p.2 then (p.1, s) :: removeFromPartVect l p.2 e
        else if e < p.2 then (p.1, s) :: (e, p.2) :: l else (p.1, s) :: l
      else
        if e > p.2 then removeFromPartVect l p.2 e
        else if e < p.2 then (e, p.2) :: l else l

theorem lt_of_mem_removeFromPartVect {b : ℕ} (l : List (ℕ × ℕ)) (s e : ℕ)
    (hl : ∀ q ∈ l, b < q.1) (hs : Separated l) (he : s < e) :
    ∀ q ∈ removeFromPartVect l s e, b < q.1 := by
  induction l generalizing s with
  | nil => simp [removeFromPartVect]
  | cons p l ih =>
      obtain ⟨hp, hgap, hsl⟩ := separated_cons.mp hs
      have hpb := hl p List.mem_cons_self
      have hlb : ∀ q ∈ l, b < q.1 := fun q hq => hl q (List.mem_cons_of_mem _ hq)
      simp only [removeFromPartVect]
      split_ifs with h1 h2 h3 h4 h5 h6 h7 h8 h9 h10
      all_goals first
        | exact hl
        | exact hlb
        | exact ih _ hlb hsl (by omega)
        | skip
      all_goals
        intro q hq
        simp only [List.mem_cons] at hq
      · rcases hq with rfl | hq
        · exact hpb
        · exact ih _ hlb hsl he q hq
      · rcases hq with rfl | hq
        · change b < e; omega
        · exact hlb q hq
      · rcases hq with rfl | hq
        · exact hpb
        · exact ih _ hlb hsl (by omega) q hq
      · rcases hq with rfl | rfl | hq
        · exact hpb
        · change b < e; omega
        · exact hlb q hq
      · rcases hq with rfl | hq
        · exact hpb
        · exact hlb q hq
      · rcases hq with rfl | hq
        · change b < e; omega
        · exact hlb q hq

/-- **The list of parts stays in normal form.** -/
theorem separated_removeFromPartVect {l : List (ℕ × ℕ)} (hs : Separated l) {s e : ℕ} (he : s < e) :
    Separated (removeFromPartVect l s e) := by
  induction l generalizing s with
  | nil => exact separated_nil
  | cons p l ih =>
      obtain ⟨hp, hgap, hsl⟩ := separated_cons.mp hs
      have hlt : ∀ {b s' : ℕ}, b ≤ p.2 → s' < e → ∀ q ∈ removeFromPartVect l s' e, b < q.1 :=
        fun hb hs' => lt_of_mem_removeFromPartVect l _ e
          (fun q hq => lt_of_le_of_lt hb (hgap q hq)) hsl hs'
      simp only [removeFromPartVect]
      split_ifs with h1 h2 h3 h4 h5 h6 h7 h8 h9 h10
      · exact hs
      · exact separated_cons.mpr ⟨hp, hlt le_rfl he, ih hsl he⟩
      · exact ih hsl (by omega)
      · exact hsl
      · exact separated_cons.mpr ⟨by change e < p.2; omega, hgap, hsl⟩
      · exact separated_cons.mpr ⟨h6, hlt (by change s ≤ p.2; omega) (by omega), ih hsl (by omega)⟩
      · refine separated_cons.mpr ⟨h6, fun q hq => ?_,
          separated_cons.mpr ⟨h8, hgap, hsl⟩⟩
        rcases List.mem_cons.mp hq with rfl | hq
        · exact he
        · have := hgap q hq; change s < q.1; omega
      · exact separated_cons.mpr ⟨h6, fun q hq => by have := hgap q hq; change s < q.1; omega, hsl⟩
      · exact ih hsl (by omega)
      · exact separated_cons.mpr ⟨h10, hgap, hsl⟩
      · exact hsl

/-- **The sweep computes set difference.** -/
theorem mem_offsets_removeFromPartVect {l : List (ℕ × ℕ)} (hs : Separated l) {s e : ℕ} (he : s < e)
    (k : ℕ) : k ∈ offsets (removeFromPartVect l s e) ↔ k ∈ offsets l ∧ ¬ (s ≤ k ∧ k < e) := by
  induction l generalizing s with
  | nil => simp [removeFromPartVect]
  | cons p l ih =>
      obtain ⟨hp, hgap, hsl⟩ := separated_cons.mp hs
      -- the later parts lie behind this one, so only its own end matters to them
      have hk : k ∈ offsets l → p.2 < k := lt_of_mem_offsets hgap
      simp only [removeFromPartVect]
      split_ifs with h1 h2 h3 h4 h5 h6 h7 h8 h9 h10
      all_goals simp only [mem_offsets_cons]
      all_goals by_cases hkl : k ∈ offsets l
      all_goals try have hk' := hk hkl
      all_goals try rw [ih hsl (by omega)]
      all_goals simp only [hkl, true_and, false_and, or_true, or_false, true_iff, false_iff]
      all_goals omega

theorem offsets_removeFromPartVect {l : List (ℕ × ℕ)} (hs : Separated l) {s e : ℕ} (he : s < e) :
    offsets (removeFromPartVect l s e) = offsets l \ Set.Ico s e := by
  ext k
  exact mem_offsets_removeFromPartVect hs he k

/-- `Fragmented_Message`. The device is its content, whether it is a file, and whether it is open. -/
structure FragmentedMessage where
  id : UInt8
  cmd : UInt8
  maxFragmentSize : ℕ
  data : Bytes
  isFile : Bool
  isOpen : Bool
  lastPartTime : TimePoint
  partVect : List (ℕ × ℕ)
  deriving DecidableEq, Repr

namespace FragmentedMessage

/-- The constructor: everything is missing. Large messages are collected in a file. -/
def new (id cmd : UInt8) (maxFragmentSize fullSize : ℕ) : FragmentedMessage where
  id := id
  cmd := cmd
  maxFragmentSize := maxFragmentSize
  data := []
  isFile := decide (1000000 ≤ fullSize)
  isOpen := false
  lastPartTime := 0
  partVect := [(0, fullSize)]

/-- `Fragmented_Message::add_data`; `pos` and the length are 32-bit, and so is their sum. -/
def addData (m : FragmentedMessage) (pos : ℕ) (bytes : Bytes) : FragmentedMessage :=
  { m with
    partVect := removeFromPartVect m.partVect pos ((pos + bytes.length) % 2 ^ 32)
    data := writeAt 0 m.data pos bytes }

/-- `Fragmented_Message::is_parts_empty`. -/
def isPartsEmpty (m : FragmentedMessage) : Bool := m.partVect.isEmpty

/-- `Fragmented_Message::get_next_part`. -/
def getNextPart (m : FragmentedMessage) : ℕ × ℕ :=
  match m.partVect with
  | [] => (0, 0)
  | p :: _ => if p.2 - p.1 > m.maxFragmentSize then (p.1, m.maxFragmentSize) else (p.1, p.2 - p.1)

/-- The message is collecting `ref`: the list of missing parts is in normal form and within `ref`,
and what is not missing has been written as in `ref`. -/
structure Collects (ref : Bytes) (m : FragmentedMessage) : Prop where
  parts : Separated m.partVect
  bound : ∀ k ∈ offsets m.partVect, k < ref.length
  agrees : Agrees ref m.data {k | k < ref.length ∧ k ∉ offsets m.partVect}

theorem collects_new (id cmd : UInt8) (size : ℕ) {ref : Bytes} (h : ref ≠ []) :
    Collects ref (new id cmd size ref.length) := by
  have hpos := List.length_pos_iff.mpr h
  have hoff : ∀ k, k ∈ offsets [(0, ref.length)] ↔ k < ref.length := by
    intro k
    rw [mem_offsets_cons]
    simp
  refine ⟨separated_cons.mpr ⟨hpos, by simp, separated_nil⟩, fun k hk => (hoff k).mp hk,
    by simp [new], fun k hk => absurd ((hoff k).mpr hk.1) hk.2⟩

/-- **Adding a slice of the payload keeps collecting it.** -/
theorem Collects.addData {ref : Bytes} {m : FragmentedMessage} (h : Collects ref m) {pos n : ℕ}
    (hn : 0 < n) (hle : pos + n ≤ ref.length) (hlt : ref.length < 2 ^ 32) :
    Collects ref (m.addData pos ((ref.drop pos).take n)) := by
  have hlen : ((ref.drop pos).take n).length = n := by
    rw [List.length_take, List.length_drop]; omega
  have hmod : (pos + n) % 2 ^ 32 = pos + n := Nat.mod_eq_of_lt (by omega)
  have hoff : ∀ k, k ∈ offsets (m.addData pos ((ref.drop pos).take n)).partVect ↔
      k ∈ offsets m.partVect ∧ ¬ (pos ≤ k ∧ k < pos + n) := by
    intro k
    simp only [FragmentedMessage.addData, hlen, hmod]
    exact mem_offsets_removeFromPartVect h.parts (by omega) k
  refine ⟨?_, fun k hk => h.bound k ((hoff k).mp hk).1, ?_⟩
  · simp only [FragmentedMessage.addData, hlen, hmod]
    exact separated_removeFromPartVect h.parts (by omega)
  · have hw := agrees_writeAt h.agrees (fun k hk => hk.1) 0 pos n hle
    refine ⟨hw.length_le, fun k hk => hw.eq_on k ?_⟩
    obtain ⟨hk1, hk2⟩ := hk
    rw [hoff] at hk2
    by_cases hin : pos ≤ k ∧ k < pos + n
    · exact Or.inr hin
    · exact Or.inl ⟨hk1, fun hm => hk2 ⟨hm, hin⟩⟩

/-- **Once no part is missing, the device holds the payload.** -/
theorem Collects.eq {ref : Bytes} {m : FragmentedMessage} (h : Collects ref m)
    (he : m.isPartsEmpty = true) : m.data = ref := by
  have hnil : m.partVect = [] := by simpa [isPartsEmpty] using he
  refine h.agrees.eq fun k hk => ⟨hk, ?_⟩
  rw [hnil, offsets_nil]
  exact Set.notMem_empty k

end FragmentedMessage

end HelpzNet
