import Mathlib.Order.Lattice
import Mathlib.Data.List.Pairwise
import Mathlib.Data.Multiset.AddSub

/-!
# Maps ordered by key

`SortedMap κ β` is a finite map as an ordered container keeps it: a list of entries with strictly
increasing keys, the order being a field of the structure. The operations are the ones an ordered
map offers to a client that inserts by key and searches by value:

* `emplace k v`: insert unless the key is there;
* `extract p`: remove the first entry, in key order, whose value satisfies `p`;
* `popUpTo k`: remove all entries with key at most `k`.

Each operation comes with the bag of values before and after (`values_emplace`, `values_extract`,
`values_popUpTo`), so that a client can follow where a value went.
-/

namespace HelpzLib

/-- A finite map with its entries in increasing order of keys. -/
structure SortedMap (κ β : Type) [LinearOrder κ] where
  items : List (κ × β)
  sorted : items.Pairwise fun a b => a.1 < b.1

namespace SortedMap

variable {κ β : Type} [LinearOrder κ]

instance : EmptyCollection (SortedMap κ β) := ⟨⟨[], List.Pairwise.nil⟩⟩

/-- The values held, with multiplicity. -/
def values (m : SortedMap κ β) : Multiset β := ↑(m.items.map Prod.snd)

theorem mem_values {m : SortedMap κ β} {v : β} : v ∈ m.values ↔ ∃ k, (k, v) ∈ m.items := by
  simp [values]

/-- The key is taken. -/
def contains (m : SortedMap κ β) (k : κ) : Bool := m.items.any fun a => decide (a.1 = k)

theorem contains_eq_true {m : SortedMap κ β} {k : κ} :
    m.contains k = true ↔ ∃ v, (k, v) ∈ m.items := by
  simp [contains]

/-- Insert an entry before the first larger key. -/
def insertItem (k : κ) (v : β) : List (κ × β) → List (κ × β)
  | [] => [(k, v)]
  | a :: l => if k < a.1 then (k, v) :: a :: l else a :: insertItem k v l

theorem insertItem_perm (k : κ) (v : β) (l : List (κ × β)) :
    (insertItem k v l).Perm ((k, v) :: l) := by
  induction l with
  | nil => exact List.Perm.refl _
  | cons a l ih =>
      simp only [insertItem]
      split_ifs
      · exact List.Perm.refl _
      · exact (ih.cons a).trans (List.Perm.swap _ _ _)

theorem insertItem_sorted {k : κ} (v : β) {l : List (κ × β)}
    (h : l.Pairwise fun a b => a.1 < b.1) (hk : ∀ a ∈ l, a.1 ≠ k) :
    (insertItem k v l).Pairwise fun a b => a.1 < b.1 := by
  induction l with
  | nil => exact List.pairwise_singleton _ _
  | cons a l ih =>
      rw [List.pairwise_cons] at h
      simp only [insertItem]
      split_ifs with hlt
      · refine List.pairwise_cons.mpr ⟨fun b hb => ?_, List.pairwise_cons.mpr h⟩
        rcases List.mem_cons.mp hb with rfl | hb
        · exact hlt
        · exact lt_trans hlt (h.1 b hb)
      · have hak : a.1 < k := lt_of_le_of_ne (not_lt.mp hlt) (hk a List.mem_cons_self)
        refine List.pairwise_cons.mpr ⟨fun b hb => ?_,
          ih h.2 fun b hb => hk b (List.mem_cons_of_mem _ hb)⟩
        rcases List.mem_cons.mp ((insertItem_perm k v l).mem_iff.mp hb) with rfl | hb
        · exact hak
        · exact h.1 b hb

/-- Insert under a key, unless the key is taken. -/
def emplace (m : SortedMap κ β) (k : κ) (v : β) : SortedMap κ β :=
  if h : m.contains k = true then m
  else ⟨insertItem k v m.items, insertItem_sorted v m.sorted fun a ha he =>
    h (contains_eq_true.mpr ⟨a.2, by rw [← he]; exact ha⟩)⟩

theorem emplace_perm {m : SortedMap κ β} {k : κ} (h : m.contains k = false) (v : β) :
    (m.emplace k v).items.Perm ((k, v) :: m.items) := by
  rw [emplace, dif_neg (by rw [h]; exact Bool.false_ne_true)]
  exact insertItem_perm k v m.items

/-- **Inserting under a free key adds exactly the value.** -/
theorem values_emplace {m : SortedMap κ β} {k : κ} (h : m.contains k = false) (v : β) :
    (m.emplace k v).values = v ::ₘ m.values := by
  have := (emplace_perm h v).map Prod.snd
  exact Multiset.coe_eq_coe.mpr this

/-- Remove the first entry, in key order, whose value satisfies `p`. -/
def extract (m : SortedMap κ β) (p : β → Bool) : Option β × SortedMap κ β :=
  ((m.items.find? fun a => p a.2).map Prod.snd,
    ⟨m.items.eraseP fun a => p a.2, m.sorted.sublist List.eraseP_sublist⟩)

theorem extract_eq_none {m : SortedMap κ β} {p : β → Bool} :
    (m.extract p).1 = none ↔ ∀ v ∈ m.values, p v = false := by
  simp only [extract, Option.map_eq_none_iff, List.find?_eq_none, mem_values]
  constructor
  · rintro h v ⟨k, hk⟩
    simpa using h _ hk
  · intro h a ha
    simp [h a.2 ⟨a.1, ha⟩]

theorem extract_of_none {m : SortedMap κ β} {p : β → Bool} (h : (m.extract p).1 = none) :
    (m.extract p).2 = m := by
  have hn : ∀ a ∈ m.items, ¬ p a.2 = true := fun a ha => by
    rw [extract_eq_none.mp h a.2 (mem_values.mpr ⟨a.1, ha⟩)]; exact Bool.false_ne_true
  simp only [extract]
  congr 1
  exact List.eraseP_of_forall_not hn

theorem extract_of_some {m : SortedMap κ β} {p : β → Bool} {v : β}
    (h : (m.extract p).1 = some v) :
    p v = true ∧ ∃ k, m.items.Perm ((k, v) :: (m.extract p).2.items) := by
  simp only [extract, Option.map_eq_some_iff] at h
  obtain ⟨a, ha, rfl⟩ := h
  have hp : p a.2 = true := by simpa using List.find?_some ha
  refine ⟨hp, a.1, ?_⟩
  obtain ⟨l₁, l₂, he, hl₁⟩ := (List.find?_eq_some_iff_append.mp ha).2
  have hers : (m.items.eraseP fun a => p a.2) = l₁ ++ l₂ := by
    rw [he, List.eraseP_append_right _ (fun b hb => by simpa using hl₁ b hb)]
    exact congrArg (l₁ ++ ·) (List.eraseP_cons_of_pos (p := fun b : κ × β => p b.2) hp)
  change m.items.Perm (a :: m.items.eraseP fun a => p a.2)
  rw [hers, he]
  exact List.perm_middle

/-- **Extraction removes exactly the value it returns.** -/
theorem values_extract {m : SortedMap κ β} {p : β → Bool} {v : β}
    (h : (m.extract p).1 = some v) : m.values = v ::ₘ (m.extract p).2.values := by
  obtain ⟨_, k, hk⟩ := extract_of_some h
  exact Multiset.coe_eq_coe.mpr (hk.map Prod.snd)

theorem nodup_items (m : SortedMap κ β) : m.items.Nodup :=
  m.sorted.imp fun h he => absurd (congrArg Prod.fst he) (ne_of_lt h)

/-- **Extraction by a predicate that at most one entry satisfies** leaves exactly the others. -/
theorem mem_extract {m : SortedMap κ β} {p : β → Bool}
    (h : ∀ a ∈ m.items, ∀ b ∈ m.items, p a.2 = true → p b.2 = true → a = b) {a : κ × β} :
    a ∈ (m.extract p).2.items ↔ a ∈ m.items ∧ p a.2 = false := by
  cases he : (m.extract p).1 with
  | none =>
      rw [extract_of_none he]
      exact ⟨fun ha => ⟨ha, extract_eq_none.mp he a.2 (mem_values.mpr ⟨a.1, ha⟩)⟩, And.left⟩
  | some v =>
      obtain ⟨hv, k, hk⟩ := extract_of_some he
      have hmem : (k, v) ∈ m.items := hk.mem_iff.mpr List.mem_cons_self
      have hnot : (k, v) ∉ (m.extract p).2.items := (List.nodup_cons.mp (hk.nodup_iff.mp m.nodup_items)).1
      constructor
      · intro ha
        have hin : a ∈ m.items := hk.mem_iff.mpr (List.mem_cons_of_mem _ ha)
        refine ⟨hin, Bool.eq_false_iff.mpr fun hp => hnot ?_⟩
        rw [← h a hin (k, v) hmem hp hv]
        exact ha
      · rintro ⟨ha, hp⟩
        rcases List.mem_cons.mp (hk.mem_iff.mp ha) with rfl | ha
        · rw [hv] at hp
          cases hp
        · exact ha

/-- Remove the entries with key at most `k`, in key order. -/
def popUpTo (m : SortedMap κ β) (k : κ) : List β × SortedMap κ β :=
  ((m.items.takeWhile fun a => decide (a.1 ≤ k)).map Prod.snd,
    ⟨m.items.dropWhile fun a => decide (a.1 ≤ k), m.sorted.sublist (List.dropWhile_sublist _)⟩)

/-- **Popping splits the values into the ones returned and the ones kept.** -/
theorem values_popUpTo (m : SortedMap κ β) (k : κ) :
    m.values = ↑(m.popUpTo k).1 + (m.popUpTo k).2.values := by
  simp only [values, popUpTo, Multiset.coe_add]
  rw [← List.map_append, List.takeWhile_append_dropWhile]

theorem mem_popUpTo {m : SortedMap κ β} {a : κ × β} (h : a ∈ m.items) (k : κ) :
    a.2 ∈ (m.popUpTo k).1 ∨ a ∈ (m.popUpTo k).2.items := by
  rw [← List.takeWhile_append_dropWhile (p := fun a => decide (a.1 ≤ k)) (l := m.items)] at h
  exact (List.mem_append.mp h).imp_left (List.mem_map_of_mem)

theorem lt_of_mem_popUpTo {m : SortedMap κ β} {k : κ} {a : κ × β} (h : a ∈ (m.popUpTo k).2.items) :
    k < a.1 := by
  have hsorted := (m.popUpTo k).2.sorted
  simp only [popUpTo] at h hsorted
  cases hd : m.items.dropWhile fun a => decide (a.1 ≤ k) with
  | nil => rw [hd] at h; cases h
  | cons b l =>
      have hb : k < b.1 := by
        have hne : (m.items.dropWhile fun a => decide (a.1 ≤ k)) ≠ [] := by rw [hd]; exact List.cons_ne_nil _ _
        have hhead := List.head_dropWhile_not (fun a : κ × β => decide (a.1 ≤ k)) hne
        simpa [hd] using hhead
      rw [hd] at h hsorted
      rcases List.mem_cons.mp h with rfl | h
      · exact hb
      · exact hb.trans ((List.pairwise_cons.mp hsorted).1 a h)

end SortedMap

end HelpzLib
