import Helpz.Net.Fragment

/-!
# The list of missing parts over many calls

`Fragmented_Message` under any sequence of calls of `add_data`, whatever their order, overlap or
repetition. The end of a part is computed modulo `2 ^ 32`; a part that wraps starts behind everything
that can be missing, so it takes nothing from the list (`removeFromPartVect_of_behind`).

* `Part`: the arguments of a call;
* `FragmentedMessage.Lacks`: the list is in normal form and stands for a given set of offsets below the
  full size; kept by a call (`Lacks.addData`) and by a run of calls (`Lacks.addAll`).
-/

namespace HelpzNet

open HelpzLib

/-- The arguments of a call of `add_data`: a 32-bit position and between one and `2 ^ 31 - 1` bytes. -/
structure Part where
  pos : ℕ
  bytes : Bytes
  pos_lt : pos < 2 ^ 32
  length_pos : 1 ≤ bytes.length
  length_lt : bytes.length < 2 ^ 31

/-- The offsets of the part, without the wrap. -/
def Part.interval (x : Part) : Set ℕ := Set.Ico x.pos (x.pos + x.bytes.length)

theorem removeFromPartVect_of_behind {l : List (ℕ × ℕ)} {s : ℕ} (h : ∀ p ∈ l, p.2 < s) (e : ℕ) :
    removeFromPartVect l s e = l := by
  induction l with
  | nil => rfl
  | cons p l ih =>
      have hp : s > p.2 := h p List.mem_cons_self
      rw [removeFromPartVect]
      split_ifs
      · rfl
      · rw [ih fun q hq => h q (List.mem_cons_of_mem _ hq)]

theorem snd_le_of_offsets {l : List (ℕ × ℕ)} (hs : Separated l) {n : ℕ} (h : ∀ k ∈ offsets l, k < n)
    {p : ℕ × ℕ} (hp : p ∈ l) : p.2 ≤ n := by
  have hlt := hs.nonempty p hp
  have hlast : p.2 - 1 ∈ offsets l := ⟨p, hp, by omega, by omega⟩
  have := h _ hlast
  omega

namespace FragmentedMessage

/-- The calls of `add_data` with these arguments, one after the other. -/
def addAll (m : FragmentedMessage) (parts : List Part) : FragmentedMessage :=
  parts.foldl (fun m x => m.addData x.pos x.bytes) m

/-- The list of missing parts is in normal form and stands for `missing`, within the full size. -/
structure Lacks (fullSize : ℕ) (missing : Set ℕ) (m : FragmentedMessage) : Prop where
  parts : Separated m.partVect
  offsets_eq : offsets m.partVect = missing
  bound : ∀ k ∈ missing, k < fullSize

theorem lacks_new (id cmd : UInt8) (size : ℕ) {fullSize : ℕ} (h : 1 ≤ fullSize) :
    Lacks fullSize (Set.Ico 0 fullSize) (new id cmd size fullSize) := by
  refine ⟨separated_cons.mpr ⟨h, by simp, separated_nil⟩, ?_, fun k hk => hk.2⟩
  ext k
  rw [new, mem_offsets_cons]
  simp

variable {fullSize : ℕ} {missing : Set ℕ} {m : FragmentedMessage}

theorem Lacks.snd_le (h : Lacks fullSize missing m) {p : ℕ × ℕ} (hp : p ∈ m.partVect) :
    p.2 ≤ fullSize :=
  snd_le_of_offsets h.parts (fun k hk => h.bound k (h.offsets_eq ▸ hk)) hp

/-- **A call of `add_data` takes exactly its interval away**, also when the end of it wraps. -/
theorem Lacks.addData (h : Lacks fullSize missing m) (hsize : fullSize < 2 ^ 31) (x : Part) :
    Lacks fullSize (missing \ x.interval) (m.addData x.pos x.bytes) := by
  have hpos := x.pos_lt
  have hlen := x.length_lt
  have hone := x.length_pos
  by_cases hwrap : x.pos + x.bytes.length < 2 ^ 32
  · have hmod : (x.pos + x.bytes.length) % 2 ^ 32 = x.pos + x.bytes.length := Nat.mod_eq_of_lt hwrap
    refine ⟨?_, ?_, fun k hk => h.bound k hk.1⟩
    · simp only [FragmentedMessage.addData, hmod]
      exact separated_removeFromPartVect h.parts (by omega)
    · simp only [FragmentedMessage.addData, hmod]
      rw [offsets_removeFromPartVect h.parts (by omega), h.offsets_eq]
      rfl
  · -- the part starts at `2 ^ 31` or later, behind all that is missing
    have hbehind : ∀ p ∈ m.partVect, p.2 < x.pos := by
      intro p hp
      have := h.snd_le hp
      omega
    have hsame : (m.addData x.pos x.bytes).partVect = m.partVect := removeFromPartVect_of_behind hbehind _
    have hdisjoint : missing \ x.interval = missing := by
      ext k
      refine ⟨And.left, fun hk => ⟨hk, fun hin => ?_⟩⟩
      have hlt := h.bound k hk
      have hle := hin.1
      omega
    rw [hdisjoint]
    exact ⟨hsame ▸ h.parts, hsame ▸ h.offsets_eq, h.bound⟩

theorem Lacks.addAll (h : Lacks fullSize missing m) (hsize : fullSize < 2 ^ 31) (parts : List Part) :
    Lacks fullSize (missing \ {k | ∃ x ∈ parts, k ∈ x.interval}) (m.addAll parts) := by
  induction parts generalizing missing m with
  | nil => simpa [FragmentedMessage.addAll] using h
  | cons x parts ih =>
      have hstep := ih (h.addData hsize x)
      have hset : (missing \ x.interval) \ {k | ∃ y ∈ parts, k ∈ y.interval} =
          missing \ {k | ∃ y ∈ x :: parts, k ∈ y.interval} := by
        ext k
        simp only [Set.mem_sdiff, Set.mem_ofPred_eq, List.mem_cons, exists_eq_or_imp, not_or, and_assoc]
      exact hset ▸ hstep

theorem Lacks.isPartsEmpty_iff (h : Lacks fullSize missing m) : m.isPartsEmpty = true ↔ missing = ∅ := by
  rw [isPartsEmpty, List.isEmpty_iff, ← h.offsets_eq]
  constructor
  · intro he
    rw [he, offsets_nil]
  · intro he
    by_contra hne
    obtain ⟨p, hp⟩ := List.exists_mem_of_ne_nil _ hne
    have hmem : p.1 ∈ offsets m.partVect := ⟨p, hp, le_rfl, h.parts.nonempty p hp⟩
    rw [he] at hmem
    exact hmem

/-- **The list of missing parts is exact set difference.** After any calls of `add_data` it is a list of
non-empty intervals within the full size, in increasing order with a gap between neighbours, and it stands
for the offsets that none of the calls covered; it is empty exactly when every offset is covered. -/
theorem partVect_addAll (id cmd : UInt8) (size : ℕ) {fullSize : ℕ} (hpos : 1 ≤ fullSize)
    (hsize : fullSize < 2 ^ 31) (parts : List Part) :
    Separated ((new id cmd size fullSize).addAll parts).partVect ∧
      (∀ p ∈ ((new id cmd size fullSize).addAll parts).partVect, p.2 ≤ fullSize) ∧
      offsets ((new id cmd size fullSize).addAll parts).partVect =
        Set.Ico 0 fullSize \ {k | ∃ x ∈ parts, k ∈ Set.Ico x.pos (x.pos + x.bytes.length)} ∧
      (((new id cmd size fullSize).addAll parts).isPartsEmpty = true ↔
        ∀ k < fullSize, ∃ x ∈ parts, x.pos ≤ k ∧ k < x.pos + x.bytes.length) := by
  have h := (lacks_new id cmd size hpos).addAll hsize parts
  refine ⟨h.parts, fun p hp => h.snd_le hp, h.offsets_eq, h.isPartsEmpty_iff.trans ?_⟩
  rw [Set.sdiff_eq_empty]
  constructor
  · intro hsub k hk
    exact hsub ⟨Nat.zero_le k, hk⟩
  · intro hall k hk
    exact hall k hk.2

/-- Three parts that overlap, out of order; the second one wraps at `2 ^ 32`. -/
def wrappingParts : List Part :=
  [⟨1, [2, 3, 4], by decide, by decide, by decide⟩,
    ⟨2 ^ 32 - 1, [7, 7, 7, 7], by decide, by decide, by decide⟩,
    ⟨0, [1, 2], by decide, by decide, by decide⟩]

theorem partVect_addAll_wrappingParts :
    (1 ≤ 3 ∧ 3 < 2 ^ 31) ∧ ((new 0 16 32 3).addAll wrappingParts).isPartsEmpty = true :=
  ⟨by decide, (partVect_addAll 0 16 32 (by decide) (by decide) wrappingParts).2.2.2.mpr (by decide)⟩

end FragmentedMessage

end HelpzNet
