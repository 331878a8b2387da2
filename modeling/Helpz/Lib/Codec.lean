import Helpz.Lib.Bytes

/-!
# Codecs

How values are written to bytes and read from the front of them. A codec is lawful when what was written is read back,
whatever follows it, and what was cut off is not read at all.

* `Codec`, `Codec.Lawful`;
* `Codec.nat`, `Codec.unit`, `Codec.pair`, `Codec.list`, `Codec.map`: codecs from codecs, lawful when these are.
-/

namespace HelpzLib

/-- How values are written and read. A read that fails says why; `Fits` are the values that can be written. -/
structure Codec (ε α : Type) where
  write : α → List UInt8
  read : List UInt8 → Except ε (α × List UInt8)
  Fits : α → Prop

namespace Codec

variable {ε α β : Type} {c : Codec ε α} {d : Codec ε β}

/-- What was written is read back, and what was cut off is not read. -/
structure Lawful (c : Codec ε α) : Prop where
  read_write : ∀ x rest, c.Fits x → c.read (c.write x ++ rest) = .ok (x, rest)
  short : ∀ x p, c.Fits x → p <+: c.write x → p ≠ c.write x → ∃ e, c.read p = .error e

theorem prefix_append_cases {l a b : List UInt8} (h : l <+: a ++ b) (hne : l ≠ a ++ b) :
    l <+: a ∧ l ≠ a ∨ ∃ q, l = a ++ q ∧ q <+: b ∧ q ≠ b := by
  rcases le_total a.length l.length with hle | hle
  · obtain ⟨q, rfl⟩ := List.prefix_of_prefix_length_le (List.prefix_append a b) h hle
    exact .inr ⟨q, rfl, (List.prefix_append_right_inj a).mp h, fun hq => hne (by rw [hq])⟩
  · have hpre := List.prefix_of_prefix_length_le h (List.prefix_append a b) hle
    by_cases hl : l = a
    · refine .inr ⟨[], by rw [hl, List.append_nil], List.nil_prefix, fun hb => hne ?_⟩
      rw [hl, ← hb, List.append_nil]
    · exact .inl ⟨hpre, hl⟩

/-! ## Numbers -/

/-- A field of `k` bytes, the most significant one first. -/
def nat (k : ℕ) (tooShort : ε) : Codec ε ℕ where
  write := toBE k
  read l := match takeBE k l with
    | some r => .ok r
    | none => .error tooShort
  Fits n := n < 256 ^ k

theorem lawful_nat (k : ℕ) (tooShort : ε) : (nat k tooShort).Lawful where
  read_write n rest hn := by
    simp only [nat, takeBE_append]
    rw [Nat.mod_eq_of_lt hn]
  short n p _ hp hne := by
    refine ⟨tooShort, ?_⟩
    have hlt : p.length < k := by
      have hle := hp.length_le
      rw [show (nat k tooShort).write n = toBE k n from rfl, length_toBE] at hle
      refine lt_of_le_of_ne hle fun hlen => hne (hp.eq_of_length ?_)
      rw [hlen, show (nat k tooShort).write n = toBE k n from rfl, length_toBE]
    simp [nat, takeBE, hlt]

/-- The same values in another form. -/
def map (c : Codec ε α) (f : α → β) (g : β → α) : Codec ε β where
  write y := c.write (g y)
  read l := (c.read l).map fun r => (f r.1, r.2)
  Fits y := c.Fits (g y)

theorem Lawful.map (hc : c.Lawful) {f : α → β} {g : β → α} (h : ∀ y, c.Fits (g y) → f (g y) = y) :
    (c.map f g).Lawful where
  read_write y rest hy := by
    have hy' : c.Fits (g y) := hy
    simp only [Codec.map, hc.read_write (g y) rest hy', Except.map, h y hy']
  short y p hy hp hne := by
    obtain ⟨e, he⟩ := hc.short (g y) p hy hp hne
    exact ⟨e, by simp only [Codec.map, he, Except.map]⟩

/-! ## Several values -/

/-- Nothing. -/
def unit : Codec ε Unit where
  write _ := []
  read l := .ok ((), l)
  Fits _ := True

theorem lawful_unit : (unit : Codec ε Unit).Lawful where
  read_write _ _ _ := rfl
  short _ _ _ hp hne := absurd (List.prefix_nil.mp hp) hne

/-- One value after the other. -/
def pair (c : Codec ε α) (d : Codec ε β) : Codec ε (α × β) where
  write x := c.write x.1 ++ d.write x.2
  read l := match c.read l with
    | .error e => .error e
    | .ok (x, rest) => match d.read rest with
      | .error e => .error e
      | .ok (y, rest) => .ok ((x, y), rest)
  Fits x := c.Fits x.1 ∧ d.Fits x.2

theorem Lawful.pair (hc : c.Lawful) (hd : d.Lawful) : (c.pair d).Lawful where
  read_write x rest hx := by
    simp only [Codec.pair, List.append_assoc, hc.read_write x.1 _ hx.1, hd.read_write x.2 rest hx.2]
  short x p hx hp hne := by
    rcases prefix_append_cases hp hne with ⟨hp, hne⟩ | ⟨q, rfl, hq, hne⟩
    · obtain ⟨e, he⟩ := hc.short x.1 p hx.1 hp hne
      exact ⟨e, by simp only [Codec.pair, he]⟩
    · obtain ⟨e, he⟩ := hd.short x.2 q hx.2 hq hne
      exact ⟨e, by simp only [Codec.pair, hc.read_write x.1 q hx.1, he]⟩

/-- So many values. -/
def readMany (c : Codec ε α) : ℕ → List UInt8 → Except ε (List α × List UInt8)
  | 0, l => .ok ([], l)
  | n + 1, l => match c.read l with
    | .error e => .error e
    | .ok (x, rest) => match c.readMany n rest with
      | .error e => .error e
      | .ok (xs, rest) => .ok (x :: xs, rest)

theorem Lawful.readMany (hc : c.Lawful) {xs : List α} (hxs : ∀ x ∈ xs, c.Fits x) (rest : List UInt8) :
    c.readMany xs.length (xs.flatMap c.write ++ rest) = .ok (xs, rest) := by
  induction xs with
  | nil => rfl
  | cons x xs ih =>
      have hx := hc.read_write x (xs.flatMap c.write ++ rest) (hxs x List.mem_cons_self)
      have htail := ih fun y hy => hxs y (List.mem_cons_of_mem _ hy)
      simp only [List.length_cons, List.flatMap_cons, List.append_assoc, Codec.readMany, hx, htail]

theorem Lawful.readMany_short (hc : c.Lawful) {xs : List α} (hxs : ∀ x ∈ xs, c.Fits x) {p : List UInt8}
    (hp : p <+: xs.flatMap c.write) (hne : p ≠ xs.flatMap c.write) : ∃ e, c.readMany xs.length p = .error e := by
  induction xs generalizing p with
  | nil => exact absurd (List.prefix_nil.mp hp) hne
  | cons x xs ih =>
      have hfits := hxs x List.mem_cons_self
      rw [List.flatMap_cons] at hp hne
      rcases prefix_append_cases hp hne with ⟨hp, hne⟩ | ⟨q, rfl, hq, hne⟩
      · obtain ⟨e, he⟩ := hc.short x p hfits hp hne
        exact ⟨e, by simp only [List.length_cons, Codec.readMany, he]⟩
      · obtain ⟨e, he⟩ := ih (fun y hy => hxs y (List.mem_cons_of_mem _ hy)) hq hne
        exact ⟨e, by simp only [List.length_cons, Codec.readMany, hc.read_write x q hfits, he]⟩

/-- The number of values, and then these. -/
def list (k : ℕ) (tooShort : ε) (c : Codec ε α) : Codec ε (List α) where
  write xs := toBE k xs.length ++ xs.flatMap c.write
  read l := match (nat k tooShort).read l with
    | .error e => .error e
    | .ok (n, rest) => c.readMany n rest
  Fits xs := xs.length < 256 ^ k ∧ ∀ x ∈ xs, c.Fits x

theorem Lawful.list (hc : c.Lawful) (k : ℕ) (tooShort : ε) : (c.list k tooShort).Lawful where
  read_write xs rest hxs := by
    have hlen := (lawful_nat k tooShort).read_write xs.length (xs.flatMap c.write ++ rest) hxs.1
    simp only [Codec.list, List.append_assoc]
    rw [show toBE k xs.length = (nat k tooShort).write xs.length from rfl, hlen]
    exact hc.readMany hxs.2 rest
  short xs p hxs hp hne := by
    rcases prefix_append_cases hp hne with ⟨hp, hne⟩ | ⟨q, rfl, hq, hne⟩
    · obtain ⟨e, he⟩ := (lawful_nat k tooShort).short xs.length p hxs.1 hp hne
      exact ⟨e, by simp only [Codec.list, he]⟩
    · obtain ⟨e, he⟩ := hc.readMany_short hxs.2 hq hne
      refine ⟨e, ?_⟩
      have hlen := (lawful_nat k tooShort).read_write xs.length q hxs.1
      simp only [Codec.list]
      rw [show toBE k xs.length = (nat k tooShort).write xs.length from rfl, hlen]
      exact he

end Codec

end HelpzLib
