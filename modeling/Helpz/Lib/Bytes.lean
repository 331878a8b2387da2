import Mathlib.Data.Nat.Basic
import Mathlib.Algebra.Order.Group.Nat

/-!
# Big-endian integers

Fixed-width big-endian encoding of natural numbers as byte lists, and a reader that takes a
field off the front of a byte list.

* `toBE k n`: the `k` low bytes of `n`, most significant first; `ofBE` reads them back
  (`ofBE_toBE`).
* `ofLE`: the number with the least significant byte first;
* `takeBE k`: read a `k`-byte field, or fail when fewer than `k` bytes are left
  (`takeBE_append`).
-/

namespace HelpzLib

/-- The `k` low bytes of `n`, most significant first. -/
def toBE : ℕ → ℕ → List UInt8
  | 0, _ => []
  | k + 1, n => UInt8.ofNat (n / 256 ^ k) :: toBE k n

/-- The number a byte list denotes, most significant byte first. -/
def ofBE : List UInt8 → ℕ
  | [] => 0
  | b :: l => b.toNat * 256 ^ l.length + ofBE l

@[simp] theorem length_toBE (k n : ℕ) : (toBE k n).length = k := by
  induction k with
  | zero => rfl
  | succ k ih => simp [toBE, ih]

/-- **Reading back `k` bytes gives the number modulo `256 ^ k`.** -/
theorem ofBE_toBE (k n : ℕ) : ofBE (toBE k n) = n % 256 ^ k := by
  induction k with
  | zero => simp [toBE, ofBE, Nat.mod_one]
  | succ k ih =>
      simp only [toBE, ofBE, length_toBE, ih]
      rw [UInt8.toNat_ofNat', show (2 : ℕ) ^ 8 = 256 from rfl, pow_succ, Nat.mod_mul, Nat.mul_comm]
      exact Nat.add_comm _ _

/-- Read a `k`-byte field off the front. -/
def takeBE (k : ℕ) (l : List UInt8) : Option (ℕ × List UInt8) :=
  if l.length < k then none else some (ofBE (l.take k), l.drop k)

theorem takeBE_append (k n : ℕ) (l : List UInt8) :
    takeBE k (toBE k n ++ l) = some (n % 256 ^ k, l) := by
  have hlen : ¬ (toBE k n ++ l).length < k := by simp
  rw [takeBE, if_neg hlen, List.take_left' (length_toBE k n), List.drop_left' (length_toBE k n),
    ofBE_toBE]

theorem ofBE_lt (l : List UInt8) : ofBE l < 256 ^ l.length := by
  induction l with
  | nil => simp [ofBE]
  | cons b l ih =>
      have hb : b.toNat * 256 ^ l.length ≤ 255 * 256 ^ l.length :=
        Nat.mul_le_mul_right _ (Nat.le_of_lt_succ b.toNat_lt)
      rw [ofBE, List.length_cons, pow_succ]
      omega

theorem takeBE_lt {k n : ℕ} {l r : List UInt8} (h : takeBE k l = some (n, r)) : n < 256 ^ k := by
  unfold takeBE at h
  split_ifs at h with hlen
  obtain ⟨rfl, _⟩ := Prod.mk.inj (Option.some.inj h)
  have hlt := ofBE_lt (l.take k)
  rwa [List.length_take, min_eq_left (not_lt.mp hlen)] at hlt

/-- The number a byte list denotes, least significant byte first. -/
def ofLE : List UInt8 → ℕ
  | [] => 0
  | b :: l => b.toNat + 256 * ofLE l

theorem ofLE_lt (l : List UInt8) : ofLE l < 256 ^ l.length := by
  induction l with
  | nil => simp [ofLE]
  | cons b l ih =>
      have hb := b.toNat_lt
      rw [ofLE, List.length_cons, pow_succ]
      omega

theorem ofLE_cons_of_mod {n : ℕ} {b : UInt8} {l : List UInt8} (h : n % 256 ^ (l.length + 1) = ofLE (b :: l)) :
    n % 256 = b.toNat ∧ n / 256 % 256 ^ l.length = ofLE l := by
  have hb : b.toNat < 256 := b.toNat_lt
  have hn := Nat.mod_lt n (show 0 < 256 by decide)
  rw [pow_succ', Nat.mod_mul, ofLE] at h
  omega

theorem takeBE_toBE (k n : ℕ) : takeBE k (toBE k n) = some (n % 256 ^ k, []) := by
  simpa using takeBE_append k n []

end HelpzLib
