import Helpz.Lib.Bytes
import Mathlib.Data.List.Basic
import Mathlib.Data.List.Induction
import Mathlib.Data.Nat.ModEq

/-!
# Reading integers from a byte vector

`Data_Stream` (`data_stream.h`, `data_stream.cpp`): integers of 8, 16 and 32 bits, with and without a sign, in
either byte order. A read past the end leaves everything as it is, and so do all reads after it.

* `IntType`: the types of `operator>>`, with the arithmetic of C++ on them: promotion, shifts, conversion back;
* `swap`: the loop that reverses the bytes; `toNat_swap`: what it computes;
* `DataStream`, `read`; `Op`, `run`: a sequence of reads and changes of the byte order;
* `read_run`: what a read does after any such sequence.
-/

namespace HelpzBase

open HelpzLib

/-- The integer types that are read. -/
inductive IntType
  | int8
  | int16
  | int32
  | uint8
  | uint16
  | uint32
  deriving DecidableEq, Repr

namespace IntType

/-- `sizeof(T)`. -/
def size : IntType → ℕ
  | int8 | uint8 => 1
  | int16 | uint16 => 2
  | int32 | uint32 => 4

def signed : IntType → Bool
  | int8 | int16 | int32 => true
  | uint8 | uint16 | uint32 => false

/-- The representation of a `T`. -/
abbrev Rep (T : IntType) : Type := BitVec (8 * T.size)

/-- The number a representation stands for. -/
def value (T : IntType) (x : T.Rep) : ℤ := if T.signed then x.toInt else x.toNat

/-- The integer promotion, to `int` or, from `uint32_t`, to `unsigned`. -/
def promote (T : IntType) (x : T.Rep) : BitVec 32 := if T.signed then x.signExtend 32 else x.setWidth 32

/-- The conversion of a promoted value back to `T`. -/
def narrow (T : IntType) (x : BitVec 32) : T.Rep := x.setWidth (8 * T.size)

/-- `>> 8` on a promoted value: with the sign, unless it is `unsigned`. -/
def shiftRight (T : IntType) (x : BitVec 32) : BitVec 32 := if T = uint32 then x >>> 8 else x.sshiftRight 8

/-- The turns of the loop that are left, and its variables. -/
def swapLoop (T : IntType) : ℕ → T.Rep → T.Rep → T.Rep
  | 0, tmp, _ => tmp
  | k + 1, tmp, result =>
      swapLoop T k (T.narrow ((T.promote tmp <<< 8) ||| (T.promote result &&& 0xFF)))
        (T.narrow (T.shiftRight (T.promote result)))

/-- The value with its bytes in the other order. -/
def swap (T : IntType) (result : T.Rep) : T.Rep := swapLoop T T.size 0 result

variable {T : IntType}

theorem width_le (T : IntType) : 8 ≤ 8 * T.size ∧ 8 * T.size ≤ 32 := by cases T <;> decide

theorem getLsbD_promote (x : T.Rep) {i : ℕ} (h : i < 8 * T.size) : (T.promote x).getLsbD i = x.getLsbD i := by
  have hw := (width_le T).2
  unfold promote
  split_ifs
  · rw [BitVec.getLsbD_signExtend]
    simp [h, show i < 32 by omega]
  · rw [BitVec.getLsbD_setWidth]
    simp [show i < 32 by omega]

theorem toNat_narrow_or (tmp result : T.Rep) :
    (T.narrow ((T.promote tmp <<< 8) ||| (T.promote result &&& 0xFF))).toNat =
      (tmp.toNat * 256 + result.toNat % 256) % 2 ^ (8 * T.size) := by
  have hw := width_le T
  refine Nat.eq_of_testBit_eq fun i => ?_
  have hor : tmp.toNat * 256 + result.toNat % 256 = tmp.toNat <<< 8 ||| result.toNat % 256 := by
    rw [← Nat.shiftLeft_add_eq_or_of_lt (Nat.mod_lt _ (by decide)), Nat.shiftLeft_eq]
  rw [hor, Nat.testBit_mod_two_pow, Nat.testBit_or, Nat.testBit_shiftLeft, show (256 : ℕ) = 2 ^ 8 from rfl,
    Nat.testBit_mod_two_pow, BitVec.testBit_toNat, BitVec.testBit_toNat, BitVec.testBit_toNat, narrow,
    BitVec.getLsbD_setWidth, BitVec.getLsbD_or, BitVec.getLsbD_shiftLeft, BitVec.getLsbD_and]
  by_cases hi : i < 8 * T.size
  · rw [getLsbD_promote result hi, getLsbD_promote tmp (show i - 8 < 8 * T.size by omega)]
    rw [show (0xFF : BitVec 32).getLsbD i = decide (i < 8) from Nat.testBit_two_pow_sub_one 8 i]
    by_cases h8 : i < 8
    · simp [hi, h8, show i < 32 by omega, show ¬ 8 ≤ i by omega]
    · simp [hi, h8, show i < 32 by omega, show 8 ≤ i by omega]
  · simp [hi]

theorem toNat_narrow_shiftRight (result : T.Rep) :
    (T.narrow (T.shiftRight (T.promote result))).toNat % 2 ^ (8 * T.size - 8) = result.toNat / 256 := by
  have hw := width_le T
  refine Nat.eq_of_testBit_eq fun i => ?_
  rw [Nat.testBit_mod_two_pow, show (256 : ℕ) = 2 ^ 8 from rfl, Nat.testBit_div_two_pow, BitVec.testBit_toNat,
    BitVec.testBit_toNat, narrow, BitVec.getLsbD_setWidth]
  by_cases hi : i + 8 < 8 * T.size
  · have hshift : (T.shiftRight (T.promote result)).getLsbD i = (T.promote result).getLsbD (i + 8) := by
      unfold shiftRight
      split_ifs
      · rw [BitVec.getLsbD_ushiftRight, Nat.add_comm]
      · rw [BitVec.getLsbD_sshiftRight, if_pos (show 8 + i < 32 by omega), Nat.add_comm]
        simp [show i < 32 by omega]
    rw [hshift, getLsbD_promote result hi]
    simp [show i < 8 * T.size - 8 by omega, show i < 8 * T.size by omega]
  · rw [BitVec.getLsbD_of_ge _ _ (not_lt.mp hi)]
    simp [show ¬ i < 8 * T.size - 8 by omega]

/-- **The loop of `read`**, when `bytes` are the bytes that are left. -/
theorem toNat_swapLoop (bytes : List UInt8) (tmp result : T.Rep) (hlen : bytes.length ≤ T.size)
    (hresult : result.toNat % 256 ^ bytes.length = ofLE bytes) :
    (swapLoop T bytes.length tmp result).toNat =
      (tmp.toNat * 256 ^ bytes.length + ofBE bytes) % 2 ^ (8 * T.size) := by
  induction bytes generalizing tmp result with
  | nil =>
      rw [List.length_nil, swapLoop, ofBE, pow_zero, Nat.mul_one, Nat.add_zero, Nat.mod_eq_of_lt tmp.isLt]
  | cons b bytes ih =>
      rw [List.length_cons] at hlen hresult ⊢
      obtain ⟨hlow, hbehind⟩ := ofLE_cons_of_mod hresult
      have hrest : (T.narrow (T.shiftRight (T.promote result))).toNat % 256 ^ bytes.length = ofLE bytes := by
        have hdvd : 256 ^ bytes.length ∣ 2 ^ (8 * T.size - 8) := by
          rw [show (256 : ℕ) = 2 ^ 8 from rfl, ← pow_mul]
          exact pow_dvd_pow 2 (by omega)
        rw [← Nat.mod_mod_of_dvd _ hdvd, toNat_narrow_shiftRight, hbehind]
      rw [swapLoop, ih _ _ (by omega) hrest, toNat_narrow_or, hlow, ofBE, pow_succ']
      have hmod := (Nat.mod_modEq (tmp.toNat * 256 + b.toNat) (2 ^ (8 * T.size))).mul_right (256 ^ bytes.length)
      refine (hmod.add_right (ofBE bytes)).trans ?_
      rw [Nat.add_mul, Nat.mul_assoc, Nat.add_assoc]

theorem toNat_swap {bytes : List UInt8} (hlen : bytes.length = T.size) :
    (T.swap (BitVec.ofNat _ (ofLE bytes))).toNat = ofBE bytes := by
  have hpow : 2 ^ (8 * T.size) = 256 ^ bytes.length := by rw [hlen, show (256 : ℕ) = 2 ^ 8 from rfl, pow_mul]
  have hLE := ofLE_lt bytes
  have hresult : (BitVec.ofNat (8 * T.size) (ofLE bytes)).toNat % 256 ^ bytes.length = ofLE bytes := by
    rw [BitVec.toNat_ofNat, hpow, Nat.mod_mod, Nat.mod_eq_of_lt hLE]
  calc (T.swap (BitVec.ofNat _ (ofLE bytes))).toNat
      = (swapLoop T bytes.length 0 (BitVec.ofNat _ (ofLE bytes))).toNat := by rw [hlen, swap]
    _ = (0 * 256 ^ bytes.length + ofBE bytes) % 2 ^ (8 * T.size) :=
        toNat_swapLoop bytes 0 _ (le_of_eq hlen) hresult
    _ = ofBE bytes := by rw [hpow, Nat.zero_mul, Nat.zero_add, Nat.mod_eq_of_lt (ofBE_lt bytes)]

end IntType

inductive ByteOrder
  | bigEndian
  | littleEndian
  deriving DecidableEq, Repr

/-- The number that bytes stand for in an order. -/
def ByteOrder.number : ByteOrder → List UInt8 → ℕ
  | bigEndian => ofBE
  | littleEndian => ofLE

theorem ByteOrder.number_lt (order : ByteOrder) (bytes : List UInt8) : order.number bytes < 256 ^ bytes.length := by
  cases order
  · exact ofBE_lt bytes
  · exact ofLE_lt bytes

inductive Status
  | ok
  | readPastEnd
  deriving DecidableEq, Repr

/-- `Data_Stream`, with the vector it reads from. -/
structure DataStream where
  data : List UInt8
  idx : ℕ
  status : Status
  byteOrder : ByteOrder
  systemOrder : ByteOrder
  deriving DecidableEq, Repr

namespace DataStream

/-- `systemByteOrder`: the address of a variable is not null. -/
def systemByteOrder : ByteOrder := .littleEndian

/-- The constructors. -/
def new (data : List UInt8) : DataStream := ⟨data, 0, .ok, .bigEndian, systemByteOrder⟩

def setByteOrder (s : DataStream) (b : ByteOrder) : DataStream := { s with byteOrder := b }

/-- `has`. -/
def has (s : DataStream) (count : ℕ) : Bool := decide (s.idx + count ≤ s.data.length)

/-- The next bytes as a `T`, as the host stores one. -/
def load (host : ByteOrder) (s : DataStream) (T : IntType) : T.Rep :=
  BitVec.ofNat _ (host.number ((s.data.drop s.idx).take T.size))

/-- `read`: the stream afterwards, and the variable, which held `i`. -/
def read (host : ByteOrder) (s : DataStream) (T : IntType) (i : T.Rep) : DataStream × T.Rep :=
  if s.has T.size && s.status = .ok then
    let result := s.load host T
    ({ s with idx := s.idx + T.size }, if s.byteOrder ≠ s.systemOrder then T.swap result else result)
  else ({ s with status := .readPastEnd }, i)

/-- A change of the byte order, or a read into a variable that holds `i`. -/
inductive Op
  | setByteOrder (b : ByteOrder)
  | read (T : IntType) (i : T.Rep)

def step (host : ByteOrder) (s : DataStream) : Op → DataStream
  | .setByteOrder b => s.setByteOrder b
  | .read T i => (s.read host T i).1

/-- The stream after a sequence of operations. -/
def run (host : ByteOrder) (s : DataStream) (ops : List Op) : DataStream := ops.foldl (step host) s

/-- The bytes that an operation asks for. -/
def Op.asks : Op → ℕ
  | .setByteOrder _ => 0
  | .read T _ => T.size

/-- The bytes that all reads ask for: more than there are as soon as one of them did not fit. -/
def asked (ops : List Op) : ℕ := (ops.map Op.asks).sum

/-- The byte order in force. -/
def orderAfter (ops : List Op) : ByteOrder :=
  ops.foldl (fun b op => match op with | .setByteOrder b' => b' | .read _ _ => b) .bigEndian

/-- The number that `bytes` are in a byte order: in two's complement if it has a sign. -/
def decode (order : ByteOrder) (T : IntType) (bytes : List UInt8) : ℤ :=
  let n := order.number bytes
  if T.signed && decide (2 ^ (8 * T.size) ≤ 2 * n) then (n : ℤ) - 2 ^ (8 * T.size) else n

variable {T : IntType} {s : DataStream}

theorem value_eq_decode {order : ByteOrder} {x : T.Rep} {bytes : List UInt8} (hx : x.toNat = order.number bytes) :
    T.value x = decode order T bytes := by
  unfold IntType.value decode
  cases hsign : T.signed with
  | false => simp [hx]
  | true =>
      rw [if_pos rfl, BitVec.toInt_eq_toNat_cond, hx]
      simp only [Bool.true_and, decide_eq_true_eq]
      split_ifs with hlt hle hle
      · omega
      · rfl
      · norm_cast
      · omega

/-- **A read that fits** takes the next bytes in the order in force. -/
theorem read_fits (hhost : s.systemOrder = .littleEndian) (hok : s.status = .ok)
    (hfits : s.idx + T.size ≤ s.data.length) (i : T.Rep) :
    (s.read .littleEndian T i).1 = { s with idx := s.idx + T.size } ∧
      T.value (s.read .littleEndian T i).2 = decode s.byteOrder T ((s.data.drop s.idx).take T.size) := by
  set bytes := (s.data.drop s.idx).take T.size with hbytes
  have hlen : bytes.length = T.size := by
    rw [hbytes, List.length_take, List.length_drop]
    omega
  have hcond : (s.has T.size && decide (s.status = .ok)) = true := by simp [has, hok, hfits]
  rw [read, if_pos hcond]
  refine ⟨rfl, value_eq_decode ?_⟩
  change (if s.byteOrder ≠ s.systemOrder then T.swap (s.load .littleEndian T) else s.load .littleEndian T).toNat = _
  rw [hhost]
  cases horder : s.byteOrder with
  | bigEndian =>
      rw [if_pos (by decide)]
      exact IntType.toNat_swap hlen
  | littleEndian =>
      rw [if_neg (by decide), load, BitVec.toNat_ofNat]
      refine Nat.mod_eq_of_lt ?_
      have hlt := ByteOrder.number_lt .littleEndian bytes
      rwa [hlen, show (256 : ℕ) = 2 ^ 8 from rfl, ← pow_mul] at hlt

/-- **A read that does not fit, or comes after one,** leaves the variable and the position as they are. -/
theorem read_past {host : ByteOrder} (h : s.status = .readPastEnd ∨ s.data.length < s.idx + T.size) (i : T.Rep) :
    s.read host T i = ({ s with status := .readPastEnd }, i) := by
  refine if_neg fun hcond => ?_
  rw [Bool.and_eq_true, has, decide_eq_true_eq, decide_eq_true_eq] at hcond
  obtain hpast | hlt := h
  · rw [hcond.2] at hpast
    cases hpast
  · omega

/-- What holds of the stream after `ops`: it has read what was asked for, or a read has failed. -/
structure After (bytes : List UInt8) (ops : List Op) (s : DataStream) : Prop where
  data : s.data = bytes
  systemOrder : s.systemOrder = .littleEndian
  byteOrder : s.byteOrder = orderAfter ops
  ok : asked ops ≤ bytes.length → s.idx = asked ops ∧ s.status = .ok
  past : bytes.length < asked ops → s.status = .readPastEnd

theorem after_new (data : List UInt8) : After data [] (new data) where
  data := rfl
  systemOrder := rfl
  byteOrder := rfl
  ok _ := ⟨rfl, rfl⟩
  past h := absurd h (Nat.not_lt_zero _)

theorem asked_concat (ops : List Op) (op : Op) : asked (ops ++ [op]) = asked ops + op.asks := by
  simp [asked]

theorem After.past_or {data : List UInt8} {ops : List Op} (h : After data ops s)
    (hpast : data.length < asked ops + T.size) : s.status = .readPastEnd ∨ s.data.length < s.idx + T.size := by
  obtain hle | hlt := le_or_gt (asked ops) data.length
  · rw [h.data, (h.ok hle).1]
    exact .inr hpast
  · exact .inl (h.past hlt)

theorem After.step {data : List UInt8} {ops : List Op} (h : After data ops s) (op : Op) :
    After data (ops ++ [op]) (s.step .littleEndian op) := by
  cases op with
  | setByteOrder b =>
      have hasked : asked (ops ++ [.setByteOrder b]) = asked ops := asked_concat ops _
      have horder : orderAfter (ops ++ [.setByteOrder b]) = b := List.foldl_concat _ _ _ _
      refine ⟨h.data, h.systemOrder, horder.symm, ?_, ?_⟩
      · rw [hasked]
        exact h.ok
      · rw [hasked]
        exact h.past
  | read T i =>
      have hasked : asked (ops ++ [.read T i]) = asked ops + T.size := asked_concat ops _
      have horder : orderAfter (ops ++ [.read T i]) = orderAfter ops := List.foldl_concat _ _ _ _
      rw [DataStream.step]
      obtain hle | hlt := le_or_gt (asked ops + T.size) data.length
      · obtain ⟨hidx, hok⟩ := h.ok (by omega)
        rw [(read_fits h.systemOrder hok (by rw [h.data, hidx]; exact hle) i).1]
        refine ⟨h.data, h.systemOrder, by rw [horder, ← h.byteOrder], fun _ => ⟨?_, hok⟩, fun hlt => ?_⟩
        · rw [hasked, ← hidx]
        · omega
      · rw [read_past (h.past_or hlt) i]
        exact ⟨h.data, h.systemOrder, by rw [horder, ← h.byteOrder], fun hle => by omega, fun _ => rfl⟩

theorem after_run (data : List UInt8) (ops : List Op) : After data ops ((new data).run .littleEndian ops) := by
  induction ops using List.reverseRecOn with
  | nil => exact after_new data
  | append_singleton ops op ih =>
      rw [DataStream.run, List.foldl_concat]
      exact ih.step op

/-- **Decoding field by field**, on a little-endian host. After any operations, a read that fits, as all before
it did, gives the value of the next bytes in the byte order in force and moves behind them; from the first read
that does not fit on, every read leaves its variable and the position alone. -/
theorem read_run (data : List UInt8) (ops : List Op) (T : IntType) (i : T.Rep) :
    (asked ops + T.size ≤ data.length →
        T.value (((new data).run .littleEndian ops).read .littleEndian T i).2 =
            decode (orderAfter ops) T ((data.drop (asked ops)).take T.size) ∧
          ((new data).run .littleEndian ops).idx = asked ops ∧
          (((new data).run .littleEndian ops).read .littleEndian T i).1.idx = asked ops + T.size) ∧
      (data.length < asked ops + T.size →
        (((new data).run .littleEndian ops).read .littleEndian T i).2 = i ∧
          (((new data).run .littleEndian ops).read .littleEndian T i).1.idx =
            ((new data).run .littleEndian ops).idx) := by
  have h := after_run data ops
  refine ⟨fun hle => ?_, fun hlt => ?_⟩
  · obtain ⟨hidx, hok⟩ := h.ok (by omega)
    obtain ⟨hstream, hvalue⟩ := read_fits h.systemOrder hok (by rw [h.data, hidx]; exact hle) i
    refine ⟨?_, hidx, ?_⟩
    · rw [hvalue, h.byteOrder, h.data, hidx]
    · rw [hstream, ← hidx]
  · rw [read_past (h.past_or hlt) i]
    exact ⟨rfl, rfl⟩

/-- A little-endian word and then a big-endian number with a sign; there is no third byte. -/
theorem read_run_int16 :
    let ops := [.setByteOrder .littleEndian, .read .uint16 0, .setByteOrder .bigEndian]
    (((new [1, 2, 0xFF, 0xFE]).run .littleEndian ops).read .littleEndian .int16 0).2.toInt = -2 ∧
      (((new [1, 2, 0xFF]).run .littleEndian ops).read .littleEndian .int16 7).2 = 7 := by
  intro ops
  have hfits := ((read_run [1, 2, 0xFF, 0xFE] ops .int16 0).1 (by decide)).1
  have hpast := ((read_run [1, 2, 0xFF] ops .int16 7).2 (by decide)).1
  exact ⟨hfits.trans (by decide), hpast⟩

end DataStream

end HelpzBase
