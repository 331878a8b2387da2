import Helpz.Lib.Bytes
import Mathlib.Data.Int.Basic

/-!
# Constants, flags and the packet of the protocol

The limits of `net_defs.h`, the reserved commands and flag bits of `net_protocol.h`, and the packet
as the code sees it after the header has been read. The functions of QtCore the protocol calls are
collected in `Qt`, with what the protocol relies on as fields.
-/

namespace HelpzNet

open HelpzLib

/-- A byte string (`QByteArray`). -/
abbrev Bytes := List UInt8

/-- A point, or a span, of `std::chrono::system_clock`, in nanoseconds. -/
abbrev TimePoint := ℤ

def milliseconds (n : ℤ) : TimePoint := n * 1000000

def seconds (n : ℤ) : TimePoint := n * 1000000000

def maxUdpPacketSize : ℕ := 65507

def maxPacketDataSize : ℕ := maxUdpPacketSize - 17

def maxMessageDataSize : ℕ := maxPacketDataSize / 2

def protocolMaxMessageSize : ℕ := 2147483648

namespace Cmd

def ping : UInt8 := 1
def removeFragment : UInt8 := 2

end Cmd

namespace Flag

def repeated : UInt8 := 0x08
def fragmentQuery : UInt8 := 0x10
def fragment : UInt8 := 0x20
def answer : UInt8 := 0x40
def compressed : UInt8 := 0x80

end Flag

/-- `flags & f`, as a condition. -/
def hasFlag (flags f : UInt8) : Bool := decide (flags &&& f ≠ 0)

theorem and_or_right (a b f : UInt8) : (a ||| b) &&& f = (a &&& f) ||| (b &&& f) := by
  apply UInt8.eq_of_toBitVec_eq
  ext i
  simp [Bool.and_or_distrib_right]

@[simp] theorem hasFlag_or (a b f : UInt8) : hasFlag (a ||| b) f = (hasFlag a f || hasFlag b f) := by
  simp only [hasFlag, and_or_right, ne_eq, UInt8.or_eq_zero_iff, not_and_or, Bool.decide_or]

@[simp] theorem hasFlag_zero (f : UInt8) : hasFlag 0 f = false := by simp [hasFlag]

theorem hasFlag_or_right (flags a b : UInt8) :
    hasFlag flags (a ||| b) = (hasFlag flags a || hasFlag flags b) := by
  rw [hasFlag, UInt8.and_comm, and_or_right, UInt8.and_comm a, UInt8.and_comm b]
  simp only [hasFlag, ne_eq, UInt8.or_eq_zero_iff, not_and_or, Bool.decide_or]

theorem hasFlag_or_right_eq_false {flags a b : UInt8} :
    hasFlag flags (a ||| b) = false ↔ hasFlag flags a = false ∧ hasFlag flags b = false := by
  rw [hasFlag_or_right, Bool.or_eq_false_iff]

/-- The functions of QtCore the protocol calls. `qChecksum` is any function of the bytes to 16-bit
values; a `QByteArray` holds fewer than `2 ^ 31` bytes; `qUncompress` undoes `qCompress`, on arrays
that leave it room, and gives an empty array when it has nothing to work on. -/
structure Qt where
  qChecksum : Bytes → ℕ
  qCompress : Bytes → Bytes
  qUncompress : Bytes → Bytes
  qChecksum_lt : ∀ x, qChecksum x < 65536
  size_qCompress : ∀ x, (qCompress x).length < 2 ^ 31
  qUncompress_nil : qUncompress [] = []
  qUncompress_qCompress : ∀ x, x ≠ [] → x.length < 2 ^ 30 → qUncompress (qCompress x) = x

/-- One step of the CRC-16 of ISO 3309, for four bits. -/
def crcNibble (crc c : ℕ) : ℕ := (crc / 16) ^^^ (0x1081 * ((crc ^^^ c) % 16))

/-- The checksum `qChecksum` computes. -/
def crc16 (x : Bytes) : ℕ :=
  (65535 - x.foldl (fun crc b => crcNibble (crcNibble crc b.toNat) (b.toNat / 16)) 0xffff % 65536)

/-- QtCore with its checksum, and a compression that stores. -/
def Qt.storing : Qt where
  qChecksum := crc16
  qCompress x := if x.length < 2 ^ 30 then x else []
  qUncompress x := x
  qChecksum_lt x := by unfold crc16; omega
  size_qCompress x := by
    split_ifs with h
    · exact lt_trans h (by decide)
    · exact Nat.two_pow_pos 31
  qUncompress_nil := rfl
  qUncompress_qCompress x _ h := if_pos h

/-- A packet: what follows the checksum in the header, and the body. -/
structure Packet where
  id : UInt8
  cmd : UInt8
  flags : UInt8
  body : Bytes
  deriving DecidableEq, Repr

end HelpzNet
