import Helpz.Net.RoundTrip

/-!
# The size of a packet

`net_defs.h` keeps 17 bytes of a UDP datagram for the headers: 9 for the packet and 8 for a fragment. The
byte of an answer id is not among them, so a fragment of an answer may be one byte too long
(`length_encode_le_iff`).

* `length_encode`: a packet has 9 bytes besides its body;
* `Overfull`: the fragments that do not fit.
-/

namespace HelpzNet

open HelpzLib

theorem length_encode (qt : Qt) (pkt : Packet) : (pkt.encode qt).length = 9 + pkt.body.length := by
  simp only [Packet.encode, Packet.header, List.length_append, List.length_cons, length_toBE]
  omega

/-- The body of a fragment of an answer at the largest fragment size: the answer id, the fragment header
and the data. -/
def largestBody (a : UInt8) (d : Device) : Bytes :=
  a :: (toBE 4 d.size ++ toBE 4 d.pos ++ (d.data.drop (d.pos % 2 ^ 32)).take maxPacketDataSize)

/-- The next packet of the message is a fragment of an answer, at the largest fragment size and with as
much data, and it is not compressed or compression does not shorten it. -/
structure Overfull (qt : Qt) (m : MessageItem) (d : Device) : Prop where
  fragmented : d.size > m.fragmentSize
  largest : m.fragmentSize = maxPacketDataSize
  within : d.atEnd = false
  left : maxPacketDataSize ≤ (d.size - d.pos % 2 ^ 32) % 2 ^ 32
  answer : ∃ a, m.answerId = some a ∧
    (m.minCompressSize < (largestBody a d).length → (largestBody a d).length ≤ (qt.qCompress (largestBody a d)).length)

variable {qt : Qt} {m : MessageItem} {d : Device}

/-- Only a fragment of an answer, with as much data as can be, exceeds the limit before compression. -/
theorem length_packBody_le_iff (m : MessageItem) (d : Device) :
    9 + (packBody m d).1.length ≤ maxUdpPacketSize ↔
      ¬ (d.size > m.fragmentSize ∧ m.fragmentSize = maxPacketDataSize ∧ d.atEnd = false ∧
        maxPacketDataSize ≤ (d.size - d.pos % 2 ^ 32) % 2 ^ 32 ∧ m.answerId.isSome = true) := by
  have hmax := m.fragmentSize_mem
  have hdata : maxPacketDataSize = 65490 := rfl
  have hudp : maxUdpPacketSize = 65507 := rfl
  have hhead : (answerHead m.answerId).length = if m.answerId.isSome then 1 else 0 := by
    unfold answerHead
    cases m.answerId <;> rfl
  rw [length_packBody, hhead]
  cases m.answerId.isSome <;> cases d.atEnd <;> simp only [if_true, if_false, Bool.false_eq_true,
    Bool.true_eq_false, false_and, and_false, true_and, and_true, not_false_eq_true, iff_true]
  all_goals split_ifs <;> omega

theorem packBody_largest {a : UInt8} (ha : m.answerId = some a) (hsize : d.size > m.fragmentSize)
    (hmax : m.fragmentSize = maxPacketDataSize) (hend : d.atEnd = false)
    (hleft : maxPacketDataSize ≤ (d.size - d.pos % 2 ^ 32) % 2 ^ 32) :
    (packBody m d).1 = largestBody a d := by
  rw [packBody, if_pos hsize, hend]
  simp only [Bool.false_eq_true, if_false, ha, answerHead, addRawData, hmax, min_eq_left hleft]
  rfl

/-- **A packet exceeds the limit exactly when it is overfull.** -/
theorem length_packItem_le_iff (hq : ∀ x, (qt.qCompress x).length ≤ x.length) (m : MessageItem) (d : Device)
    (id : UInt8) : ((Protocol.packItem qt m d id).encode qt).length ≤ maxUdpPacketSize ↔ ¬ Overfull qt m d := by
  have hlt := length_packBody_lt m d
  have hbody : (Protocol.packItem qt m d id).body =
      if (packBody m d).1.length > m.minCompressSize then qt.qCompress (packBody m d).1 else (packBody m d).1 := by
    unfold Protocol.packItem compressBody
    rw [Nat.mod_eq_of_lt (by omega)]
    split_ifs <;> rfl
  rw [length_encode, hbody]
  by_cases hfit : 9 + (packBody m d).1.length ≤ maxUdpPacketSize
  · -- it fits as it is, and compression only shortens it
    have hcomp := hq (packBody m d).1
    refine iff_of_true (by split_ifs <;> omega) fun h => ?_
    obtain ⟨a, ha, _⟩ := h.answer
    refine (length_packBody_le_iff m d).mp hfit ⟨h.fragmented, h.largest, h.within, h.left, ?_⟩
    rw [ha]
    rfl
  · obtain ⟨hsize, hmax, hend, hleft, hsome⟩ := not_not.mp (mt (length_packBody_le_iff m d).mpr hfit)
    obtain ⟨a, ha⟩ := Option.isSome_iff_exists.mp hsome
    have hlen : (packBody m d).1.length = 65499 := by
      have hdata : maxPacketDataSize = 65490 := rfl
      have hhead : (answerHead (some a)).length = 1 := rfl
      rw [length_packBody, if_pos hsize, hend, ha, hmax, min_eq_left hleft, hhead,
        if_neg Bool.false_ne_true, hdata]
    have hudp : maxUdpPacketSize = 65507 := rfl
    have heq := packBody_largest ha hsize hmax hend hleft
    have hover : Overfull qt m d ↔
        (m.minCompressSize < (packBody m d).1.length →
          (packBody m d).1.length ≤ (qt.qCompress (packBody m d).1).length) := by
      rw [heq]
      refine ⟨fun h => ?_, fun h => ⟨hsize, hmax, hend, hleft, a, ha, h⟩⟩
      obtain ⟨a', ha', h'⟩ := h.answer
      obtain rfl := Option.some.inj (ha.symm.trans ha')
      exact h'
    rw [hover]
    split_ifs <;> omega

/-- **When a packet fits a UDP datagram**, if `qCompress` enlarges nothing: unless it is a fragment of an
answer at the largest fragment size with as much data left, and compression does not shorten it. -/
theorem length_encode_le_iff (qt : Qt) (hq : ∀ x, (qt.qCompress x).length ≤ x.length) (p : Protocol)
    (m : MessageItem) (now₁ now₂ : TimePoint) (pkt : Packet)
    (hp : (Protocol.preparePacketToSend qt p m now₁ now₂).1 = some pkt) :
    (pkt.encode qt).length ≤ maxUdpPacketSize ↔ ∀ d, m.dataDevice = some d → ¬ Overfull qt m d := by
  cases hd : m.dataDevice with
  | none =>
      simp only [Protocol.preparePacketToSend, hd] at hp
      cases hp
  | some d =>
      obtain rfl := Option.some.inj ((Protocol.preparePacketToSend_fst qt p hd now₁ now₂).symm.trans hp)
      rw [length_packItem_le_iff hq m d]
      simp

theorem size_qCompress_storing (x : Bytes) : (Qt.storing.qCompress x).length ≤ x.length := by
  simp only [Qt.storing]
  split_ifs
  · exact le_rfl
  · exact Nat.zero_le _

/-- An answer at the largest fragment size, of which a query asks for the first part. -/
def largeAnswer (data : Bytes) : MessageItem :=
  { (MessageItem.new 0 16 (some 7)).setFragmentSize maxPacketDataSize with
    dataDevice := some ⟨data, 0, Nat.zero_le _⟩ }

theorem overfull_largeAnswer {data : Bytes} (hlen : data.length = maxPacketDataSize + 1) :
    Overfull Qt.storing (largeAnswer data) ⟨data, 0, Nat.zero_le _⟩ := by
  have hsize : (⟨data, 0, Nat.zero_le _⟩ : Device).size = maxPacketDataSize + 1 := hlen
  have hdata : maxPacketDataSize = 65490 := rfl
  have hfrag : (largeAnswer data).fragmentSize = maxPacketDataSize := by
    change MessageItem.clampFragmentSize maxPacketDataSize = maxPacketDataSize
    decide
  refine ⟨by omega, hfrag, ?_, ?_, 7, rfl, fun _ => ?_⟩
  · rw [Device.atEnd, decide_eq_false_iff_not]
    change ¬ 0 = data.length
    omega
  · rw [hsize]
    change maxPacketDataSize ≤ (maxPacketDataSize + 1 - 0 % 2 ^ 32) % 2 ^ 32
    omega
  · -- the stored form is as long as the body
    have hbody : (largestBody 7 ⟨data, 0, Nat.zero_le _⟩).length < 2 ^ 30 := by
      simp only [largestBody, List.length_cons, List.length_append, length_toBE, List.length_take]
      omega
    exact le_of_eq (congrArg List.length (if_pos hbody)).symm

/-- **The limit is exceeded** by a fragment of an answer of 65491 bytes. -/
theorem largeAnswer_exceeds : ¬ ∀ (qt : Qt), (∀ x, (qt.qCompress x).length ≤ x.length) →
    ∀ (p : Protocol) (m : MessageItem) (now₁ now₂ : TimePoint) (pkt : Packet),
      (Protocol.preparePacketToSend qt p m now₁ now₂).1 = some pkt →
        (pkt.encode qt).length ≤ maxUdpPacketSize := by
  intro h
  have hlen : (List.replicate 65491 (0 : UInt8)).length = maxPacketDataSize + 1 := List.length_replicate
  have hfits := h Qt.storing size_qCompress_storing Protocol.fresh (largeAnswer (List.replicate 65491 0)) 0 0 _
    (Protocol.preparePacketToSend_fst Qt.storing Protocol.fresh rfl 0 0)
  exact (length_packItem_le_iff size_qCompress_storing _ _ _).mp hfits (overfull_largeAnswer hlen)

/-- A small answer fits. -/
theorem length_encode_le_iff_small :
    ((Protocol.packItem Qt.storing (buildItem 0 16 (some 7) [.write [1]]) (Device.full [1]) 0).encode
      Qt.storing).length ≤ maxUdpPacketSize := by
  have hd : (buildItem 0 16 (some 7) [.write [1]]).dataDevice = some (Device.full [1]) := by decide
  have hiff := length_encode_le_iff Qt.storing size_qCompress_storing Protocol.fresh
    (buildItem 0 16 (some 7) [.write [1]]) 0 0 _ (Protocol.preparePacketToSend_fst Qt.storing Protocol.fresh hd 0 0)
  refine hiff.mpr fun d hd' hover => ?_
  obtain rfl := Option.some.inj (hd.symm.trans hd')
  exact absurd hover.fragmented (by decide)

end HelpzNet
