import Helpz.Net.Announced
import Helpz.Net.Missing
import Helpz.Net.RoundTrip
import Mathlib.Order.Interval.Set.Nat

/-!
# The queries for missing parts

While parts are missing, a transfer asks for the first of them, at most `max_fragment_size_` bytes. That size is
what the first packet says, or half a packet; it grows with each fragment and is halved by the timer.

* `Turn`: what happens to a transfer in any order: a part comes, the size grows, the timer halves it;
* `Productive`: the list of missing parts is in normal form within the full size, and the size is within its bounds;
* `Round`: a query, what happens until the reply, and the reply; `queries_productive`: each round takes away what
  was asked for, so there are no more rounds than bytes;
* `Announcing.AllProductive`: it is so for the transfers of a protocol object, in every run.
-/

namespace HelpzNet

open HelpzLib MessageItem

/-- The fragment size a transfer starts with, for the size its first packet gives. -/
def firstFragmentSize (onWire : ℕ) : ℕ :=
  if onWire = 0 ∨ onWire > maxPacketDataSize then maxMessageDataSize else onWire

/-- The fragment size after the timer has found the transfer idle. -/
def halveFragmentSize (size : ℕ) : ℕ := if size / 2 < 128 then 128 else size / 2

/-- What a query for `part` is answered with: `size` bytes from `pos` on, with the size the sender makes of it, or
fewer at the end of the payload. -/
def reply (payload : Bytes) (part : ℕ × ℕ) : Bytes := (payload.drop part.1).take (clampFragmentSize part.2)

/-- What happens to a transfer. -/
inductive Turn
  | part (x : Part)
  | grow
  | halve

/-- A query, after some turns, and what happens until it is answered. -/
structure Round where
  before : List Turn
  between : List Turn

namespace FragmentedMessage

/-- The offsets that are missing. -/
def missing (m : FragmentedMessage) : Set ℕ := offsets m.partVect

def turn (m : FragmentedMessage) : Turn → FragmentedMessage
  | .part x => m.addData x.pos x.bytes
  | .grow => { m with maxFragmentSize := Protocol.growFragmentSize m.maxFragmentSize }
  | .halve => { m with maxFragmentSize := halveFragmentSize m.maxFragmentSize }

def turns (m : FragmentedMessage) (l : List Turn) : FragmentedMessage := l.foldl turn m

/-- A query is sent, `between` happens, and the query is answered. -/
def answered (payload : Bytes) (m : FragmentedMessage) (between : List Turn) : FragmentedMessage :=
  (m.turns between).addData m.getNextPart.1 (reply payload m.getNextPart)

/-- The transfer after the round. -/
def round (payload : Bytes) (m : FragmentedMessage) (r : Round) : FragmentedMessage :=
  (m.turns r.before).answered payload r.between

def rounds (payload : Bytes) (m : FragmentedMessage) (l : List Round) : FragmentedMessage := l.foldl (round payload) m

/-- The bounds of the fragment size. -/
def Sized (m : FragmentedMessage) : Prop := 1 ≤ m.maxFragmentSize ∧ m.maxFragmentSize ≤ maxPacketDataSize

/-- The next query asks for something that is missing. -/
structure Productive (fullSize : ℕ) (m : FragmentedMessage) : Prop where
  lacks : Lacks fullSize m.missing m
  sized : m.Sized

variable {fullSize : ℕ} {m : FragmentedMessage}

/-! ## The fragment size -/

theorem sized_first (onWire : ℕ) :
    1 ≤ firstFragmentSize onWire ∧ firstFragmentSize onWire ≤ maxPacketDataSize := by
  have h : 1 ≤ maxMessageDataSize ∧ maxMessageDataSize ≤ maxPacketDataSize := by decide
  unfold firstFragmentSize
  split_ifs with h0
  · exact h
  · omega

theorem sized_grow {size : ℕ} (h : 1 ≤ size ∧ size ≤ maxPacketDataSize) :
    1 ≤ Protocol.growFragmentSize size ∧ Protocol.growFragmentSize size ≤ maxPacketDataSize := by
  have hmax : 1 ≤ maxMessageDataSize ∧ maxMessageDataSize ≤ maxPacketDataSize := by decide
  unfold Protocol.growFragmentSize
  split_ifs <;> omega

theorem sized_halve {size : ℕ} (h : 1 ≤ size ∧ size ≤ maxPacketDataSize) :
    1 ≤ halveFragmentSize size ∧ halveFragmentSize size ≤ maxPacketDataSize := by
  have hmax : 128 ≤ maxPacketDataSize := by decide
  unfold halveFragmentSize
  split_ifs <;> omega

/-! ## The missing parts -/

theorem Lacks.self {missing : Set ℕ} (h : Lacks fullSize missing m) : Lacks fullSize m.missing m :=
  ⟨h.parts, rfl, fun k hk => h.bound k (h.offsets_eq ▸ hk)⟩

theorem productive_new (id cmd : UInt8) (onWire : ℕ) (h : 1 ≤ fullSize) :
    Productive fullSize (new id cmd (firstFragmentSize onWire) fullSize) :=
  ⟨(lacks_new id cmd (firstFragmentSize onWire) h).self, sized_first onWire⟩

theorem Productive.missing_addData (h : Productive fullSize m) (hsize : fullSize < 2 ^ 31) (x : Part) :
    (m.addData x.pos x.bytes).missing = m.missing \ x.interval := (h.lacks.addData hsize x).offsets_eq

theorem Productive.addData (h : Productive fullSize m) (hsize : fullSize < 2 ^ 31) (x : Part) :
    Productive fullSize (m.addData x.pos x.bytes) :=
  ⟨(h.lacks.addData hsize x).self, h.sized⟩

theorem Productive.turn (h : Productive fullSize m) (hsize : fullSize < 2 ^ 31) (t : Turn) :
    Productive fullSize (m.turn t) := by
  cases t with
  | part x => exact h.addData hsize x
  | grow => exact ⟨⟨h.lacks.parts, rfl, h.lacks.bound⟩, sized_grow h.sized⟩
  | halve => exact ⟨⟨h.lacks.parts, rfl, h.lacks.bound⟩, sized_halve h.sized⟩

theorem Productive.missing_turn (h : Productive fullSize m) (hsize : fullSize < 2 ^ 31) (t : Turn) :
    (m.turn t).missing ⊆ m.missing := by
  cases t with
  | part x =>
      rw [FragmentedMessage.turn, h.missing_addData hsize]
      exact Set.sdiff_subset
  | grow => exact subset_rfl
  | halve => exact subset_rfl

theorem Productive.turns (h : Productive fullSize m) (hsize : fullSize < 2 ^ 31) (l : List Turn) :
    Productive fullSize (m.turns l) ∧ (m.turns l).missing ⊆ m.missing := by
  induction l generalizing m with
  | nil => exact ⟨h, subset_rfl⟩
  | cons t l ih =>
      obtain ⟨hp, hs⟩ := ih (h.turn hsize t)
      exact ⟨hp, hs.trans (h.missing_turn hsize t)⟩

theorem Productive.finite (h : Productive fullSize m) : m.missing.Finite :=
  (Set.finite_lt_nat fullSize).subset h.lacks.bound

/-- **The next query asks for the first bytes that are missing**, one at least and no more than the fragment
size. -/
theorem Productive.getNextPart (h : Productive fullSize m) (he : m.isPartsEmpty = false) :
    1 ≤ m.getNextPart.2 ∧ m.getNextPart.2 ≤ m.maxFragmentSize ∧ IsLeast m.missing m.getNextPart.1 ∧
      Set.Ico m.getNextPart.1 (m.getNextPart.1 + m.getNextPart.2) ⊆ m.missing := by
  have hsized := h.sized
  have hparts := h.lacks.parts
  cases hp : m.partVect with
  | nil => simp [isPartsEmpty, hp] at he
  | cons part l =>
      rw [hp] at hparts
      obtain ⟨hlt, hgap, _⟩ := separated_cons.mp hparts
      have hmem : ∀ k, k ∈ m.missing ↔ (part.1 ≤ k ∧ k < part.2) ∨ k ∈ offsets l := by
        intro k
        rw [missing, hp, mem_offsets_cons]
      have hleast : IsLeast m.missing part.1 := by
        refine ⟨(hmem _).mpr (Or.inl ⟨le_rfl, hlt⟩), fun k hk => ?_⟩
        rcases (hmem k).mp hk with h1 | h1
        · exact h1.1
        · have := lt_of_mem_offsets hgap h1
          omega
      have hnext : m.getNextPart = (part.1, min (part.2 - part.1) m.maxFragmentSize) := by
        simp only [FragmentedMessage.getNextPart, hp]
        split_ifs with hgt
        · rw [min_eq_right (le_of_lt hgt)]
        · rw [min_eq_left (not_lt.mp hgt)]
      rw [hnext]
      refine ⟨le_min (by omega) hsized.1, min_le_right _ _, hleast, fun k hk => ?_⟩
      have hle : min (part.2 - part.1) m.maxFragmentSize ≤ part.2 - part.1 := min_le_left _ _
      refine (hmem k).mpr (Or.inl ⟨hk.1, ?_⟩)
      have := hk.2
      simp only at this
      omega

/-! ## Rounds -/

theorem exists_replyPart (payload : Bytes) (hlen : payload.length < 2 ^ 31) (part : ℕ × ℕ)
    (hpos : part.1 < payload.length) : ∃ x : Part, x.pos = part.1 ∧ x.bytes = reply payload part ∧
      x.bytes.length = min (clampFragmentSize part.2) (payload.length - part.1) := by
  have hclamp := clampFragmentSize_mem part.2
  have hl : (reply payload part).length = min (clampFragmentSize part.2) (payload.length - part.1) := by
    rw [reply, List.length_take, List.length_drop]
  exact ⟨⟨part.1, reply payload part, by omega, by omega, by omega⟩, rfl, rfl, hl⟩

/-- **The reply to a query brings what was asked for**, whatever has happened since. -/
theorem Productive.missing_answered (h : Productive fullSize m) (hsize : fullSize < 2 ^ 31)
    (he : m.isPartsEmpty = false) {payload : Bytes} (hlen : payload.length = fullSize) (between : List Turn) :
    Productive fullSize (m.answered payload between) ∧
      (m.answered payload between).missing ⊆
        m.missing \ Set.Ico m.getNextPart.1 (m.getNextPart.1 + m.getNextPart.2) := by
  obtain ⟨hone, hmax, hleast, hsub⟩ := h.getNextPart he
  obtain ⟨hturns, hless⟩ := h.turns hsize between
  have hlast : m.getNextPart.1 + m.getNextPart.2 - 1 < fullSize :=
    h.lacks.bound _ (hsub ⟨by omega, by omega⟩)
  obtain ⟨x, hx, hbytes, hxlen⟩ := exists_replyPart payload (by omega) m.getNextPart (by omega)
  rw [answered, ← hx, ← hbytes]
  refine ⟨hturns.addData hsize x, ?_⟩
  rw [hturns.missing_addData hsize x]
  refine Set.sdiff_subset_sdiff hless (Set.Ico_subset_Ico_right ?_)
  -- at least as much is sent as was asked for, as far as the payload goes
  have hclamp : m.getNextPart.2 ≤ clampFragmentSize m.getNextPart.2 := by
    have := h.sized.2
    unfold clampFragmentSize
    split_ifs <;> omega
  omega

theorem Productive.ncard_answered (h : Productive fullSize m) (hsize : fullSize < 2 ^ 31)
    (he : m.isPartsEmpty = false) {payload : Bytes} (hlen : payload.length = fullSize) (between : List Turn) :
    (m.answered payload between).missing.ncard + m.getNextPart.2 ≤ m.missing.ncard := by
  obtain ⟨_, _, _, hsub⟩ := h.getNextPart he
  have hle := Set.ncard_le_ncard (h.missing_answered hsize he hlen between).2 (h.finite.subset Set.sdiff_subset)
  have hico : (Set.Ico m.getNextPart.1 (m.getNextPart.1 + m.getNextPart.2)).ncard = m.getNextPart.2 := by
    rw [Set.ncard_Ico_nat, Nat.add_sub_cancel_left]
  have hadd := Set.ncard_sdiff_add_ncard_of_subset hsub h.finite
  omega

theorem Productive.isPartsEmpty_iff (h : Productive fullSize m) : m.isPartsEmpty = true ↔ m.missing = ∅ :=
  h.lacks.isPartsEmpty_iff

theorem Productive.answered_complete (h : Productive fullSize m) (hsize : fullSize < 2 ^ 31) (hpos : 1 ≤ fullSize)
    (he : m.isPartsEmpty = true) {payload : Bytes} (hlen : payload.length = fullSize) (between : List Turn) :
    Productive fullSize (m.answered payload between) ∧ (m.answered payload between).missing = ∅ := by
  obtain ⟨hturns, hless⟩ := h.turns hsize between
  have hpart : m.getNextPart = (0, 0) := by simp only [FragmentedMessage.getNextPart, List.isEmpty_iff.mp he]
  obtain ⟨x, hx, hbytes, _⟩ := exists_replyPart payload (by omega) (0, 0) (by omega)
  rw [answered, hpart, ← hx, ← hbytes]
  refine ⟨hturns.addData hsize x, ?_⟩
  rw [hturns.missing_addData hsize x]
  rw [h.isPartsEmpty_iff.mp he] at hless
  rw [Set.subset_empty_iff.mp hless, Set.empty_sdiff]

/-- **A round takes at least one missing byte away.** -/
theorem Productive.round (h : Productive fullSize m) (hsize : fullSize < 2 ^ 31) (hpos : 1 ≤ fullSize)
    {payload : Bytes} (hlen : payload.length = fullSize) (r : Round) :
    Productive fullSize (m.round payload r) ∧ (m.round payload r).missing.ncard ≤ m.missing.ncard - 1 := by
  obtain ⟨hasked, hsub⟩ := h.turns hsize r.before
  have hle := Set.ncard_le_ncard hsub h.finite
  rw [FragmentedMessage.round]
  cases he : (m.turns r.before).isPartsEmpty with
  | false =>
      have hone := (hasked.getNextPart he).1
      have hcard := hasked.ncard_answered hsize he hlen r.between
      exact ⟨(hasked.missing_answered hsize he hlen r.between).1, by omega⟩
  | true =>
      obtain ⟨hp, hm⟩ := hasked.answered_complete hsize hpos he hlen r.between
      rw [hm, Set.ncard_empty]
      exact ⟨hp, Nat.zero_le _⟩

theorem Productive.rounds (h : Productive fullSize m) (hsize : fullSize < 2 ^ 31) (hpos : 1 ≤ fullSize)
    {payload : Bytes} (hlen : payload.length = fullSize) (l : List Round) :
    Productive fullSize (m.rounds payload l) ∧
      (m.rounds payload l).missing.ncard ≤ m.missing.ncard - l.length := by
  induction l generalizing m with
  | nil => exact ⟨h, le_rfl⟩
  | cons r l ih =>
      obtain ⟨hp, hcard⟩ := h.round hsize hpos hlen r
      obtain ⟨hp', hcard'⟩ := ih hp
      refine ⟨hp', hcard'.trans ?_⟩
      rw [List.length_cons]
      omega

/-- **Fragment queries are always productive.** Whatever the first packet says, and after any parts, growth and
halvings, the fragment size is within its bounds, and while parts are missing the next query asks for the first
missing bytes and its reply brings them. As many rounds as the message has bytes complete it. -/
theorem queries_productive (id cmd : UInt8) (onWire : ℕ) (hpos : 1 ≤ fullSize) (hsize : fullSize < 2 ^ 31)
    (before : List Turn) {payload : Bytes} (hlen : payload.length = fullSize) :
    let m := (new id cmd (firstFragmentSize onWire) fullSize).turns before
    (1 ≤ m.maxFragmentSize ∧ m.maxFragmentSize ≤ 65490) ∧
      (m.isPartsEmpty = false →
        (1 ≤ m.getNextPart.2 ∧ m.getNextPart.2 ≤ m.maxFragmentSize) ∧
          IsLeast m.missing m.getNextPart.1 ∧
          Set.Ico m.getNextPart.1 (m.getNextPart.1 + m.getNextPart.2) ⊆ m.missing ∧
          ∀ between, (m.answered payload between).missing.ncard + m.getNextPart.2 ≤ m.missing.ncard) ∧
      ∀ l : List Round, fullSize ≤ l.length → (m.rounds payload l).isPartsEmpty = true := by
  intro m
  have hm : Productive fullSize m := ((productive_new id cmd onWire hpos).turns hsize before).1
  refine ⟨hm.sized, fun he => ?_, fun l hl => ?_⟩
  · obtain ⟨hone, hle, hleast, hico⟩ := hm.getNextPart he
    exact ⟨⟨hone, hle⟩, hleast, hico, hm.ncard_answered hsize he hlen⟩
  · obtain ⟨hp, hcard⟩ := hm.rounds hsize hpos hlen l
    have hall : m.missing.ncard ≤ fullSize := by
      have hle := Set.ncard_le_ncard (fun k hk => Set.mem_Ico.mpr ⟨Nat.zero_le k, hm.lacks.bound k hk⟩)
        (Set.finite_Ico 0 fullSize)
      rwa [Set.ncard_Ico_nat] at hle
    refine hp.isPartsEmpty_iff.mpr ((Set.ncard_eq_zero hp.finite).mp ?_)
    omega

/-- Three bytes, one of which comes by itself; the size on the wire is none. -/
theorem queries_productive_threeBytes : (1 ≤ 3 ∧ 3 < 2 ^ 31 ∧ [7, 8, 9].length = 3) ∧
    (((new 0 16 (firstFragmentSize 0) 3).turns [.part ⟨1, [8], by decide, by decide, by decide⟩]).rounds [7, 8, 9]
      [⟨[], []⟩, ⟨[.halve], [.grow]⟩, ⟨[], []⟩]).isPartsEmpty = true :=
  ⟨by decide, (queries_productive 0 16 0 (by decide) (by decide)
    [.part ⟨1, [8], by decide, by decide, by decide⟩] rfl).2.2 _ (by decide)⟩

end FragmentedMessage

/-! ## The transfers of a protocol object -/

theorem pos_lt_of_parse {a a' : Option UInt8} {body data : Bytes} {fullSize pos mx : ℕ}
    (h : parseFragment a body = some (.fragment a' fullSize pos mx data)) : pos < 2 ^ 32 := by
  simp only [parseFragment, Option.bind_eq_bind, Option.bind_eq_some_iff] at h
  obtain ⟨⟨size, r⟩, _, ⟨pos', r'⟩, hpos, h⟩ := h
  have hlt : pos' < 256 ^ 4 := takeBE_lt hpos
  simp only at h
  split_ifs at h
  · simp only [Option.bind_eq_some_iff] at h
    obtain ⟨_, _, h⟩ := h
    cases h
    exact hlt
  · cases h
    exact hlt

theorem pos_lt_of_content {qt : Qt} {pkt : Packet} {a : Option UInt8} {fullSize pos mx : ℕ} {data : Bytes}
    (h : pkt.content qt = some (.fragment a fullSize pos mx data)) : pos < 2 ^ 32 := by
  obtain ⟨body, _, hb⟩ := Option.bind_eq_some_iff.mp h
  unfold parseContent at hb
  split_ifs at hb with hcmd hq ha hf hf
  · obtain ⟨_, _, he⟩ := Option.map_eq_some_iff.mp hb
    cases he
  · simp only [parseFragmentQuery, Option.bind_eq_bind, Option.bind_eq_some_iff] at hb
    obtain ⟨_, _, _, _, _, _, he⟩ := hb
    cases he
  · cases body with
    | nil => cases hb
    | cons x r => exact pos_lt_of_parse hb
  · cases body <;> cases hb
  · exact pos_lt_of_parse hb
  · cases hb

namespace Protocol

/-- The fragment size of every transfer is within its bounds. -/
def AllSized (p : Protocol) : Prop := ∀ x m, p.fragmentedMessages x = some m → m.Sized

variable {p q : Protocol}

theorem AllSized.congr (h : p.AllSized) (he : q.fragmentedMessages = p.fragmentedMessages) : q.AllSized :=
  fun x m hm => h x m (he ▸ hm)

theorem AllSized.requery (h : p.AllSized) (now : TimePoint) (id : UInt8) : (requery now p id).AllSized := by
  unfold Protocol.requery
  split
  · exact h
  next m hm =>
    split_ifs
    · refine AllSized.congr ?_ ((sameRx_addTimeoutAt _ _ _).trans (sameRx_send _ _ _ _ _)).frag
      intro x m' hm'
      by_cases hx : x = id
      · subst hx
        simp only [setFragment, Function.update_self, Option.some.injEq] at hm'
        rw [← hm']
        exact FragmentedMessage.sized_halve (h x m hm)
      · simp only [setFragment, Function.update_of_ne hx] at hm'
        exact h x m' hm'
    · exact h

theorem AllSized.requeryAll (h : p.AllSized) (now : TimePoint) (ids : List UInt8) :
    (ids.foldl (Protocol.requery now) p).AllSized := by
  induction ids generalizing p with
  | nil => exact h
  | cons id ids ih => exact ih (h.requery now id)

/-- **The timer and the other actions but an arrival keep the sizes within bounds.** -/
theorem AllSized.step_of_no_arrival (h : p.AllSized) (qt : Qt) {act : Action}
    (hno : ∀ pkt env, act ≠ .receive pkt env) : (p.step qt act).1.AllSized := by
  cases act with
  | send cmd answerId calls => exact h.congr (sameRx_sendItem p _).frag
  | write i now₁ now₂ => exact h.congr (sameRx_write qt p i now₁ now₂).frag
  | timer data now₁ now₂ =>
      cases data with
      | null => exact h.congr (sameRx_processWaitList_null p now₁ now₂).frag
      | fragment =>
          simp only [Protocol.step, processWaitList]
          exact h.requeryAll now₁ allIds
  | receive pkt env => exact absurd rfl (hno pkt env)

end Protocol

namespace Announcing

open Protocol FragmentedMessage

/-- The data of a fragment fits into a `QByteArray`. -/
def FitsArray (qt : Qt) (_ : Announcing) : Action → Prop
  | .receive pkt _ => ∀ a fullSize pos mx data, pkt.content qt = some (.fragment a fullSize pos mx data) →
      data.length < 2 ^ 31
  | _ => True

/-- The sizes are within bounds, and the queries of a transfer that was announced with at least one byte are
productive. -/
structure AllProductive (s : Announcing) : Prop where
  sized : s.node.AllSized
  productive : ∀ x m, s.node.fragmentedMessages x = some m → 1 ≤ s.size x → Productive (s.size x) m
  bounded : ∀ x m, s.node.fragmentedMessages x = some m → s.size x < 2 ^ 31

variable {qt : Qt} {s : Announcing} {pkt : Packet} {env : Env} {a : Option UInt8} {fullSize pos mx : ℕ}
  {data : Bytes} {size : ℕ} {m m' : FragmentedMessage}

theorem productive_congr (h : Productive size m) (hparts : m'.partVect = m.partVect) (hs : m'.Sized) :
    Productive size m' := by
  have hl : Lacks size m.missing m' := ⟨hparts ▸ h.lacks.parts, hparts ▸ rfl, h.lacks.bound⟩
  exact ⟨hl.self, hs⟩

theorem productive_fragmentEntry (h : s.AllProductive) (ht : Takes qt s.node pkt env a fullSize pos mx data) :
    ((s.node.afterTest pkt env).fragmentEntry pkt.id pkt.cmd mx fullSize).Sized ∧
      s.announce qt (.receive pkt env) pkt.id < 2 ^ 31 ∧
      (1 ≤ s.announce qt (.receive pkt env) pkt.id → Productive (s.announce qt (.receive pkt env) pkt.id)
        ((s.node.afterTest pkt env).fragmentEntry pkt.id pkt.cmd mx fullSize)) := by
  unfold fragmentEntry
  cases he : (s.node.afterTest pkt env).fragmentedMessages pkt.id with
  | none =>
      have hnew : s.announce qt (.receive pkt env) pkt.id = fullSize := by
        simp only [announce, ht.content, he, Option.isNone_none, if_true, Function.update_self]
      rw [hnew]
      exact ⟨sized_first mx, ht.size, fun hpos => productive_new _ _ mx hpos⟩
  | some m =>
      rw [announce_of_entry he]
      have hm := entry_of_afterTest he
      exact ⟨h.sized _ m hm, h.bounded _ m hm, h.productive _ m hm⟩

theorem productive_entryWith (h : s.AllProductive) (hf : s.FitsArray qt (.receive pkt env))
    (ht : Takes qt s.node pkt env a fullSize pos mx data) :
    (s.node.entryWith pkt env fullSize pos mx data).Sized ∧
      (1 ≤ s.announce qt (.receive pkt env) pkt.id → Productive (s.announce qt (.receive pkt env) pkt.id)
        (s.node.entryWith pkt env fullSize pos mx data)) := by
  obtain ⟨hs, hlt, hp⟩ := productive_fragmentEntry h ht
  unfold entryWith grownEntry addFragment
  split_ifs with hdata
  · exact ⟨hs, fun hone => productive_congr (hp hone) rfl hs⟩
  · refine ⟨hs, fun hone => ?_⟩
    let x : Part := ⟨pos, data, pos_lt_of_content ht.content, List.length_pos_iff.mpr hdata,
      hf a fullSize pos mx data ht.content⟩
    have hopened : Productive _ { (s.node.afterTest pkt env).fragmentEntry pkt.id pkt.cmd mx fullSize with
        isOpen := true } := productive_congr (hp hone) rfl hs
    exact hopened.addData hlt x

/-- **Every action keeps the queries of all transfers productive.** -/
theorem AllProductive.step (h : s.AllProductive) {act : Action} (hf : s.FitsArray qt act) :
    (s.step qt act).AllProductive := by
  by_cases ha : ∃ pkt env, act = .receive pkt env
  · obtain ⟨pkt, env, rfl⟩ := ha
    have hentry : ∀ x m', (s.step qt (.receive pkt env)).node.fragmentedMessages x = some m' →
        m'.Sized ∧ s.announce qt (.receive pkt env) x < 2 ^ 31 ∧
          (1 ≤ s.announce qt (.receive pkt env) x → Productive (s.announce qt (.receive pkt env) x) m') := by
      intro x m' hm
      rcases entry_receive hm with hx | ⟨a, fullSize, pos, mx, data, rfl, ht, _, hparts, hsize, _⟩
      · have hm := entry_of_afterTest hx
        rw [announce_of_entry hx]
        exact ⟨h.sized x m' hm, h.bounded x m' hm, h.productive x m' hm⟩
      · obtain ⟨hs, hp⟩ := productive_entryWith h hf ht
        have hs' : m'.Sized := by
          unfold Sized
          rcases hsize with he | he <;> rw [he]
          · exact hs
          · exact sized_grow hs
        exact ⟨hs', (productive_fragmentEntry h ht).2.1, fun hone => productive_congr (hp hone) hparts hs'⟩
    exact ⟨fun x m hm => (hentry x m hm).1, fun x m hm => (hentry x m hm).2.2, fun x m hm => (hentry x m hm).2.1⟩
  · have hno : ∀ pkt env, act ≠ .receive pkt env := fun pkt env he => ha ⟨pkt, env, he⟩
    have hs := h.sized.step_of_no_arrival qt hno
    have hsize : (s.step qt act).size = s.size := announce_of_no_arrival hno
    refine ⟨hs, fun x m' hm hone => ?_, fun x m' hm => ?_⟩
    · obtain ⟨m, hx, hsame⟩ := entry_of_no_arrival hno hm
      rw [hsize] at hone ⊢
      exact productive_congr (h.productive x m hx hone) hsame.partVect (hs x m' hm)
    · obtain ⟨m, hx, _⟩ := entry_of_no_arrival hno hm
      rw [hsize]
      exact h.bounded x m hx

/-- **In every run the queries of all transfers are productive.** -/
theorem AllProductive.run (acts : List Action)
    (h : Along (fun s act => some (Announcing.step qt s act)) (FitsArray qt) fresh acts) :
    (acts.foldl (Announcing.step qt) fresh).AllProductive := by
  have hfresh : AllProductive fresh :=
    ⟨fun _ _ hm => (nomatch hm), fun _ _ hm => (nomatch hm), fun _ _ hm => (nomatch hm)⟩
  refine h.invariant (fun s act s' hs hf he => ?_) hfresh (List.foldlM_pure (m := Option))
  exact Option.some.inj he ▸ hs.step hf

end Announcing

end HelpzNet
