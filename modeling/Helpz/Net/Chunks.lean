import Helpz.Net.Bookkeeping
import Helpz.Lib.Cut

/-!
# However the stream is cut into chunks

Well-formed packets that arrive in chunks of any size are passed on one by one and in order, and
nothing stays in the buffer.

* `Framed`: a packet with its bytes on the wire; `nextPacket_framed`, `nextPacket_partial` say what
  one turn of the loop makes of all of them and of an initial part;
* `streamLoop_framed`: one pass over whole packets followed by an initial part of the next;
* `Endpoint.processAll_progress`, `processAll_framed`: any number of calls of `process_bytes`.
-/

namespace HelpzNet

open HelpzLib

/-- The header with the size field `n`: the checksum and the seven bytes it covers. -/
def Packet.head (qt : Qt) (pkt : Packet) (n : ℕ) : Bytes :=
  let h := pkt.id :: pkt.cmd :: pkt.flags :: toBE 4 n
  toBE 2 (qt.qChecksum h) ++ h

@[simp] theorem Packet.length_head (qt : Qt) (pkt : Packet) (n : ℕ) : (pkt.head qt n).length = 9 := by
  simp [Packet.head]

/-- `raw` is `pkt` on the wire, well formed: a correct checksum, and a size field that is the length
of the body, or `0xffffffff` for an empty one. -/
def Framed (qt : Qt) (pkt : Packet) (raw : Bytes) : Prop :=
  ∃ n, raw = pkt.head qt n ++ pkt.body ∧
    (n = pkt.body.length ∧ n ≤ protocolMaxMessageSize ∨ n = 0xffffffff ∧ pkt.body = [])

theorem Framed.ne_nil {qt : Qt} {pkt : Packet} {raw : Bytes} (h : Framed qt pkt raw) : raw ≠ [] := by
  obtain ⟨n, rfl, _⟩ := h
  intro he
  have := congrArg List.length he
  simp at this

theorem framed_encode (qt : Qt) {pkt : Packet} (h : pkt.body.length ≤ protocolMaxMessageSize) :
    Framed qt pkt (pkt.encode qt) :=
  ⟨pkt.body.length, by simp [Packet.encode, Packet.header, Packet.head], Or.inl ⟨rfl, h⟩⟩

/-! ## One turn of the loop -/

section Turn

variable {qt : Qt} {pkt : Packet} {n : ℕ}

theorem readHeader_head (qt : Qt) (pkt : Packet) (n : ℕ) (rest : Bytes) :
    readHeader (pkt.head qt n ++ rest) =
      ⟨qt.qChecksum (pkt.id :: pkt.cmd :: pkt.flags :: toBE 4 n), pkt.id, pkt.cmd, pkt.flags,
        if n % 2 ^ 32 = 0xffffffff then 0 else n % 2 ^ 32⟩ := by
  have hsum := qt.qChecksum_lt (pkt.id :: pkt.cmd :: pkt.flags :: toBE 4 n)
  generalize hh : pkt.id :: pkt.cmd :: pkt.flags :: toBE 4 n = h at hsum
  have h2 : (pkt.head qt n ++ rest).take 2 = toBE 2 (qt.qChecksum h) := by
    simp [Packet.head, hh]
  have hd : (pkt.head qt n ++ rest).drop 2 = h ++ rest := by
    simp [Packet.head, hh]
  have h5 : (pkt.head qt n ++ rest).drop 5 = toBE 4 n ++ rest := by
    rw [show 5 = 2 + 3 from rfl, ← List.drop_drop, hd, ← hh]
    rfl
  have h3 : (pkt.head qt n ++ rest).drop 3 = (h ++ rest).drop 1 := by
    rw [show 3 = 2 + 1 from rfl, ← List.drop_drop, hd]
  have h4 : (pkt.head qt n ++ rest).drop 4 = (h ++ rest).drop 2 := by
    rw [show 4 = 2 + 2 from rfl, ← List.drop_drop, hd]
  have hmod : qt.qChecksum h % 256 ^ 2 = qt.qChecksum h := Nat.mod_eq_of_lt hsum
  simp only [readHeader, h2, hd, h3, h4, h5, List.take_left' (length_toBE 4 n), ofBE_toBE, hmod]
  rw [← hh]
  rfl

theorem nextPacket_head {buf : Bytes} (rest : Bytes) {pos : ℕ} (hd : buf.drop pos = pkt.head qt n ++ rest)
    (hsize : (if n % 2 ^ 32 = 0xffffffff then 0 else n % 2 ^ 32) = pkt.body.length)
    (hle : pkt.body.length ≤ protocolMaxMessageSize) :
    nextPacket qt buf pos = if rest.length < pkt.body.length then .stop (.wait pos)
      else .packet { pkt with body := rest.take pkt.body.length } := by
  have hsum : ((pkt.head qt n ++ rest).drop 2).take 7 = pkt.id :: pkt.cmd :: pkt.flags :: toBE 4 n := by
    simp [Packet.head]
  have hlen : (pkt.head qt n ++ rest).length - 9 = rest.length := by simp
  have hbody : (pkt.head qt n ++ rest).drop 9 = rest := List.drop_left' (Packet.length_head qt pkt n)
  simp only [nextPacket, hd, readHeader_head, hsum, hlen, hbody, hsize]
  rw [if_neg (by simp), if_neg (by omega), if_neg (by simp)]

theorem Framed.size_eq (h : n = pkt.body.length ∧ n ≤ protocolMaxMessageSize ∨
    n = 0xffffffff ∧ pkt.body = []) :
    (if n % 2 ^ 32 = 0xffffffff then 0 else n % 2 ^ 32) = pkt.body.length ∧
      pkt.body.length ≤ protocolMaxMessageSize := by
  unfold protocolMaxMessageSize at *
  rcases h with ⟨rfl, hle⟩ | ⟨rfl, hb⟩
  · exact ⟨by rw [Nat.mod_eq_of_lt (by omega), if_neg (by omega)], hle⟩
  · rw [hb]; decide

/-- **A whole packet is read.** -/
theorem nextPacket_framed {raw buf rest : Bytes} {pos : ℕ} (h : Framed qt pkt raw)
    (hd : buf.drop pos = raw ++ rest) : nextPacket qt buf pos = .packet pkt := by
  obtain ⟨n, rfl, hn⟩ := h
  obtain ⟨hsize, hle⟩ := Framed.size_eq hn
  rw [List.append_assoc] at hd
  rw [nextPacket_head _ hd hsize hle, if_neg (by simp), List.take_left]

/-- **An initial part of a packet is left for the next call.** -/
theorem nextPacket_partial {t u buf : Bytes} {pos : ℕ} (h : Framed qt pkt (t ++ u)) (hu : u ≠ [])
    (hd : buf.drop pos = t) : nextPacket qt buf pos = .stop (.wait pos) := by
  obtain ⟨n, hraw, hn⟩ := h
  obtain ⟨hsize, hle⟩ := Framed.size_eq hn
  rcases List.append_eq_append_iff.mp hraw with ⟨v, hv, _⟩ | ⟨v, hv, hbody⟩
  · by_cases hv0 : v = []
    · -- the cut falls right behind the header, and there is a body to come
      subst hv0
      rw [List.append_nil] at hv
      have hb : u = pkt.body := by
        rw [hv] at hraw
        exact List.append_cancel_left hraw
      have hpos := List.length_pos_iff.mpr hu
      rw [nextPacket_head [] (by rw [hd, hv, List.append_nil]) hsize hle,
        if_pos (by rw [← hb]; exact hpos)]
    · have hlen := congrArg List.length hv
      have hpos := List.length_pos_iff.mpr hv0
      simp only [Packet.length_head, List.length_append] at hlen
      rw [nextPacket, hd, if_pos (by omega)]
  · have hpos := List.length_pos_iff.mpr hu
    rw [nextPacket_head v (by rw [hd, hv]) hsize hle,
      if_pos (by rw [hbody, List.length_append]; omega)]

end Turn

/-! ## One pass, and any number of calls -/

section Calls

variable {σ : Type} {qt : Qt} {deliver : σ → Packet → σ × Bool}

/-- Pass the packets on, one after the other. -/
def deliverAll (deliver : σ → Packet → σ × Bool) (s : σ) (pkts : List Packet) : σ :=
  pkts.foldl (fun s pkt => (deliver s pkt).1) s

/-- The packets with the offset at which each ends, when the first starts at `pos`. -/
def endsFrom : ℕ → List Packet → List (ℕ × Packet)
  | _, [] => []
  | pos, pkt :: pkts =>
      (pos + 9 + pkt.body.length, pkt) :: endsFrom (pos + 9 + pkt.body.length) pkts

theorem map_snd_endsFrom (pos : ℕ) (pkts : List Packet) : (endsFrom pos pkts).map Prod.snd = pkts := by
  induction pkts generalizing pos with
  | nil => rfl
  | cons pkt pkts ih => simp [endsFrom, ih]

theorem endsFrom_shift (k pos : ℕ) (pkts : List Packet) :
    (endsFrom pos pkts).map (fun c => (k + c.1, c.2)) = endsFrom (k + pos) pkts := by
  induction pkts generalizing pos with
  | nil => rfl
  | cons pkt pkts ih => simp only [endsFrom, List.map_cons, ih, ← Nat.add_assoc]

theorem Framed.length_eq {pkt : Packet} {raw : Bytes} (h : Framed qt pkt raw) :
    raw.length = 9 + pkt.body.length := by
  obtain ⟨n, rfl, _⟩ := h
  simp

theorem endsFrom_append {a : List Packet} {raws : List Bytes} (h : List.Forall₂ (Framed qt) a raws)
    (pos : ℕ) (b : List Packet) :
    endsFrom pos (a ++ b) = endsFrom pos a ++ endsFrom (pos + raws.flatten.length) b := by
  induction h generalizing pos with
  | nil => rfl
  | @cons pkt raw a raws hp h ih =>
      simp only [List.cons_append, endsFrom, ih, List.flatten_cons, List.length_append, hp.length_eq,
        Nat.add_assoc]

/-- What is left in the buffer after the whole packets were read. -/
def Pending (qt : Qt) (t : Bytes) (pkts : List Packet) (raws : List Bytes) : Prop :=
  List.Forall₂ (Framed qt) pkts raws ∧ StartsIn t raws

theorem Pending.nextPacket {t buf : Bytes} {pkts : List Packet} {raws : List Bytes}
    (h : Pending qt t pkts raws) {pos : ℕ} (hd : buf.drop pos = t) :
    nextPacket qt buf pos = .stop (.wait pos) := by
  obtain ⟨hp, hs⟩ := h
  cases hp with
  | nil =>
      have ht : t = [] := hs
      rw [HelpzNet.nextPacket, hd, ht]
      rfl
  | cons hp _ =>
      obtain ⟨u, hu, rfl⟩ := hs
      exact nextPacket_partial hp hu hd

/-- **One pass** over whole packets followed by an initial part of the next. -/
theorem streamLoop_framed {a b : List Packet} {ra rb : List Bytes} {t : Bytes}
    (ha : List.Forall₂ (Framed qt) a ra) (hb : Pending qt t b rb)
    (hR : ∀ pkt ∈ a, ∀ s, (deliver s pkt).2 = false) {n : ℕ} (hn : a.length ≤ n) (s : σ) (buf : Bytes)
    (pos : ℕ) (hd : buf.drop pos = ra.flatten ++ t) :
    streamLoop qt deliver (n + 1) s buf pos =
      ⟨deliverAll deliver s a, .wait (pos + ra.flatten.length), endsFrom pos a⟩ := by
  induction ha generalizing n s pos with
  | nil => simp [streamLoop, hb.nextPacket hd, deliverAll, endsFrom]
  | @cons pkt raw a ra hp ha ih =>
      rw [List.flatten_cons, List.append_assoc] at hd
      have hnext := nextPacket_framed hp hd
      have hrest : buf.drop (pos + 9 + pkt.body.length) = ra.flatten ++ t := by
        rw [Nat.add_assoc, ← hp.length_eq, ← List.drop_drop, hd, List.drop_left]
      obtain ⟨m, rfl⟩ : ∃ m, n = m + 1 := ⟨n - 1, by rw [List.length_cons] at hn; omega⟩
      have hrec := ih (fun q hq => hR q (List.mem_cons_of_mem _ hq))
        (by simpa using hn) (deliver s pkt).1 (pos + 9 + pkt.body.length) hrest
      rw [streamLoop, hnext]
      simp only [hR pkt List.mem_cons_self s, Bool.false_eq_true, if_false, hrec]
      rw [List.flatten_cons, List.length_append, hp.length_eq, ← Nat.add_assoc, ← Nat.add_assoc]
      rfl

theorem length_le_flatten {a : List Packet} {ra : List Bytes} (h : List.Forall₂ (Framed qt) a ra) :
    a.length ≤ ra.flatten.length := by
  induction h with
  | nil => exact le_rfl
  | cons hp _ ih =>
      rw [List.length_cons, List.flatten_cons, List.length_append, hp.length_eq]
      omega

theorem ne_nil_of_framed {a : List Packet} {ra : List Bytes} (h : List.Forall₂ (Framed qt) a ra) :
    ∀ raw ∈ ra, raw ≠ [] := by
  induction h with
  | nil => simp
  | cons hp _ ih => exact List.forall_mem_cons.mpr ⟨hp.ne_nil, ih⟩

/-- After `stream` has been received: the packets that are there in full were passed on, and the
buffer holds the initial part of the next. -/
structure Progress (qt : Qt) (deliver : σ → Packet → σ × Bool) (s₀ : σ) (f₀ : Framing)
    (a b : List Packet) (ra rb : List Bytes) (stream : Bytes) (s : σ) (f : Framing) : Prop where
  framed : List.Forall₂ (Framed qt) a ra
  pending : Pending qt f.buf b rb
  stream_eq : stream = ra.flatten ++ f.buf
  synced : f.Synced
  state : s = deliverAll deliver s₀ a
  removed : f.removed = f₀.removed + ra.flatten.length
  calls : f.calls = f₀.calls ++ endsFrom f₀.removed a

/-- **One call of `process_bytes`** reads the packets that become complete. -/
theorem Progress.processChunk {s₀ : σ} {f₀ : Framing} {a b : List Packet} {ra rb : List Bytes}
    {stream chunk more : Bytes} {s : σ} {f : Framing}
    (h : Progress qt deliver s₀ f₀ a b ra rb stream s f) (hne : chunk ≠ [])
    (hR : ∀ pkt ∈ b, ∀ s, (deliver s pkt).2 = false)
    (hmore : stream ++ (chunk ++ more) = (ra ++ rb).flatten) :
    ∃ a' b' ra' rb' s' f', a' ++ b' = a ++ b ∧ ra' ++ rb' = ra ++ rb ∧
      processChunk qt deliver s f chunk = some (s', f') ∧
      Progress qt deliver s₀ f₀ a' b' ra' rb' (stream ++ chunk) s' f' := by
  have hcut : (f.buf ++ chunk) ++ more = rb.flatten := by
    rw [h.stream_eq, List.flatten_append, List.append_assoc] at hmore
    rw [List.append_assoc]
    exact List.append_cancel_left hmore
  obtain ⟨ra', rb', t, rfl, hbuf, _, hstart⟩ := exists_cut (ne_nil_of_framed h.pending.1) hcut
  have hfa := List.forall₂_take_append b ra' rb' h.pending.1
  have hfb := List.forall₂_drop_append b ra' rb' h.pending.1
  set a' := b.take ra'.length with ha'
  set b' := b.drop ra'.length with hb'
  have hsplit : a' ++ b' = b := List.take_append_drop _ _
  have hpend : Pending qt t b' rb' := ⟨hfb, hstart⟩
  let g : Framing := { f with buf := f.buf ++ chunk, queue := f.queue ++ [chunk.length] }
  have hpass : processStream qt deliver s g.buf =
      ⟨deliverAll deliver s a', .wait ra'.flatten.length, endsFrom 0 a'⟩ := by
    have hlen : a'.length ≤ g.buf.length := by
      have := length_le_flatten hfa
      change a'.length ≤ (f.buf ++ chunk).length
      rw [hbuf, List.length_append]
      omega
    have := streamLoop_framed hfa hpend
      (fun pkt hp => hR pkt (List.mem_of_mem_take hp)) hlen s g.buf 0 hbuf
    rwa [Nat.zero_add] at this
  have hle : ra'.flatten.length ≤ g.buf.length := by
    change _ ≤ (f.buf ++ chunk).length
    rw [hbuf, List.length_append]
    omega
  have hpush := h.synced.push hne
  have hsync : (g.addCalls (endsFrom 0 a')).Synced := ⟨hpush.pos, hpush.sum⟩
  refine ⟨a ++ a', b', ra ++ ra', rb', deliverAll deliver s a',
    (g.addCalls (endsFrom 0 a')).finish ra'.flatten.length, by rw [List.append_assoc, hsplit],
    by rw [List.append_assoc], ?_, ?_⟩
  · rw [HelpzNet.processChunk, if_neg hne, recoverLoop, hpass]
    rfl
  · have hfbuf : ((g.addCalls (endsFrom 0 a')).finish ra'.flatten.length).buf = t := by
      rw [Framing.finish_buf]
      change (f.buf ++ chunk).drop _ = t
      rw [hbuf, List.drop_left]
    refine ⟨List.rel_append h.framed hfa, by rwa [hfbuf], ?_, hsync.finish _, ?_, ?_, ?_⟩
    · rw [hfbuf, h.stream_eq, List.append_assoc, hbuf, List.flatten_append, List.append_assoc]
    · rw [h.state, deliverAll, deliverAll, deliverAll, List.foldl_append]
    · change f.removed + min _ g.buf.length = _
      rw [min_eq_left hle, h.removed, List.flatten_append, List.length_append, Nat.add_assoc]
    · change f.calls ++ (endsFrom 0 a').map _ = _
      rw [endsFrom_shift, h.calls, h.removed, endsFrom_append h.framed, List.append_assoc, Nat.add_zero]

end Calls

theorem Endpoint.processAll_progress {qt : Qt} {oracle : List Event → Env} {e₀ : Endpoint}
    (chunks : List Bytes) (hne : ∀ c ∈ chunks, c ≠ []) {a b : List Packet} {ra rb : List Bytes}
    {stream : Bytes} {e : Endpoint}
    (h : Progress qt (Protocol.deliver qt oracle) e₀.protocol e₀.framing a b ra rb stream
      e.protocol e.framing)
    (hR : ∀ pkt ∈ a ++ b, ∀ p, (Protocol.deliver qt oracle p pkt).2 = false)
    (hmore : stream ++ chunks.flatten = (ra ++ rb).flatten) :
    ∃ e', e.processAll qt oracle chunks = some e' ∧
      Progress qt (Protocol.deliver qt oracle) e₀.protocol e₀.framing (a ++ b) [] (ra ++ rb) []
        (ra ++ rb).flatten e'.protocol e'.framing := by
  induction chunks generalizing a b ra rb stream e with
  | nil =>
      rw [List.flatten_nil, List.append_nil] at hmore
      have hbuf : e.framing.buf = rb.flatten := by
        rw [h.stream_eq, List.flatten_append] at hmore
        exact List.append_cancel_left hmore
      obtain ⟨_, rfl⟩ := h.pending.2.eq_nil hbuf
      obtain rfl : b = [] := List.forall₂_nil_right_iff.mp h.pending.1
      rw [← hmore, List.append_nil, List.append_nil]
      exact ⟨e, rfl, h⟩
  | cons chunk chunks ih =>
      obtain ⟨hc, hne⟩ := List.forall_mem_cons.mp hne
      rw [List.flatten_cons] at hmore
      obtain ⟨a', b', ra', rb', p, f, hab, hrab, hstep, h'⟩ :=
        h.processChunk hc (fun pkt hp => hR pkt (List.mem_append_right _ hp)) hmore
      rw [← List.append_assoc, ← hrab] at hmore
      rw [← hab] at hR ⊢
      rw [← hrab]
      obtain ⟨e', he', hfin⟩ := ih (e := ⟨p, f⟩) hne h' hR hmore
      have hbytes : e.processBytes qt oracle chunk = some ⟨p, f⟩ := by rw [processBytes, hstep]; rfl
      exact ⟨e', by rw [processAll, List.foldlM_cons, hbytes]; exact he', hfin⟩

/-- The endpoint after the packets were passed on one by one. -/
def Endpoint.afterPackets (qt : Qt) (oracle : List Event → Env) (e : Endpoint) (pkts : List Packet)
    (total : ℕ) : Endpoint where
  protocol := deliverAll (Protocol.deliver qt oracle) e.protocol pkts
  framing := ⟨[], [], e.framing.removed + total, e.framing.calls ++ endsFrom e.framing.removed pkts⟩

/-- **However the packets are cut into chunks, they are passed on one by one and in order, and
nothing stays in the buffer**, if no handler throws and the bodies can be read. -/
theorem processAll_framed (qt : Qt) (oracle : List Event → Env) (e : Endpoint)
    (hbuf : e.framing.buf = []) (hqueue : e.framing.queue = []) (pkts : List Packet)
    (raws : List Bytes) (hf : List.Forall₂ (Framed qt) pkts raws)
    (hthrow : ∀ log, (oracle log).throws = false) (hread : ∀ pkt ∈ pkts, pkt.Readable qt)
    (chunks : List Bytes) (hne : ∀ c ∈ chunks, c ≠ []) (hcut : chunks.flatten = raws.flatten) :
    e.processAll qt oracle chunks = some (e.afterPackets qt oracle pkts raws.flatten.length) ∧
      e.processAll qt oracle chunks = e.processAll qt oracle raws ∧
      (e.afterPackets qt oracle pkts raws.flatten.length).framing.calls.map Prod.snd =
        e.framing.calls.map Prod.snd ++ pkts := by
  have hR : ∀ pkt ∈ ([] : List Packet) ++ pkts, ∀ p, (Protocol.deliver qt oracle p pkt).2 = false :=
    fun pkt hp p => p.internalProcessMessage_throws qt _ pkt (hthrow p.log) (hread pkt hp)
  have hstart : Progress qt (Protocol.deliver qt oracle) e.protocol e.framing [] pkts [] raws []
      e.protocol e.framing := by
    refine ⟨List.Forall₂.nil, ⟨hf, ?_⟩, by rw [hbuf]; rfl, ⟨by simp [hqueue], by simp [hqueue, hbuf]⟩,
      rfl, rfl, by simp [endsFrom]⟩
    rw [hbuf]
    exact startsIn_nil (ne_nil_of_framed hf)
  have hall : ∀ cs : List Bytes, (∀ c ∈ cs, c ≠ []) → cs.flatten = raws.flatten →
      e.processAll qt oracle cs = some (e.afterPackets qt oracle pkts raws.flatten.length) := by
    intro cs hcs hfl
    obtain ⟨e', he', hp⟩ := Endpoint.processAll_progress cs hcs hstart hR hfl
    obtain ⟨p, buf, queue, removed, calls⟩ := e'
    obtain rfl : buf = [] := hp.pending.2
    obtain rfl : queue = [] := hp.synced.queue_eq_nil rfl
    obtain rfl : p = _ := hp.state
    obtain rfl : removed = _ := hp.removed
    obtain rfl : calls = _ := hp.calls
    exact he'
  exact ⟨hall chunks hne hcut, by rw [hall chunks hne hcut, hall raws (ne_nil_of_framed hf) rfl],
    by simp [Endpoint.afterPackets, map_snd_endsFrom]⟩

/-- Two packets, cut inside the header of the second. -/
theorem processAll_two_packets :
    let pkts : List Packet := [⟨0, 16, 0, [7]⟩, ⟨1, 16, 0, []⟩]
    let raws := pkts.map (Packet.encode Qt.storing)
    let chunks := [raws.flatten.take 12, raws.flatten.drop 12]
    let e := Endpoint.fresh.afterPackets Qt.storing (fun _ => Env.quiet) pkts raws.flatten.length
    Endpoint.fresh.processAll Qt.storing (fun _ => Env.quiet) chunks = some e ∧
      Endpoint.fresh.processAll Qt.storing (fun _ => Env.quiet) chunks =
        Endpoint.fresh.processAll Qt.storing (fun _ => Env.quiet) raws ∧
      e.framing.calls.map Prod.snd = Endpoint.fresh.framing.calls.map Prod.snd ++ pkts :=
  processAll_framed Qt.storing (fun _ => Env.quiet) Endpoint.fresh rfl rfl _ _
    (.cons (framed_encode _ (by decide)) (.cons (framed_encode _ (by decide)) .nil)) (fun _ => rfl)
    (by decide) _ (by decide) (by decide)

/-- An answer without a body: it is well formed on the wire, but reading the answer id throws, and
the whole chunk is dropped with the packet behind it. -/
theorem packet_behind_unreadable_lost : ¬ ∀ (qt : Qt) (oracle : List Event → Env) (e : Endpoint),
    e.framing.buf = [] → e.framing.queue = [] → ∀ (pkts : List Packet) (raws : List Bytes),
    List.Forall₂ (Framed qt) pkts raws → raws.flatten.length < 2 ^ 31 →
    (∀ log, (oracle log).throws = false) → ∀ chunks : List Bytes, (∀ c ∈ chunks, c ≠ []) →
    chunks.flatten = raws.flatten → ∃ e', e.processAll qt oracle chunks = some e' ∧
      e'.framing.calls.map Prod.snd = e.framing.calls.map Prod.snd ++ pkts ∧
      e'.framing.buf = [] ∧ e'.framing.queue = [] := by
  intro h
  let pkts : List Packet := [⟨0, 16, Flag.answer, []⟩, ⟨1, 16, 0, [5]⟩]
  let raws := pkts.map (Packet.encode Qt.storing)
  obtain ⟨e, he, hcalls, _⟩ := h Qt.storing (fun _ => Env.quiet) Endpoint.fresh rfl rfl pkts raws
    (.cons (framed_encode _ (by decide)) (.cons (framed_encode _ (by decide)) .nil)) (by decide)
    (fun _ => rfl) [raws.flatten] (by decide) (by decide)
  have hbad : (Endpoint.fresh.processAll Qt.storing (fun _ => Env.quiet) [raws.flatten]).all
      (fun e => decide (e.framing.calls.map Prod.snd ≠ pkts)) = true := by decide
  rw [he] at hbad
  simp only [Option.all_some, decide_eq_true_eq] at hbad
  exact hbad hcalls

end HelpzNet
