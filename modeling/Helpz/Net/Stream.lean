import Helpz.Net.FrameQueue

/-!
# One pass over the receive buffer

What `process_stream` does to a buffer, whatever is done with the packets:

* `nextPacket_packet_le`, `nextPacket_stop_pos`: a packet lies inside the buffer, a header with a
  wrong checksum is there in full;
* `streamLoop_spec`: the position reached, and where the packets passed on end;
* `frames`: the pass with a handler that does nothing. `streamLoop_eq_frames` says that a handler
  that does not throw changes neither the packets found nor the place where the pass stops.
-/

namespace HelpzNet

section Pass

variable {σ : Type} {qt : Qt}

theorem nextPacket_packet_le {buf : Bytes} {pos : ℕ} {pkt : Packet}
    (h : nextPacket qt buf pos = .packet pkt) : pos + 9 + pkt.body.length ≤ buf.length := by
  simp only [nextPacket] at h
  split_ifs at h with h1 h2 h3 h4
  cases h
  simp only [List.length_drop, List.length_take] at *
  omega

theorem nextPacket_stop_pos {buf : Bytes} {pos : ℕ} {st : Stop} (hp : pos ≤ buf.length)
    (h : nextPacket qt buf pos = .stop st) :
    st = .wait pos ∨ st = .oversize buf.length ∨ (st = .corrupt pos ∧ pos + 9 ≤ buf.length) := by
  simp only [nextPacket] at h
  split_ifs at h with h1 h2 h3 h4 <;> cases h
  · exact Or.inl rfl
  · exact Or.inr (Or.inl rfl)
  · refine Or.inr (Or.inr ⟨rfl, ?_⟩)
    rw [List.length_drop] at h1
    omega
  · exact Or.inl rfl

/-- Where a pass from `pos` stops: never before `pos` nor behind the buffer. A packet that failed is
there with its header, one that threw with its body. -/
def Stop.Within (len pos : ℕ) : Stop → Prop
  | .wait p => pos ≤ p ∧ p ≤ len
  | .oversize p => p = len
  | .corrupt p => pos ≤ p ∧ p + 9 ≤ len
  | .threw p n => pos ≤ p ∧ p + 9 + n ≤ len

theorem Stop.Within.mono {len pos pos' : ℕ} {st : Stop} (h : st.Within len pos) (hp : pos' ≤ pos) :
    st.Within len pos' := by
  cases st <;> simp only [Stop.Within] at * <;> omega

theorem Stop.Within.pos_le {len pos : ℕ} {st : Stop} (h : st.Within len pos) : st.pos ≤ len := by
  cases st <;> simp only [Stop.Within, Stop.pos] at * <;> omega

/-- **One pass over the buffer.** It stops within the buffer; the packets passed on end inside it,
and unless the last one threw, before the place where the pass stops. -/
theorem streamLoop_spec (qt : Qt) (deliver : σ → Packet → σ × Bool) (n : ℕ) (s : σ) {buf : Bytes}
    {pos : ℕ} (hp : pos ≤ buf.length) :
    let r := streamLoop qt deliver n s buf pos
    r.stop.Within buf.length pos ∧ (∀ c ∈ r.calls, pos ≤ c.1 ∧ c.1 ≤ buf.length) ∧
      ((∀ p k, r.stop ≠ .threw p k) → ∀ c ∈ r.calls, c.1 ≤ r.stop.pos) := by
  induction n generalizing s pos with
  | zero => exact ⟨⟨le_rfl, hp⟩, by simp [streamLoop], by simp [streamLoop]⟩
  | succ n ih =>
      cases hnext : nextPacket qt buf pos with
      | stop st =>
          simp only [streamLoop, hnext]
          refine ⟨?_, by simp, by simp⟩
          rcases nextPacket_stop_pos hp hnext with rfl | rfl | ⟨rfl, h9⟩
          · exact ⟨le_rfl, hp⟩
          · rfl
          · exact ⟨le_rfl, h9⟩
      | packet pkt =>
          have hle := nextPacket_packet_le hnext
          simp only [streamLoop, hnext]
          split_ifs with ht
          · refine ⟨⟨le_rfl, hle⟩, ?_, fun h => absurd rfl (h _ _)⟩
            simp only [List.mem_singleton]
            rintro c rfl
            exact ⟨by omega, hle⟩
          · obtain ⟨h1, h2, h3⟩ := ih (deliver s pkt).1 hle
            refine ⟨h1.mono (by omega), fun c hc => ?_, fun hnt c hc => ?_⟩
            · rcases List.mem_cons.mp hc with rfl | hc
              · exact ⟨by omega, hle⟩
              · have := h2 c hc; exact ⟨by omega, this.2⟩
            · rcases List.mem_cons.mp hc with rfl | hc
              · generalize hst : (streamLoop qt deliver n (deliver s pkt).1 buf
                  (pos + 9 + pkt.body.length)).stop = st at h1 hnt ⊢
                cases st <;> simp only [Stop.Within, Stop.pos] at * <;> omega
              · exact h3 hnt c hc

theorem processStream_spec (qt : Qt) (deliver : σ → Packet → σ × Bool) (s : σ) (buf : Bytes) :
    let r := processStream qt deliver s buf
    r.stop.Within buf.length 0 ∧ (∀ c ∈ r.calls, c.1 ≤ buf.length) ∧
      ((∀ p k, r.stop ≠ .threw p k) → ∀ c ∈ r.calls, c.1 ≤ r.stop.pos) := by
  obtain ⟨h1, h2, h3⟩ := streamLoop_spec qt deliver (buf.length + 1) s
    (Nat.zero_le buf.length)
  exact ⟨h1, fun c hc => (h2 c hc).2, h3⟩

/-- The pass with a handler that does nothing: the packets the bytes contain. -/
def frames (qt : Qt) (buf : Bytes) : StreamResult Unit := processStream qt (fun _ _ => ((), false)) () buf

variable {deliver : σ → Packet → σ × Bool}

/-- **A handler that does not throw does not change the framing.** -/
theorem streamLoop_eq_frames (n : ℕ) (s : σ) (u : Unit) (buf : Bytes) (pos : ℕ)
    (h : ∀ c ∈ (streamLoop qt (fun _ _ => ((), false)) n u buf pos).calls, ∀ s, (deliver s c.2).2 = false) :
    (streamLoop qt deliver n s buf pos).stop =
        (streamLoop qt (fun _ _ => ((), false)) n u buf pos).stop ∧
      (streamLoop qt deliver n s buf pos).calls =
        (streamLoop qt (fun _ _ => ((), false)) n u buf pos).calls := by
  induction n generalizing s pos with
  | zero => exact ⟨rfl, rfl⟩
  | succ n ih =>
      cases hnext : nextPacket qt buf pos with
      | stop st => simp only [streamLoop, hnext, and_self]
      | packet pkt =>
          simp only [streamLoop, hnext, Bool.false_eq_true, if_false, List.mem_cons,
            forall_eq_or_imp] at h ⊢
          obtain ⟨hpkt, hrest⟩ := h
          obtain ⟨h1, h2⟩ := ih (deliver s pkt).1 _ hrest
          simp only [hpkt s, Bool.false_eq_true, if_false, h1, h2, and_self]

theorem processStream_eq_frames (s : σ) (buf : Bytes)
    (h : ∀ c ∈ (frames qt buf).calls, ∀ s, (deliver s c.2).2 = false) :
    (processStream qt deliver s buf).stop = (frames qt buf).stop ∧
      (processStream qt deliver s buf).calls = (frames qt buf).calls :=
  streamLoop_eq_frames _ s () buf 0 h

end Pass

end HelpzNet
