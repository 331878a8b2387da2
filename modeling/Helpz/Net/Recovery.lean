import Helpz.Net.Stream
import Helpz.Lib.Run

/-!
# Recovery after a packet that fails

The loop of `process_bytes` that runs after `process_stream` has returned `false`. It pops the
chunks that lie before the position of the device, without taking their bytes out of the buffer, and
then drops the chunk at the front.

* `FailuresInReach`, `recoverLoop_isSome_iff`: the queue is never empty when its front is taken,
  exactly when more than the untracked bytes follow every packet that fails. In a buffer in step with
  its queue there are no untracked bytes, and only a packet with an empty body at the very end is out
  of reach (`Framing.Synced.outOfReach_iff`, `failuresInReach_iff`).
* `Recoverable`, `recoverLoop_tracks`: as long as every corrupt packet starts in the oldest chunk,
  the queue stays in step with the buffer and no byte of a packet passed on is seen again.
-/

namespace HelpzNet

open HelpzLib

section Loop

variable {σ : Type} (qt : Qt) (deliver : σ → Packet → σ × Bool)

/-- The framing after the chunk at the front of the remaining queue was dropped. -/
def Framing.dropFront (f : Framing) (calls : List (ℕ × Packet)) (c : ℕ) (q : List ℕ) : Framing :=
  { f.addCalls calls with buf := f.buf.drop c, removed := f.removed + min c f.buf.length, queue := q }

/-- The bytes in the buffer that belong to no queued chunk: those of chunks that were popped while
their bytes stayed. -/
def Framing.untracked (f : Framing) : ℕ := f.buf.length - f.queue.sum

/-- The packet at which the pass failed is out of reach of the queue: no more than the untracked bytes
lie behind the start of a corrupt packet, or behind the header of one that threw. -/
def Framing.OutOfReach (f : Framing) : Stop → Prop
  | .wait _ => False
  | .oversize _ => False
  | .corrupt p => f.buf.length - p ≤ f.untracked
  | .threw p _ => f.buf.length - (p + 9) ≤ f.untracked

/-- No packet that fails in the loop is out of reach. -/
def FailuresInReach : ℕ → σ → Framing → Prop
  | 0, _, _ => True
  | n + 1, s, f =>
      let r := processStream qt deliver s f.buf
      r.stop.ok = true ∨ f.queue = [] ∨ (¬ f.OutOfReach r.stop ∧
        ∀ c q, (dropProcessed f.queue r.stop.pos).1 = c :: q →
          FailuresInReach n r.state (f.dropFront r.calls c q))

/-- A condition on the framing and on why the pass over it ended, at every pass of the loop that fails. -/
def AtFailures (P : Framing → Stop → Prop) : ℕ → σ → Framing → Prop
  | 0, _, _ => True
  | n + 1, s, f =>
      let r := processStream qt deliver s f.buf
      r.stop.ok = true ∨ f.queue = [] ∨ (P f r.stop ∧
        ∀ c q, (dropProcessed f.queue r.stop.pos).1 = c :: q → AtFailures P n r.state (f.dropFront r.calls c q))

/-- A packet with an empty body at the very end of the buffer threw. -/
def Framing.EmptyAtEnd (f : Framing) (st : Stop) : Prop := ∃ p, st = .threw p 0 ∧ p + 9 = f.buf.length

variable {qt deliver}

/-- **In step with the queue, only a packet with an empty body at the very end is out of reach**: a
corrupt header lies inside the buffer, and so does the body of a packet that threw, if it has one. -/
theorem Framing.Synced.outOfReach_iff {f : Framing} (hf : f.Synced) {st : Stop}
    (hw : st.Within f.buf.length 0) :
    f.OutOfReach st ↔ f.EmptyAtEnd st := by
  have hu : f.untracked = 0 := by rw [Framing.untracked, hf.sum, Nat.sub_self]
  unfold Framing.EmptyAtEnd
  cases st with
  | wait p => simp [Framing.OutOfReach]
  | oversize p => simp [Framing.OutOfReach]
  | corrupt p =>
      simp only [Stop.Within] at hw
      simp only [Framing.OutOfReach, hu, reduceCtorEq, false_and, exists_false, iff_false]
      omega
  | threw p k =>
      simp only [Stop.Within] at hw
      simp only [Framing.OutOfReach, hu, Stop.threw.injEq]
      constructor
      · intro h
        exact ⟨p, ⟨rfl, by omega⟩, by omega⟩
      · rintro ⟨q, ⟨rfl, rfl⟩, hq⟩
        omega

theorem failuresInReach_iff {n : ℕ} {s : σ} {f : Framing} (h : AtFailures qt deliver (fun f _ => f.Synced) n s f) :
    FailuresInReach qt deliver n s f ↔ AtFailures qt deliver (fun f st => ¬ f.EmptyAtEnd st) n s f := by
  induction n generalizing s f with
  | zero => exact Iff.rfl
  | succ n ih =>
      simp only [FailuresInReach, AtFailures] at h ⊢
      rcases h with hok | hemp | ⟨hsync, hrest⟩
      · simp [hok]
      · simp [hemp]
      · rw [hsync.outOfReach_iff (processStream_spec qt deliver s f.buf).1]
        exact or_congr_right (or_congr_right (and_congr_right fun _ =>
          forall_congr' fun c => forall_congr' fun q => imp_congr_right fun hd => ih (hrest c q hd)))

theorem Framing.not_outOfReach_iff {f : Framing} (hf : f.queue.sum ≤ f.buf.length) {st : Stop}
    (hw : st.Within f.buf.length 0) (hfail : st.ok = false) :
    ¬ f.OutOfReach st ↔ st.pos < f.queue.sum := by
  cases st with
  | wait p => cases hfail
  | oversize p => cases hfail
  | corrupt p =>
      simp only [Stop.Within] at hw
      simp only [Framing.OutOfReach, Framing.untracked, Stop.pos]
      omega
  | threw p k =>
      simp only [Stop.Within] at hw
      simp only [Framing.OutOfReach, Framing.untracked, Stop.pos]
      omega

theorem Framing.dropFront_sum_le {f : Framing} (hf : f.queue.sum ≤ f.buf.length) {pos c : ℕ} {q : List ℕ}
    (h : (dropProcessed f.queue pos).1 = c :: q) (calls : List (ℕ × Packet)) :
    (f.dropFront calls c q).queue.sum ≤ (f.dropFront calls c q).buf.length := by
  have hle : (c :: q).sum ≤ f.queue.sum := by
    obtain ⟨t, ht⟩ := h ▸ dropProcessed_suffix f.queue pos
    rw [← ht, List.sum_append]
    exact Nat.le_add_left _ _
  rw [List.sum_cons] at hle
  simp only [Framing.dropFront, List.length_drop]
  omega

/-- **The front of the queue is taken from a non-empty queue exactly when failures are in reach.** -/
theorem recoverLoop_isSome_iff (n : ℕ) (s : σ) (f : Framing) (hf : f.queue.sum ≤ f.buf.length) :
    (recoverLoop qt deliver n s f).isSome ↔ FailuresInReach qt deliver n s f := by
  induction n generalizing s f with
  | zero => simp [recoverLoop, FailuresInReach]
  | succ n ih =>
      have hq : (f.addCalls (processStream qt deliver s f.buf).calls).queue = f.queue := rfl
      have hw := (processStream_spec qt deliver s f.buf).1
      simp only [recoverLoop, FailuresInReach, hq]
      by_cases hok : (processStream qt deliver s f.buf).stop.ok = true
      · simp [hok]
      by_cases hemp : f.queue = []
      · simp [hemp]
      rw [if_neg (by simp [hok, hemp]), Framing.not_outOfReach_iff hf hw (Bool.not_eq_true _ ▸ hok)]
      cases hd : (dropProcessed f.queue (processStream qt deliver s f.buf).stop.pos).1 with
      | nil =>
          have := dropProcessed_eq_nil.mp hd
          simp only [hok, hemp, false_or]
          constructor
          · intro h; cases h
          · rintro ⟨h, _⟩; omega
      | cons c q =>
          have hlt : (processStream qt deliver s f.buf).stop.pos < f.queue.sum := by
            by_contra hge
            rw [dropProcessed_eq_nil.mpr (by omega)] at hd
            cases hd
          have hrec := ih (processStream qt deliver s f.buf).state
            (f.dropFront (processStream qt deliver s f.buf).calls c q) (Framing.dropFront_sum_le hf hd _)
          simp only [hok, hemp, Bool.false_eq_true, false_or, hlt, true_and, List.cons.injEq, and_imp,
            forall_apply_eq_imp_iff, forall_eq']
          exact hrec

theorem recoverLoop_sum_le {n : ℕ} {s s' : σ} {f f' : Framing} (hf : f.queue.sum ≤ f.buf.length)
    (h : recoverLoop qt deliver n s f = some (s', f')) : f'.queue.sum ≤ f'.buf.length := by
  induction n generalizing s f with
  | zero =>
      cases h
      exact Framing.finish_sum_le hf _
  | succ n ih =>
      simp only [recoverLoop] at h
      split_ifs at h with hok
      · cases h
        exact Framing.finish_sum_le hf _
      · rw [show (f.addCalls (processStream qt deliver s f.buf).calls).queue = f.queue from rfl] at h
        cases hd : (dropProcessed f.queue (processStream qt deliver s f.buf).stop.pos).1 with
        | nil =>
            rw [hd] at h
            cases h
        | cons c q =>
            rw [hd] at h
            exact ih (Framing.dropFront_sum_le hf hd _) h

/-- The framing is in step with the stream received so far: the queue accounts for the buffer, the
buffer is what the stream has after the bytes removed, and the packets passed on lie before it. -/
structure Framing.Tracks (stream : Bytes) (f : Framing) : Prop where
  synced : f.Synced
  removed_le : f.removed ≤ stream.length
  buf_eq : f.buf = stream.drop f.removed
  calls_le : ∀ c ∈ f.calls, c.1 ≤ f.removed

theorem Framing.Tracks.length_buf {stream : Bytes} {f : Framing} (h : f.Tracks stream) :
    f.removed + f.buf.length = stream.length := by
  have := h.removed_le
  rw [h.buf_eq, List.length_drop]
  omega

theorem Framing.Tracks.advance {stream : Bytes} {f g : Framing} (h : f.Tracks stream)
    {calls : List (ℕ × Packet)} {k : ℕ} (hk : k ≤ f.buf.length) (hcalls : ∀ c ∈ calls, c.1 ≤ k)
    (hs : g.Synced) (hbuf : g.buf = f.buf.drop k) (hrem : g.removed = f.removed + k)
    (hg : g.calls = (f.addCalls calls).calls) : g.Tracks stream := by
  have hlen := h.length_buf
  refine ⟨hs, by omega, by rw [hbuf, h.buf_eq, hrem, List.drop_drop], fun c hc => ?_⟩
  simp only [hg, Framing.addCalls, List.mem_append, List.mem_map] at hc
  rw [hrem]
  rcases hc with hc | ⟨d, hd, rfl⟩
  · have := h.calls_le c hc; omega
  · have := hcalls d hd
    change f.removed + d.1 ≤ f.removed + k
    omega

theorem Framing.Tracks.finish {stream : Bytes} {f : Framing} (h : f.Tracks stream)
    {calls : List (ℕ × Packet)} {pos : ℕ} (hp : pos ≤ f.buf.length)
    (hcalls : ∀ c ∈ calls, c.1 ≤ pos) : ((f.addCalls calls).finish pos).Tracks stream := by
  have hs : (f.addCalls calls).Synced := ⟨h.synced.pos, h.synced.sum⟩
  refine h.advance hp hcalls (hs.finish pos) (Framing.finish_buf _ _) ?_ rfl
  simp only [Framing.finish, Framing.addCalls]
  omega

theorem Framing.Tracks.dropFront {stream : Bytes} {f : Framing} (h : f.Tracks stream)
    {calls : List (ℕ × Packet)} {c : ℕ} {q : List ℕ} (hq : f.queue = c :: q)
    (hcalls : ∀ x ∈ calls, x.1 ≤ c) : (f.dropFront calls c q).Tracks stream := by
  have hc : c ≤ f.buf.length := by
    have := h.synced.sum
    rw [hq, List.sum_cons] at this
    omega
  refine h.advance hc hcalls (h.synced.tail hq _ _) rfl ?_ rfl
  simp only [Framing.dropFront]
  omega

theorem streamLoop_ne_threw (h : ∀ s pkt, (deliver s pkt).2 = false) (n : ℕ) (s : σ) (buf : Bytes)
    (pos p k : ℕ) : (streamLoop qt deliver n s buf pos).stop ≠ .threw p k := by
  induction n generalizing s pos with
  | zero => exact fun h => nomatch h
  | succ n ih =>
      cases hnext : nextPacket qt buf pos with
      | stop st =>
          simp only [streamLoop, hnext]
          rintro rfl
          simp only [nextPacket] at hnext
          split_ifs at hnext <;> cases hnext
      | packet pkt =>
          simp only [streamLoop, hnext, h s pkt, Bool.false_eq_true, if_false]
          exact ih _ _

theorem frames_ne_threw (qt : Qt) (buf : Bytes) (p k : ℕ) : (frames qt buf).stop ≠ .threw p k :=
  streamLoop_ne_threw (fun _ _ => rfl) _ _ _ _ _ _

/-- The buffer can be recovered chunk by chunk: the packets it contains satisfy `R`, and a corrupt
one starts in the oldest chunk, without which the rest can be recovered in the same way. -/
def Recoverable (qt : Qt) (R : Packet → Prop) : List ℕ → Bytes → Prop
  | [], buf => ∀ x ∈ (frames qt buf).calls, R x.2
  | c :: q, buf => (∀ x ∈ (frames qt buf).calls, R x.2) ∧
      ∀ pos, (frames qt buf).stop = .corrupt pos → pos < c ∧ Recoverable qt R q (buf.drop c)

theorem Recoverable.frames {R : Packet → Prop} {q : List ℕ} {buf : Bytes} (h : Recoverable qt R q buf) :
    ∀ x ∈ (frames qt buf).calls, R x.2 := by
  cases q with
  | nil => exact h
  | cons c q => exact h.1

/-- **Recovery chunk by chunk stays in step with the stream.** -/
theorem recoverLoop_tracks {R : Packet → Prop} (hR : ∀ s pkt, R pkt → (deliver s pkt).2 = false)
    {stream : Bytes} (n : ℕ) (s : σ) (f : Framing) (hn : f.queue.length ≤ n) (hf : f.Tracks stream)
    (hrec : Recoverable qt R f.queue f.buf) :
    ∃ s' f', recoverLoop qt deliver n s f = some (s', f') ∧ f'.Tracks stream := by
  induction n generalizing s f with
  | zero =>
      have hne := frames_ne_threw qt f.buf
      have hstop : (processStream qt deliver s f.buf).stop = (frames qt f.buf).stop :=
        (processStream_eq_frames s f.buf fun c hc s => hR s c.2 (hrec.frames c hc)).1
      obtain ⟨h1, _, h3⟩ := processStream_spec qt deliver s f.buf
      exact ⟨_, _, rfl, hf.finish h1.pos_le (h3 fun p k => by rw [hstop]; exact hne p k)⟩
  | succ n ih =>
      have hne := frames_ne_threw qt f.buf
      have hstop : (processStream qt deliver s f.buf).stop = (frames qt f.buf).stop :=
        (processStream_eq_frames s f.buf fun c hc s => hR s c.2 (hrec.frames c hc)).1
      obtain ⟨h1, _, h3⟩ := processStream_spec qt deliver s f.buf
      replace h3 := h3 fun p k => by rw [hstop]; exact hne p k
      have hq : (f.addCalls (processStream qt deliver s f.buf).calls).queue = f.queue := rfl
      simp only [recoverLoop, hq]
      split_ifs with hok
      · exact ⟨_, _, rfl, hf.finish h1.pos_le h3⟩
      · simp only [Bool.or_eq_true, List.isEmpty_iff, not_or] at hok
        -- the pass failed: the framing is the pure one, so it stopped at a corrupt packet
        obtain ⟨p, hp⟩ : ∃ p, (frames qt f.buf).stop = .corrupt p := by
          have hbad := hok.1
          rw [hstop] at hbad
          cases hst : (frames qt f.buf).stop with
          | wait p => rw [hst] at hbad; exact absurd rfl hbad
          | oversize p => rw [hst] at hbad; exact absurd rfl hbad
          | corrupt p => exact ⟨p, rfl⟩
          | threw p k => exact absurd hst (hne p k)
        cases hqueue : f.queue with
        | nil => exact absurd hqueue hok.2
        | cons c q =>
            rw [hqueue] at hrec hn
            obtain ⟨hlt, hrest⟩ := hrec.2 p hp
            have hpos : (processStream qt deliver s f.buf).stop.pos = p := by rw [hstop, hp]; rfl
            rw [hpos] at h3 ⊢
            rw [dropProcessed_of_lt q hlt]
            exact ih _ (f.dropFront (processStream qt deliver s f.buf).calls c q)
              (by simpa [Framing.dropFront] using hn)
              (hf.dropFront hqueue fun x hx => le_trans (h3 x hx) (le_of_lt hlt)) hrest

theorem processChunk_tracks {R : Packet → Prop} (hR : ∀ s pkt, R pkt → (deliver s pkt).2 = false)
    {stream : Bytes} (s : σ) {f : Framing} (hf : f.Tracks stream) {chunk : Bytes} (hc : chunk ≠ [])
    (hrec : Recoverable qt R (f.queue ++ [chunk.length]) (f.buf ++ chunk)) :
    ∃ s' f', processChunk qt deliver s f chunk = some (s', f') ∧ f'.Tracks (stream ++ chunk) := by
  rw [processChunk, if_neg hc]
  have hlen := hf.length_buf
  refine recoverLoop_tracks hR _ s _ (by simp) ⟨hf.synced.push hc, ?_, ?_, hf.calls_le⟩ hrec
  · have := hf.removed_le
    simp only [List.length_append]
    omega
  · change f.buf ++ chunk = (stream ++ chunk).drop f.removed
    rw [List.drop_append_of_le_length hf.removed_le, hf.buf_eq]

end Loop

end HelpzNet
