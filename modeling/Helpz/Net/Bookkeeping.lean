import Helpz.Net.Recovery

/-!
# The receive buffer of an endpoint

Runs of `process_bytes` on an endpoint, over chunks of any bytes.

* `processAll_isSome_iff`: when the recovery step finds the queue non-empty; `processAll_isSome_inStep`: what this says
  as long as queue and buffer are in step;
* `processAll_accounts`: when the queue stays in step with the buffer and what is left in it has not
  been part of a packet that was passed on.

Both fail in general: the recovery step pops chunks whose bytes it leaves in the buffer.
-/

namespace HelpzNet

open HelpzLib

/-- No packet that fails while a chunk is processed is out of reach of the queue. -/
def Endpoint.FailuresInReach (qt : Qt) (oracle : List Event → Env) (e : Endpoint) (chunk : Bytes) : Prop :=
  chunk = [] ∨ HelpzNet.FailuresInReach qt (Protocol.deliver qt oracle) (e.framing.queue.length + 1)
    e.protocol { e.framing with
      buf := e.framing.buf ++ chunk, queue := e.framing.queue ++ [chunk.length] }

/-- A condition on the framing and on why a pass over it ended, at every pass that fails while a chunk is processed. -/
def Endpoint.AtFailures (qt : Qt) (oracle : List Event → Env) (P : Framing → Stop → Prop) (e : Endpoint)
    (chunk : Bytes) : Prop :=
  chunk = [] ∨ HelpzNet.AtFailures qt (Protocol.deliver qt oracle) P (e.framing.queue.length + 1)
    e.protocol { e.framing with
      buf := e.framing.buf ++ chunk, queue := e.framing.queue ++ [chunk.length] }

section Reach

variable {qt : Qt} {oracle : List Event → Env} {e e' : Endpoint}

theorem Framing.push_sum_le {f : Framing} (h : f.queue.sum ≤ f.buf.length) (chunk : Bytes) :
    (f.queue ++ [chunk.length]).sum ≤ (f.buf ++ chunk).length := by
  rw [List.sum_append, List.sum_singleton, List.length_append]
  exact Nat.add_le_add_right h _

theorem Endpoint.processBytes_isSome_iff (chunk : Bytes) (h : e.framing.queue.sum ≤ e.framing.buf.length) :
    (e.processBytes qt oracle chunk).isSome ↔ e.FailuresInReach qt oracle chunk := by
  rw [processBytes, Option.isSome_map, processChunk, FailuresInReach]
  by_cases hc : chunk = []
  · simp [hc]
  · rw [if_neg hc, recoverLoop_isSome_iff _ _ _ (Framing.push_sum_le h chunk)]
    simp [hc]

theorem Endpoint.processBytes_sum_le {chunk : Bytes} (h : e.framing.queue.sum ≤ e.framing.buf.length)
    (he : e.processBytes qt oracle chunk = some e') : e'.framing.queue.sum ≤ e'.framing.buf.length := by
  obtain ⟨⟨p, f⟩, hpf, rfl⟩ := Option.map_eq_some_iff.mp he
  unfold processChunk at hpf
  split_ifs at hpf with hc
  · cases hpf
    exact h
  · exact recoverLoop_sum_le (Framing.push_sum_le h chunk) hpf

theorem Endpoint.processAll_isSome_of_le (chunks : List Bytes) (h : e.framing.queue.sum ≤ e.framing.buf.length) :
    (e.processAll qt oracle chunks).isSome ↔
      Along (Endpoint.processBytes qt oracle) (Endpoint.FailuresInReach qt oracle) e chunks :=
  isSome_foldlM_iff (I := fun e => e.framing.queue.sum ≤ e.framing.buf.length)
    (fun _ chunk h => Endpoint.processBytes_isSome_iff chunk h)
    (fun _ _ _ h he => Endpoint.processBytes_sum_le h he) h

end Reach

/-- **The recovery step never takes the front of an empty queue, exactly when every packet that fails is
in reach.** -/
theorem processAll_isSome_iff (qt : Qt) (oracle : List Event → Env) (chunks : List Bytes) :
    (Endpoint.fresh.processAll qt oracle chunks).isSome ↔
      Along (Endpoint.processBytes qt oracle) (Endpoint.FailuresInReach qt oracle) Endpoint.fresh chunks :=
  Endpoint.processAll_isSome_of_le chunks le_rfl

/-- **In step with the queue, this leaves out exactly a packet with an empty body at the very end of the buffer whose
processing throws.** -/
theorem processAll_isSome_inStep (qt : Qt) (oracle : List Event → Env) (chunks : List Bytes)
    (hsync : Along (Endpoint.processBytes qt oracle) (Endpoint.AtFailures qt oracle fun f _ => f.Synced)
      Endpoint.fresh chunks) :
    (Endpoint.fresh.processAll qt oracle chunks).isSome ↔ Along (Endpoint.processBytes qt oracle)
      (Endpoint.AtFailures qt oracle fun f st => ¬ f.EmptyAtEnd st) Endpoint.fresh chunks := by
  refine (Endpoint.processAll_isSome_of_le chunks le_rfl).trans (hsync.iff_of fun e chunk he => ?_)
  rcases he with rfl | he
  · exact iff_of_true (Or.inl rfl) (Or.inl rfl)
  · exact or_congr_right (failuresInReach_iff he)

/-- A REMOVE_FRAGMENT packet without a body, alone in its chunk: reading the id throws, the device
is behind the only chunk, and the queue is empty when its front is taken. -/
theorem front_of_empty_queue : ¬ ∀ (qt : Qt) (oracle : List Event → Env) (chunks : List Bytes),
    (Endpoint.fresh.processAll qt oracle chunks).isSome = true := by
  intro h
  have := h Qt.storing (fun _ => Env.quiet) [Packet.encode Qt.storing ⟨0, Cmd.removeFragment, 0, []⟩]
  revert this
  decide

/-- The endpoint accounts for the chunks received so far: the queue adds up to the buffer, and the
buffer is what the stream has after `removed` bytes, among which is every packet passed on. -/
def Endpoint.Accounts (e : Endpoint) (chunks : List Bytes) : Prop :=
  e.framing.queue.sum = e.framing.buf.length ∧ e.framing.removed ≤ chunks.flatten.length ∧
    e.framing.buf = chunks.flatten.drop e.framing.removed ∧
    ∀ c ∈ e.framing.calls, c.1 ≤ e.framing.removed

instance (e : Endpoint) (chunks : List Bytes) : Decidable (e.Accounts chunks) := by
  unfold Endpoint.Accounts
  infer_instance

/-- The packets in the buffer can be read, and a corrupt one starts in the oldest queued chunk. -/
def Endpoint.Recoverable (qt : Qt) (e : Endpoint) (chunk : Bytes) : Prop :=
  HelpzNet.Recoverable qt (Packet.Readable qt) (e.framing.queue ++ [chunk.length])
    (e.framing.buf ++ chunk)

theorem Endpoint.processBytes_tracks (qt : Qt) (oracle : List Event → Env)
    (h : ∀ log, (oracle log).throws = false) {e : Endpoint} {stream chunk : Bytes}
    (he : e.framing.Tracks stream) (hc : chunk ≠ []) (hrec : e.Recoverable qt chunk) :
    ∃ e', e.processBytes qt oracle chunk = some e' ∧ e'.framing.Tracks (stream ++ chunk) := by
  have hR : ∀ (p : Protocol) pkt, pkt.Readable qt → (p.deliver qt oracle pkt).2 = false :=
    fun p pkt hr => p.internalProcessMessage_throws qt _ pkt (h p.log) hr
  obtain ⟨p, f, hp, hf⟩ := processChunk_tracks hR e.protocol he hc hrec
  exact ⟨⟨p, f⟩, by rw [processBytes, hp]; rfl, hf⟩

/-- **As long as what is in the buffer can be recovered, the endpoint accounts for every byte.** -/
theorem processAll_accounts (qt : Qt) (oracle : List Event → Env)
    (h : ∀ log, (oracle log).throws = false) (chunks : List Bytes) (hne : ∀ c ∈ chunks, c ≠ [])
    (hrec : Along (Endpoint.processBytes qt oracle) (Endpoint.Recoverable qt) Endpoint.fresh chunks) :
    ∃ e, Endpoint.fresh.processAll qt oracle chunks = some e ∧ e.Accounts chunks := by
  have hfresh : Endpoint.fresh.framing.Tracks ([] : List Bytes).flatten :=
    ⟨Framing.synced_empty, by simp [Endpoint.fresh, Framing.empty], rfl,
      by simp [Endpoint.fresh, Framing.empty]⟩
  obtain ⟨e, he, ht⟩ := (hrec.and_forall hne).exists_run (I := fun past e => e.framing.Tracks past.flatten)
    (fun past e chunk hi hC => by
      rw [List.flatten_append, List.flatten_singleton]
      exact Endpoint.processBytes_tracks qt oracle h hi hC.1 hC.2) hfresh
  exact ⟨e, he, ht.synced.sum, ht.removed_le, ht.buf_eq, ht.calls_le⟩

/-- A packet and a corrupt header, in one chunk. -/
def goodThenCorrupt : Bytes :=
  Packet.encode Qt.storing ⟨0, 16, 0, [7, 8]⟩ ++ [0, 0, 1, 16, 0, 0, 0, 0, 0]

theorem goodThenCorrupt_accounted : ∃ e,
    Endpoint.fresh.processAll Qt.storing (fun _ => Env.quiet) [goodThenCorrupt] = some e ∧
      e.Accounts [goodThenCorrupt] := by
  refine processAll_accounts Qt.storing (fun _ => Env.quiet) (fun _ => rfl) [goodThenCorrupt]
    (by decide) ⟨⟨?_, fun pos hpos => ?_⟩, fun _ _ => trivial⟩
  · change ∀ x ∈ (frames Qt.storing goodThenCorrupt).calls, x.2.Readable Qt.storing
    decide
  · have hstop : (frames Qt.storing goodThenCorrupt).stop = .corrupt 11 := by decide
    obtain rfl : 11 = pos := Stop.corrupt.inj (hstop.symm.trans hpos)
    refine ⟨by decide, ?_⟩
    change ∀ x ∈ (frames Qt.storing (goodThenCorrupt.drop 20)).calls, x.2.Readable Qt.storing
    decide

/-- A packet cut in two chunks, the second of which ends in a corrupt header. -/
def cutPacket : List Bytes :=
  let first := Packet.encode Qt.storing ⟨0, 16, 0, List.replicate 20 0⟩
  [first.take 28, first.drop 28 ++ [0, 0, 1, 16, 0, 0, 0, 0, 0]]

/-- Here the first chunk is popped with its bytes left in the buffer: the queue ends up empty, with
bytes of the packet that was passed on in the buffer. -/
theorem bytes_left_untracked : ¬ ∀ (qt : Qt) (oracle : List Event → Env) (chunks : List Bytes),
    (∀ log, (oracle log).throws = false) → (∀ c ∈ chunks, c ≠ []) →
      ∃ e, Endpoint.fresh.processAll qt oracle chunks = some e ∧ e.Accounts chunks := by
  intro h
  obtain ⟨e, he, hacc⟩ := h Qt.storing (fun _ => Env.quiet) cutPacket (fun _ => rfl) (by decide)
  have hbad : (Endpoint.fresh.processAll Qt.storing (fun _ => Env.quiet) cutPacket).all
      (fun e => decide (¬ e.Accounts cutPacket)) = true := by decide
  rw [he] at hbad
  simp [hacc] at hbad

end HelpzNet
