import Helpz.Net.Framing
import Mathlib.Algebra.GroupWithZero.Nat

/-!
# The queue of chunk sizes

The receive buffer is *synced* with the queue when the sizes in the queue are positive and add up
to the bytes in the buffer. `finish` keeps it so, and so does the removal of the chunk at the front;
`dropProcessed` runs the queue empty exactly when the position is past all the chunks.
-/

namespace HelpzNet

/-- The queue accounts for the bytes in the buffer. -/
structure Framing.Synced (f : Framing) : Prop where
  pos : ∀ c ∈ f.queue, 0 < c
  sum : f.queue.sum = f.buf.length

theorem Framing.Synced.queue_eq_nil {f : Framing} (h : f.Synced) (hb : f.buf = []) : f.queue = [] := by
  have hsum := h.sum
  have hpos := h.pos
  cases hq : f.queue with
  | nil => rfl
  | cons c q =>
      have hc := hpos c (by rw [hq]; exact List.mem_cons_self)
      rw [hq, hb, List.sum_cons, List.length_nil] at hsum
      omega

theorem Framing.synced_empty : Framing.empty.Synced := ⟨by simp [Framing.empty], rfl⟩

theorem dropProcessed_sum (q : List ℕ) (pos : ℕ) :
    (dropProcessed q pos).1.sum + pos = q.sum + (dropProcessed q pos).2 := by
  induction q generalizing pos with
  | nil => simp [dropProcessed]
  | cons c q ih =>
      simp only [dropProcessed]
      split_ifs with h
      · have := ih (pos - c)
        simp only [List.sum_cons]
        omega
      · rfl

theorem dropProcessed_lt {q : List ℕ} {pos c : ℕ} {q' : List ℕ}
    (h : (dropProcessed q pos).1 = c :: q') : (dropProcessed q pos).2 < c := by
  induction q generalizing pos with
  | nil => simp [dropProcessed] at h
  | cons a q ih =>
      simp only [dropProcessed] at h ⊢
      split_ifs at h ⊢ with ha
      · exact ih h
      · cases h; omega

theorem dropProcessed_suffix (q : List ℕ) (pos : ℕ) : (dropProcessed q pos).1 <:+ q := by
  induction q generalizing pos with
  | nil => exact List.suffix_refl _
  | cons c q ih =>
      simp only [dropProcessed]
      split_ifs
      · exact (ih _).trans (List.suffix_cons c q)
      · exact List.suffix_refl _

/-- **The loop empties the queue exactly when the position is past all the chunks.** -/
theorem dropProcessed_eq_nil {q : List ℕ} {pos : ℕ} :
    (dropProcessed q pos).1 = [] ↔ q.sum ≤ pos := by
  constructor
  · intro h
    have := dropProcessed_sum q pos
    rw [h] at this
    simp only [List.sum_nil] at this
    omega
  · intro h
    cases he : (dropProcessed q pos).1 with
    | nil => rfl
    | cons c q' =>
        have h1 := dropProcessed_sum q pos
        have h2 := dropProcessed_lt he
        rw [he, List.sum_cons] at h1
        omega

theorem dropProcessed_of_lt {c pos : ℕ} (q : List ℕ) (h : pos < c) :
    dropProcessed (c :: q) pos = (c :: q, pos) := by
  rw [dropProcessed, if_neg (by omega)]

theorem Framing.finish_queue_sum (f : Framing) (pos : ℕ) :
    (f.finish pos).queue.sum = f.queue.sum - pos := by
  have h1 := dropProcessed_sum f.queue pos
  simp only [Framing.finish]
  cases he : (dropProcessed f.queue pos).1 with
  | nil =>
      have := dropProcessed_eq_nil.mp he
      simp only [List.sum_nil]
      omega
  | cons c q =>
      have h2 := dropProcessed_lt he
      rw [he, List.sum_cons] at h1
      simp only [List.sum_cons]
      split_ifs <;> omega

theorem Framing.length_finish (f : Framing) (pos : ℕ) :
    (f.finish pos).buf.length = f.buf.length - pos := by
  simp only [Framing.finish]
  split_ifs with h
  · exact List.length_drop
  · simp only [List.length_nil]; omega

theorem Framing.finish_buf (f : Framing) (pos : ℕ) : (f.finish pos).buf = f.buf.drop pos := by
  simp only [Framing.finish]
  split_ifs with h
  · rfl
  · rw [List.drop_eq_nil_of_le (by omega)]

theorem Framing.finish_sum_le {f : Framing} (h : f.queue.sum ≤ f.buf.length) (pos : ℕ) :
    (f.finish pos).queue.sum ≤ (f.finish pos).buf.length := by
  rw [Framing.length_finish, Framing.finish_queue_sum]
  exact Nat.sub_le_sub_right h pos

/-- **The end of a call keeps the queue in step with the buffer.** -/
theorem Framing.Synced.finish {f : Framing} (h : f.Synced) (pos : ℕ) : (f.finish pos).Synced := by
  refine ⟨?_, ?_⟩
  · have hsub := dropProcessed_suffix f.queue pos
    simp only [Framing.finish]
    cases he : (dropProcessed f.queue pos).1 with
    | nil => simp
    | cons c q =>
        have h2 := dropProcessed_lt he
        rw [he] at hsub
        intro x hx
        rcases List.mem_cons.mp hx with rfl | hx
        · have := h.pos c (hsub.subset List.mem_cons_self)
          split_ifs <;> omega
        · exact h.pos x (hsub.subset (List.mem_cons_of_mem _ hx))
  · rw [Framing.finish_queue_sum, Framing.length_finish, h.sum]

theorem Framing.Synced.tail {f : Framing} (h : f.Synced) {c : ℕ} {q : List ℕ}
    (hq : f.queue = c :: q) (removed : ℕ) (calls : List (ℕ × Packet)) :
    (⟨f.buf.drop c, q, removed, calls⟩ : Framing).Synced := by
  refine ⟨fun x hx => h.pos x (by rw [hq]; exact List.mem_cons_of_mem _ hx), ?_⟩
  have := h.sum
  rw [hq, List.sum_cons] at this
  simp only [List.length_drop]
  omega

theorem Framing.Synced.push {f : Framing} (h : f.Synced) {chunk : Bytes} (hc : chunk ≠ []) :
    ({ f with buf := f.buf ++ chunk, queue := f.queue ++ [chunk.length] } : Framing).Synced := by
  refine ⟨fun x hx => ?_, by simp [h.sum]⟩
  rcases List.mem_append.mp hx with hx | hx
  · exact h.pos x hx
  · rw [List.mem_singleton.mp hx]; exact List.length_pos_iff.mpr hc

end HelpzNet
