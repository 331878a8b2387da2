import Mathlib.Data.List.Basic

/-!
# Runs of a partial step function

A run feeds a list of inputs to a step function that may fail. `Along step C s l` says that every
step of the run from `s` over `l` meets the condition `C` on the state before the step and the
input; the two rules turn what one step does under `C` into what a whole run does.
-/

namespace HelpzLib

variable {σ ι : Type} {step : σ → ι → Option σ} {C : σ → ι → Prop}

/-- Every step of the run from `s` over the inputs meets `C`. -/
def Along (step : σ → ι → Option σ) (C : σ → ι → Prop) : σ → List ι → Prop
  | _, [] => True
  | s, i :: l => C s i ∧ ∀ s', step s i = some s' → Along step C s' l

/-- **Invariant rule.** If every step that meets the condition succeeds and keeps an invariant of the
state and the inputs so far, so does every run whose steps meet it. -/
theorem Along.exists_run {I : List ι → σ → Prop}
    (hstep : ∀ past s i, I past s → C s i → ∃ s', step s i = some s' ∧ I (past ++ [i]) s')
    {past : List ι} {s : σ} {l : List ι} (h : Along step C s l) (hs : I past s) :
    ∃ s', l.foldlM step s = some s' ∧ I (past ++ l) s' := by
  induction l generalizing past s with
  | nil => exact ⟨s, rfl, by rwa [List.append_nil]⟩
  | cons i l ih =>
      obtain ⟨s', he, hs'⟩ := hstep past s i hs h.1
      obtain ⟨t, ht, hti⟩ := ih (h.2 s' he) hs'
      refine ⟨t, by rw [List.foldlM_cons, he]; exact ht, ?_⟩
      rwa [List.append_assoc] at hti

/-- **Invariant rule for the runs that succeed.** -/
theorem Along.invariant {I : σ → Prop} (hstep : ∀ s i s', I s → C s i → step s i = some s' → I s')
    {s t : σ} {l : List ι} (h : Along step C s l) (hs : I s) (hr : l.foldlM step s = some t) : I t := by
  induction l generalizing s with
  | nil => exact Option.some.inj hr ▸ hs
  | cons i l ih =>
      rw [List.foldlM_cons] at hr
      cases he : step s i with
      | none =>
          rw [he] at hr
          cases hr
      | some s' =>
          rw [he] at hr
          exact ih (h.2 s' he) (hstep s i s' hs h.1 he) hr

theorem invariant_foldlM {I : σ → Prop} (hstep : ∀ s i s', I s → step s i = some s' → I s') {s t : σ} {l : List ι}
    (hs : I s) (hr : l.foldlM step s = some t) : I t := by
  induction l generalizing s with
  | nil => exact Option.some.inj hr ▸ hs
  | cons i l ih =>
      rw [List.foldlM_cons] at hr
      obtain ⟨s', hs', hrest⟩ := Option.bind_eq_some_iff.mp hr
      exact ih (hstep s i s' hs hs') hrest

theorem Along.and_forall {P : ι → Prop} {s : σ} {l : List ι} (h : Along step C s l)
    (hP : ∀ i ∈ l, P i) : Along step (fun s i => P i ∧ C s i) s l := by
  induction l generalizing s with
  | nil => exact trivial
  | cons i l ih =>
      exact ⟨⟨hP i List.mem_cons_self, h.1⟩,
        fun s' hs' => ih (h.2 s' hs') fun j hj => hP j (List.mem_cons_of_mem _ hj)⟩

/-- **Two conditions along a run agree** if they agree wherever a third one, which is met along the run, is met. -/
theorem Along.iff_of {P Q : σ → ι → Prop} {s : σ} {l : List ι} (h : Along step Q s l)
    (hPC : ∀ s i, Q s i → (P s i ↔ C s i)) : Along step P s l ↔ Along step C s l := by
  induction l generalizing s with
  | nil => exact Iff.rfl
  | cons i l ih =>
      exact and_congr (hPC s i h.1) (forall_congr' fun s' => imp_congr_right fun hs' => ih (h.2 s' hs'))

theorem along_append {f : σ → ι → σ} {s : σ} {l l' : List ι} :
    Along (fun s i => some (f s i)) C s (l ++ l') ↔
      Along (fun s i => some (f s i)) C s l ∧ Along (fun s i => some (f s i)) C (l.foldl f s) l' := by
  induction l generalizing s with
  | nil => simp [Along]
  | cons i l ih => simp [Along, ih, and_assoc]

/-- **Two conditions along a run agree** if they agree at every state that meets an invariant, and the first
keeps it, for a step function that never fails. -/
theorem along_congr {f : σ → ι → σ} {I : σ → Prop} {P : σ → ι → Prop}
    (hPC : ∀ s i, I s → (P s i ↔ C s i)) (hI : ∀ s i, I s → P s i → I (f s i)) {s : σ} {l : List ι} (hs : I s) :
    Along (fun s i => some (f s i)) P s l ↔ Along (fun s i => some (f s i)) C s l := by
  induction l generalizing s with
  | nil => exact Iff.rfl
  | cons i l ih =>
      simp only [Along, Option.some.injEq, forall_eq']
      rw [hPC s i hs]
      exact and_congr_right fun hC => ih (hI s i hs ((hPC s i hs).mpr hC))

/-- **An invariant after every step** is one of all the states that are reached, for a step function that never
fails. -/
theorem along_prefix_iff {f : σ → ι → σ} {I : σ → Prop} {s : σ} {l : List ι} (hs : I s) :
    Along (fun s i => some (f s i)) (fun s i => I (f s i)) s l ↔ ∀ l', l' <+: l → I (l'.foldl f s) := by
  induction l generalizing s with
  | nil =>
      refine ⟨fun _ l' hl' => ?_, fun _ => trivial⟩
      rw [List.prefix_nil.mp hl']
      exact hs
  | cons i l ih =>
      simp only [Along, Option.some.injEq, forall_eq']
      constructor
      · rintro ⟨hi, hl⟩ l' hl'
        rcases List.prefix_cons_iff.mp hl' with rfl | ⟨l'', rfl, hl''⟩
        · exact hs
        · exact (ih hi).mp hl l'' hl''
      · intro h
        have hi : I (f s i) := h [i] ((List.prefix_cons_inj i).mpr List.nil_prefix)
        exact ⟨hi, (ih hi).mpr fun l' hl' => h (i :: l') ((List.prefix_cons_inj i).mpr hl')⟩

/-- Whether a run meets the condition can be computed. -/
instance Along.decidable [∀ s i, Decidable (C s i)] : (s : σ) → (l : List ι) → Decidable (Along step C s l)
  | _, [] => inferInstanceAs (Decidable True)
  | s, i :: l =>
      match h : step s i with
      | none => decidable_of_iff (C s i) (by simp [Along, h])
      | some s' =>
          have := Along.decidable s' l
          decidable_of_iff (C s i ∧ Along step C s' l) (by simp [Along, h])

/-- **A run succeeds exactly when all its steps do**, if an invariant tells when a step does. -/
theorem isSome_foldlM_iff {I : σ → Prop} (hC : ∀ s i, I s → ((step s i).isSome ↔ C s i))
    (hI : ∀ s i s', I s → step s i = some s' → I s') {s : σ} {l : List ι} (hs : I s) :
    (l.foldlM step s).isSome ↔ Along step C s l := by
  induction l generalizing s with
  | nil => simp [Along]
  | cons i l ih =>
      rw [List.foldlM_cons, Along, ← hC s i hs]
      cases he : step s i with
      | none => simp
      | some s' => simp [ih (hI s i s' hs he)]

end HelpzLib
