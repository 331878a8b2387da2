import Mathlib.Data.List.Basic
import Mathlib.Logic.Function.Basic

/-!
# Updates of single entries

An update sets one entry of a state to a value computed from the whole state. Where no update of a list reads
or writes an entry written before it, each entry ends with the value computed from the first state.
-/

namespace HelpzLib

/-- An update of the entry `key`. -/
structure Update (κ β : Type) where
  key : κ
  value : (κ → β) → β

namespace Update

variable {κ β : Type} [DecidableEq κ]

def apply (s : κ → β) (u : Update κ β) : κ → β := Function.update s u.key (u.value s)

def run (s : κ → β) (us : List (Update κ β)) : κ → β := us.foldl apply s

/-- `b` does not write the entry `a` writes, and does not read it. -/
def Blind (a b : Update κ β) : Prop :=
  b.key ≠ a.key ∧ ∀ s v, b.value (Function.update s a.key v) = b.value s

@[simp] theorem run_cons (s : κ → β) (u : Update κ β) (us : List (Update κ β)) :
    run s (u :: us) = run (apply s u) us := rfl

theorem run_of_forall_ne {us : List (Update κ β)} {k : κ} (h : ∀ u ∈ us, u.key ≠ k) (s : κ → β) :
    run s us k = s k := by
  induction us generalizing s with
  | nil => rfl
  | cons u us ih =>
      rw [run_cons, ih fun v hv => h v (List.mem_cons_of_mem _ hv), apply]
      exact Function.update_of_ne (Ne.symm (h u List.mem_cons_self)) _ _

theorem run_key {us : List (Update κ β)} (h : us.Pairwise Blind) {u : Update κ β} (hu : u ∈ us) (s : κ → β) :
    run s us u.key = u.value s := by
  induction us generalizing s with
  | nil => cases hu
  | cons a us ih =>
      rw [List.pairwise_cons] at h
      rw [run_cons]
      cases hu with
      | head =>
          rw [run_of_forall_ne (fun b hb => (h.1 b hb).1), apply]
          exact Function.update_self _ _ _
      | tail _ hu =>
          rw [ih h.2 hu]
          exact (h.1 u hu).2 s _

end Update

end HelpzLib
