import Helpz.Lib.Find

/-!
# Frames that end with a separator

A stream is cut behind each separator, which is found as its first occurrence.

* `frames`: the frames of a stream, and what is left behind the last separator;
* `frames_append`: frames that are complete stay when more comes, and what is left is read together with it;
* `frames_frame`: a frame that is written is read back, if the separator is found right behind it.
-/

namespace HelpzLib

variable {α : Type} [DecidableEq α] {sep l m : List α}

theorem find_le_length {p : ℕ} (h : find sep l = some p) : p + sep.length ≤ l.length := by
  induction l generalizing p with
  | nil =>
      rw [find] at h
      obtain ⟨rfl, h⟩ := Option.ite_none_right_eq_some.mp h
      cases h
      exact le_rfl
  | cons a l ih =>
      rw [find] at h
      split_ifs at h with hpre
      · cases h
        simpa using hpre.length_le
      · obtain ⟨q, hq, rfl⟩ := Option.map_eq_some_iff.mp h
        have hle := ih hq
        simp only [List.length_cons]
        omega

theorem find_append_right {p : ℕ} (h : find sep l = some p) (m : List α) : find sep (l ++ m) = some p := by
  induction l generalizing p with
  | nil =>
      rw [find] at h
      obtain ⟨rfl, h⟩ := Option.ite_none_right_eq_some.mp h
      cases h
      exact find_eq_zero List.nil_prefix
  | cons a l ih =>
      rw [find] at h
      split_ifs at h with hpre
      · cases h
        exact find_eq_zero (hpre.trans (List.prefix_append _ m))
      · obtain ⟨q, hq, rfl⟩ := Option.map_eq_some_iff.mp h
        have hlong : ¬sep <+: a :: (l ++ m) := by
          intro hlong
          have hle := find_le_length hq
          refine hpre (List.prefix_of_prefix_length_le hlong (List.prefix_append (a :: l) m) ?_)
          simp only [List.length_cons]
          omega
        rw [List.cons_append, find, if_neg hlong, ih hq]
        rfl

/-- The frames of a stream, and what is left. -/
def frames (sep : List α) (l : List α) : List (List α) × List α :=
  match _h : find sep l with
  | none => ([], l)
  | some p =>
      if _hsep : sep = [] then ([], l)
      else
        let r := frames sep (l.drop (p + sep.length))
        (l.take p :: r.1, r.2)
termination_by l.length
decreasing_by
  have hle := find_le_length _h
  have hpos := List.length_pos_iff.mpr _hsep
  rw [List.length_drop]
  omega

theorem frames_none (h : find sep l = none) : frames sep l = ([], l) := by
  rw [frames]
  split
  · rfl
  · rename_i p hp
    rw [h] at hp
    cases hp

theorem frames_some (hsep : sep ≠ []) {p : ℕ} (h : find sep l = some p) :
    frames sep l =
      (l.take p :: (frames sep (l.drop (p + sep.length))).1, (frames sep (l.drop (p + sep.length))).2) := by
  rw [frames]
  split
  · rename_i hn
    rw [h] at hn
    cases hn
  · rename_i q hq
    rw [h] at hq
    cases hq
    rw [dif_neg hsep]

/-- **Frames that are complete stay**, and what is left is read together with what comes. -/
theorem frames_append (hsep : sep ≠ []) (l m : List α) :
    frames sep (l ++ m) = ((frames sep l).1 ++ (frames sep ((frames sep l).2 ++ m)).1,
      (frames sep ((frames sep l).2 ++ m)).2) := by
  induction hl : l.length using Nat.strong_induction_on generalizing l with
  | _ n ih =>
      cases h : find sep l with
      | none => simp [frames_none h]
      | some p =>
          have hle := find_le_length h
          have hpos := List.length_pos_iff.mpr hsep
          have hdrop : (l ++ m).drop (p + sep.length) = l.drop (p + sep.length) ++ m :=
            List.drop_append_of_le_length hle
          have htail := ih (l.drop (p + sep.length)).length (by rw [List.length_drop]; omega)
            (l.drop (p + sep.length)) rfl
          rw [frames_some hsep h, frames_some hsep (find_append_right h m), hdrop, htail,
            List.take_append_of_le_length (by omega)]
          rfl

/-- A frame: the separator is found right behind it. -/
def IsFrame (sep l : List α) : Prop := ∀ m, find sep (l ++ (sep ++ m)) = some l.length

theorem frames_frame (hsep : sep ≠ []) (h : IsFrame sep l) (m : List α) :
    frames sep (l ++ (sep ++ m)) = (l :: (frames sep m).1, (frames sep m).2) := by
  have hdrop : (l ++ (sep ++ m)).drop (l.length + sep.length) = m := by
    rw [← List.append_assoc, List.drop_left' (List.length_append)]
  rw [frames_some hsep (h m), hdrop, List.take_left' rfl]

end HelpzLib
