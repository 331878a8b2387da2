import Helpz.Net.Defs
import Helpz.Lib.SortedMap
import Mathlib.Data.List.Induction
import Mathlib.Data.List.TakeWhile

/-!
# The protocol timer

`Protocol_Timer` (`net_protocol_timer.cpp`): one thread that waits for the earliest of the time points it was
given and reports those that have come. Clients add time points from other threads, also while the thread is
reporting.

* `ProtocolTimer`: the fields, the queue of `run` and a record of what was added and reported;
* `Step`, `step`: a call of `add` or `stop`, the end of a wait, a turn of the reporting loop;
* `KeepsItems`: what is expected of a run; `keepsItems_iff`: it is so exactly if no two pending items have the
  same time point, since `items_` is a map keyed by it and `emplace` does nothing then.
-/

namespace HelpzNet

open HelpzLib

namespace ProtocolTimer

/-- `Protocol_Timer::Item`: the client and the data it gave. -/
structure Item (ε δ : Type) where
  endpoint : ε
  data : δ
  deriving DecidableEq, Repr

/-- An item whose time has come: its time point, and the clock when the thread woke up for it. -/
structure Due (ε δ : Type) where
  time : TimePoint
  item : Item ε δ
  now : TimePoint
  deriving DecidableEq, Repr

/-- The item and its time point. -/
def Due.entry {ε δ : Type} (d : Due ε δ) : TimePoint × Item ε δ := (d.time, d.item)

end ProtocolTimer

open ProtocolTimer

/-- `Protocol_Timer`, with the queue `clients` of `run`. `added` and `emitted` record the calls of `add` and of
`on_protocol_timeout`; `running` is false when `run` has returned. -/
structure ProtocolTimer (ε δ : Type) where
  breakFlag : Bool
  newTimeoutFlag : Bool
  items : SortedMap TimePoint (Item ε δ)
  clients : List (Due ε δ)
  running : Bool
  added : List (TimePoint × Item ε δ)
  emitted : List (Due ε δ)

namespace ProtocolTimer

variable {ε δ : Type}

/-- A timer after its construction. -/
def fresh : ProtocolTimer ε δ := ⟨false, false, ∅, [], true, [], []⟩

/-- `Protocol_Timer::add`. -/
def add (s : ProtocolTimer ε δ) (time : TimePoint) (item : Item ε δ) : ProtocolTimer ε δ :=
  { s with items := s.items.emplace time item, newTimeoutFlag := true, added := s.added ++ [(time, item)] }

/-- `Protocol_Timer::stop`. -/
def stop (s : ProtocolTimer ε δ) : ProtocolTimer ε δ := { s with breakFlag := true }

/-- The thread is at the wait: it has reported everything it took. -/
def waits (s : ProtocolTimer ε δ) : Bool := s.running && s.clients.isEmpty

/-- The wait ends because its predicate holds. -/
def notified (s : ProtocolTimer ε δ) : ProtocolTimer ε δ :=
  if s.waits && (s.breakFlag || s.newTimeoutFlag) then
    if s.breakFlag then { s with running := false } else { s with newTimeoutFlag := false }
  else s

/-- The wait ends because the time point has passed and the predicate does not hold. -/
def timesOut (s : ProtocolTimer ε δ) : Bool :=
  s.waits && !(s.breakFlag || s.newTimeoutFlag) && !s.items.items.isEmpty

/-- The entries that are taken when the thread wakes up at `now`. -/
def dueAt (s : ProtocolTimer ε δ) (now : TimePoint) : List (TimePoint × Item ε δ) :=
  s.items.items.takeWhile fun a => decide (a.1 ≤ now + milliseconds 10)

/-- A wake-up caused by a timeout, at `now`: what is due moves to the queue. -/
def timeout (s : ProtocolTimer ε δ) (now : TimePoint) : ProtocolTimer ε δ :=
  if s.timesOut then
    { s with
      items := (s.items.popUpTo (now + milliseconds 10)).2
      clients := (s.dueAt now).map fun a => ⟨a.1, a.2, now⟩ }
  else s

/-- A turn of the loop that calls `on_protocol_timeout`. -/
def emit (s : ProtocolTimer ε δ) : ProtocolTimer ε δ :=
  match s.clients with
  | [] => s
  | d :: rest => { s with clients := rest, emitted := s.emitted ++ [d] }

/-- What can happen at a timer. -/
inductive Step (ε δ : Type)
  | add (time : TimePoint) (item : Item ε δ)
  | stop
  | notified
  | timeout (now : TimePoint)
  | emit
  deriving DecidableEq, Repr

def step (s : ProtocolTimer ε δ) : Step ε δ → ProtocolTimer ε δ
  | .add time item => s.add time item
  | .stop => s.stop
  | .notified => s.notified
  | .timeout now => s.timeout now
  | .emit => s.emit

/-- A run, in any order of steps. -/
def run (s : ProtocolTimer ε δ) (steps : List (Step ε δ)) : ProtocolTimer ε δ := steps.foldl step s

/-- The items that are pending: in the map, or in the queue. -/
def pending (s : ProtocolTimer ε δ) : List (TimePoint × Item ε δ) := s.items.items ++ s.clients.map Due.entry

/-- The items that were reported. -/
def reported (s : ProtocolTimer ε δ) : List (TimePoint × Item ε δ) := s.emitted.map Due.entry

/-- The items that were added are those that are pending and those that were reported, each once. -/
def Conserved (s : ProtocolTimer ε δ) : Prop := s.added.Perm (s.pending ++ s.reported)

/-- What is expected of a run: no item is lost or repeated, none is reported more than 10 ms early, and after a
wake-up caused by a timeout everything that was due then is reported before the thread waits again. -/
structure KeepsItems (steps : List (Step ε δ)) : Prop where
  conserved : ∀ pre post, steps = pre ++ post → (fresh.run pre).Conserved
  notEarly : ∀ pre post, steps = pre ++ post → ∀ d ∈ (fresh.run pre).emitted,
    d.time ≤ d.now + milliseconds 10
  wakes : ∀ pre now mid post, steps = pre ++ .timeout now :: (mid ++ post) → (fresh.run pre).timesOut = true →
    (fresh.run (pre ++ .timeout now :: mid)).clients = [] →
      ∀ a ∈ (fresh.run pre).items.items, a.1 ≤ now + milliseconds 10 →
        ⟨a.1, a.2, now⟩ ∈ (fresh.run (pre ++ .timeout now :: mid)).emitted

theorem run_append (s : ProtocolTimer ε δ) (l l' : List (Step ε δ)) : s.run (l ++ l') = (s.run l).run l' :=
  List.foldl_append

variable {s : ProtocolTimer ε δ}

theorem clients_of_timesOut (h : s.timesOut = true) : s.clients = [] := by
  simp only [timesOut, waits, Bool.and_eq_true, List.isEmpty_iff] at h
  exact h.1.1.2

/-! ## What is reported -/

/-- **What is taken stays in the queue until it is reported**, and only a wake-up takes more. -/
theorem queue_step (s : ProtocolTimer ε δ) (st : Step ε δ) :
    ∃ more, (s.step st).emitted ++ (s.step st).clients = s.emitted ++ s.clients ++ more ∧
      ∀ d ∈ more, d.time ≤ d.now + milliseconds 10 := by
  have hsame : ∀ q : ProtocolTimer ε δ, q.emitted = s.emitted → q.clients = s.clients →
      ∃ more, q.emitted ++ q.clients = s.emitted ++ s.clients ++ more ∧
        ∀ d ∈ more, d.time ≤ d.now + milliseconds 10 :=
    fun q h1 h2 => ⟨[], by rw [h1, h2, List.append_nil], fun d hd => (nomatch hd)⟩
  cases st with
  | add time item => exact hsame _ rfl rfl
  | stop => exact hsame _ rfl rfl
  | notified =>
      simp only [step, notified]
      split_ifs <;> exact hsame _ rfl rfl
  | timeout now =>
      simp only [step, timeout]
      split_ifs with ht
      · refine ⟨(s.dueAt now).map fun a => ⟨a.1, a.2, now⟩, ?_, fun d hd => ?_⟩
        · rw [clients_of_timesOut ht, List.append_nil]
        · obtain ⟨a, ha, rfl⟩ := List.mem_map.mp hd
          have hdue := List.mem_takeWhile_imp ha
          exact of_decide_eq_true hdue
      · exact hsame _ rfl rfl
  | emit =>
      simp only [step, emit]
      split
      · exact hsame _ rfl rfl
      next d rest hc => exact ⟨[], by simp [hc], fun d hd => (nomatch hd)⟩

theorem queue_run (s : ProtocolTimer ε δ) (steps : List (Step ε δ)) :
    ∃ more, (s.run steps).emitted ++ (s.run steps).clients = s.emitted ++ s.clients ++ more ∧
      ∀ d ∈ more, d.time ≤ d.now + milliseconds 10 := by
  induction steps generalizing s with
  | nil => exact ⟨[], (List.append_nil _).symm, fun d hd => (nomatch hd)⟩
  | cons st steps ih =>
      obtain ⟨first, h1, hf⟩ := queue_step s st
      obtain ⟨more, h2, hm⟩ := ih (s.step st)
      refine ⟨first ++ more, ?_, fun d hd => (List.mem_append.mp hd).elim (hf d) (hm d)⟩
      change ((s.step st).run steps).emitted ++ ((s.step st).run steps).clients = _
      rw [h2, h1, List.append_assoc]

theorem notEarly_run (steps : List (Step ε δ)) :
    ∀ d ∈ (fresh.run steps : ProtocolTimer ε δ).emitted, d.time ≤ d.now + milliseconds 10 := by
  intro d hd
  obtain ⟨more, he, hm⟩ := queue_run (fresh : ProtocolTimer ε δ) steps
  have hmem : d ∈ (fresh.run steps : ProtocolTimer ε δ).emitted ++ (fresh.run steps).clients :=
    List.mem_append_left _ hd
  rw [he] at hmem
  exact hm d hmem

theorem mem_dueAt {now : TimePoint} {a : TimePoint × Item ε δ} (ha : a ∈ s.items.items)
    (hle : a.1 ≤ now + milliseconds 10) : a ∈ s.dueAt now := by
  have hsplit := ha
  rw [← List.takeWhile_append_dropWhile (p := fun a : TimePoint × Item ε δ =>
    decide (a.1 ≤ now + milliseconds 10)) (l := s.items.items)] at hsplit
  rcases List.mem_append.mp hsplit with h | h
  · exact h
  · exact absurd hle (not_le.mpr (SortedMap.lt_of_mem_popUpTo (m := s.items) h))

/-- **A wake-up takes everything that is due, and it is reported before the thread waits again.** -/
theorem emitted_of_due {now : TimePoint} (ht : s.timesOut = true) {mid : List (Step ε δ)}
    (hc : ((s.timeout now).run mid).clients = []) {a : TimePoint × Item ε δ} (ha : a ∈ s.items.items)
    (hle : a.1 ≤ now + milliseconds 10) : ⟨a.1, a.2, now⟩ ∈ ((s.timeout now).run mid).emitted := by
  have hqueued : (⟨a.1, a.2, now⟩ : Due ε δ) ∈ (s.timeout now).emitted ++ (s.timeout now).clients := by
    refine List.mem_append_right _ ?_
    rw [timeout, if_pos ht]
    exact List.mem_map.mpr ⟨a, mem_dueAt ha hle, rfl⟩
  obtain ⟨more, he, _⟩ := queue_run (s.timeout now) mid
  rw [hc, List.append_nil] at he
  rw [he]
  exact List.mem_append_left _ hqueued

/-! ## What is kept -/

/-- The step adds nothing at a time point that is taken. -/
def AddsFree (s : ProtocolTimer ε δ) : Step ε δ → Prop
  | .add time _ => s.items.contains time = false
  | _ => True

/-- **A step conserves the items if it adds none at a time point that is taken.** -/
theorem Conserved.step (h : s.Conserved) {st : Step ε δ} (hfree : s.AddsFree st) : (s.step st).Conserved := by
  unfold Conserved pending reported at *
  cases st with
  | add time item =>
      have hitems : (s.items.emplace time item).items.Perm ((time, item) :: s.items.items) :=
        SortedMap.emplace_perm hfree item
      simp only [ProtocolTimer.step, ProtocolTimer.add]
      refine (List.perm_append_singleton _ _).trans ((h.cons _).trans ?_)
      exact ((hitems.append_right _).append_right _).symm
  | stop => exact h
  | notified =>
      simp only [ProtocolTimer.step, notified]
      split_ifs <;> exact h
  | timeout now =>
      simp only [ProtocolTimer.step, timeout]
      split_ifs with ht
      · have hdue : ((s.dueAt now).map fun a => (⟨a.1, a.2, now⟩ : Due ε δ)).map Due.entry = s.dueAt now := by
          rw [List.map_map]
          exact List.map_id _
        have hsplit : s.items.items = s.dueAt now ++ (s.items.popUpTo (now + milliseconds 10)).2.items :=
          List.takeWhile_append_dropWhile.symm
        rw [clients_of_timesOut ht, List.map_nil, List.append_nil, hsplit] at h
        rw [hdue]
        exact h.trans (List.perm_append_comm.append_right _)
      · exact h
  | emit =>
      simp only [ProtocolTimer.step, emit]
      split
      · exact h
      next d rest hc =>
        rw [hc] at h
        simp only [List.map_cons, List.map_append, List.map_nil, List.append_assoc, List.cons_append] at h ⊢
        refine h.trans (List.Perm.append_left _ ?_)
        exact (List.perm_append_singleton _ _).symm.trans (by rw [List.append_assoc])

/-- An item that is added at a time point that is taken is lost. -/
theorem not_conserved_of_taken (h : s.Conserved) {time : TimePoint} {item : Item ε δ}
    (ht : s.items.contains time = true) : ¬ (s.step (.add time item)).Conserved := by
  have hitems : s.items.emplace time item = s.items := dif_pos ht
  intro hafter
  have hlen := h.length_eq
  have hlen' := hafter.length_eq
  simp only [ProtocolTimer.step, ProtocolTimer.add, pending, reported, hitems, List.length_append,
    List.length_singleton] at hlen hlen'
  omega

/-- **The timer keeps every item, in a run, exactly if no item is added at the time point of a pending one.** -/
theorem keepsItems_iff (steps : List (Step ε δ)) :
    KeepsItems steps ↔ ∀ pre time item post, steps = pre ++ .add time item :: post →
      (fresh.run pre : ProtocolTimer ε δ).items.contains time = false := by
  constructor
  · intro h pre time item post hs
    by_contra ht
    have hbefore := h.conserved pre _ hs
    have hafter := h.conserved (pre ++ [.add time item]) post (by rw [hs, List.append_assoc]; rfl)
    rw [run_append] at hafter
    exact not_conserved_of_taken hbefore (Bool.not_eq_false _ ▸ ht) hafter
  · intro hfree
    refine ⟨fun pre post hs => ?_, fun pre post _ => notEarly_run pre, fun pre now mid post hs ht hc a ha hle => ?_⟩
    · induction pre using List.reverseRecOn generalizing post with
      | nil => exact List.Perm.refl _
      | append_singleton pre st ih =>
          rw [List.append_assoc] at hs
          rw [run_append]
          refine (ih _ hs).step ?_
          cases st with
          | add time item => exact hfree pre time item post hs
          | _ => exact trivial
    · have hrun : (fresh.run (pre ++ .timeout now :: mid) : ProtocolTimer ε δ) =
          ((fresh.run pre).timeout now).run mid := run_append fresh pre _
      rw [hrun] at hc ⊢
      exact emitted_of_due ht hc ha hle

/-- **Two clients with the same time point**: the timer of the second one is lost. -/
theorem same_time_loses : ¬ ∀ steps : List (Step ℕ ℕ), KeepsItems steps := by
  intro h
  have hconserved := (h [.add 5 ⟨1, 0⟩, .add 5 ⟨2, 0⟩]).conserved _ [] (List.append_nil _).symm
  have hlen := hconserved.length_eq
  revert hlen
  decide

end ProtocolTimer

end HelpzNet
