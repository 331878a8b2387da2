import Helpz.Lib.Run
import Mathlib.Data.List.Perm.Basic
import Mathlib.Data.List.Forall2
import Mathlib.Algebra.Order.BigOperators.Group.List
import Mathlib.Algebra.Order.Ring.Nat

/-!
# Worker threads over one queue

A queue of tasks guarded by a mutex and a condition variable. A worker tests a flag, takes the mutex, waits
while the queue is empty and the flag is not set, takes the first task and, the mutex released, performs its
operations one by one. What happens while the mutex is held is one step; the steps of all threads interleave
in any order, and a worker that waits may also wake up without being notified.

* `Pool`, `step`; `Step`: what each kind of step does;
* `Sound`: the invariant. Tasks are taken in the order they were added, each is in one hand or finished, and
  there is a worker awake for every task in the queue unless none sleeps;
* `measure`: what is left to do. It falls with every step a worker makes by itself (`Step.measure_lt`), and
  when no worker can make one the queue is empty (`Sound.idle`) or, after the flag is set, all have ended
  (`Sound.ended_of_quiescent`);
* `Serial`: what a single worker has performed.
-/

namespace HelpzLib

variable {α β : Type}

theorem exists_split_set {l : List α} {i : ℕ} {a : α} (h : l[i]? = some a) :
    ∃ l₁ l₂, l = l₁ ++ a :: l₂ ∧ ∀ b, l.set i b = l₁ ++ b :: l₂ := by
  induction l generalizing i with
  | nil => cases h
  | cons x l ih =>
      cases i with
      | zero =>
          obtain rfl : x = a := Option.some.inj h
          exact ⟨[], l, rfl, fun b => rfl⟩
      | succ i =>
          obtain ⟨l₁, l₂, rfl, hset⟩ := ih (i := i) h
          exact ⟨x :: l₁, l₂, rfl, fun b => congrArg (x :: ·) (hset b)⟩

/-- Where a worker is, with tasks `β` of operations `α`. -/
inductive Worker (β α : Type)
  /-- at the test of the flag -/
  | testing
  /-- asks for the mutex -/
  | entering
  /-- waits for a notification, the mutex released -/
  | blocked
  /-- notified, and asks for the mutex -/
  | woken
  /-- has the operations `left` of its task before it -/
  | busy (task : β) (left : List α)
  | ended
  deriving DecidableEq

namespace Worker

/-- The task in hand. -/
def task : Worker β α → Option β
  | busy t _ => some t
  | _ => none

/-- It sleeps. -/
def sleeps : Worker β α → ℕ
  | blocked => 1
  | _ => 0

/-- It will look at the queue before it sleeps. -/
def watches : Worker β α → ℕ
  | testing | entering | woken => 1
  | _ => 0

/-- The steps it can make before it sleeps or takes a task. -/
def weight : Worker β α → ℕ
  | testing => 2
  | entering | woken => 1
  | busy _ left => left.length + 3
  | blocked | ended => 0

/-- `notify_all`. -/
def notify : Worker β α → Worker β α
  | blocked => woken
  | w => w

/-- It asks for the mutex. -/
def Asks (w : Worker β α) : Prop := w = entering ∨ w = woken

end Worker

/-- The queue, the flag and the workers; what was added, taken, finished and performed so far. -/
structure Pool (β α : Type) where
  breakFlag : Bool
  queue : List β
  workers : List (Worker β α)
  added : List β
  taken : List β
  finished : List β
  performed : List α
  deriving DecidableEq

namespace Pool

/-- One step. `add` names the worker that `notify_one` wakes up, if one sleeps. -/
inductive Move (β : Type)
  | add (task : β) (wakes : Option ℕ)
  | stop
  | spurious (i : ℕ)
  | test (i : ℕ)
  | enter (i : ℕ)
  | perform (i : ℕ)
  /-- the task returns, or ends in an exception -/
  | leave (i : ℕ)

/-- A worker makes the step by itself. -/
def Move.Own : Move β → Prop
  | test _ | enter _ | perform _ | leave _ => True
  | add _ _ | stop | spurious _ => False

def start (n : ℕ) : Pool β α where
  breakFlag := false
  queue := []
  workers := List.replicate n .testing
  added := []
  taken := []
  finished := []
  performed := []

def set (s : Pool β α) (i : ℕ) (w : Worker β α) : Pool β α := { s with workers := s.workers.set i w }

def push (s : Pool β α) (task : β) : Pool β α := { s with queue := s.queue ++ [task], added := s.added ++ [task] }

/-- A sum over the workers. -/
def total (s : Pool β α) (f : Worker β α → ℕ) : ℕ := (s.workers.map f).sum

def inHands (s : Pool β α) : List β := s.workers.filterMap Worker.task

/-- The worker has the mutex: it leaves the loop, waits, or takes the first task. -/
def enter (ops : β → List α) (s : Pool β α) (i : ℕ) : Pool β α :=
  if s.breakFlag then s.set i .ended
  else match s.queue with
    | [] => s.set i .blocked
    | t :: q => { s with queue := q, taken := s.taken ++ [t] }.set i (.busy t (ops t))

def step (ops : β → List α) (s : Pool β α) : Move β → Option (Pool β α)
  | .add task none => if s.total Worker.sleeps = 0 then some (s.push task) else none
  | .add task (some i) =>
      match s.workers[i]? with
      | some .blocked => some ((s.push task).set i .woken)
      | _ => none
  | .stop => some { s with breakFlag := true, workers := s.workers.map Worker.notify }
  | .spurious i =>
      match s.workers[i]? with
      | some .blocked => some (s.set i .woken)
      | _ => none
  | .test i =>
      match s.workers[i]? with
      | some .testing => some (s.set i (if s.breakFlag then .ended else .entering))
      | _ => none
  | .enter i =>
      match s.workers[i]? with
      | some .entering | some .woken => some (s.enter ops i)
      | _ => none
  | .perform i =>
      match s.workers[i]? with
      | some (.busy t (a :: left)) => some ({ s with performed := s.performed ++ [a] }.set i (.busy t left))
      | _ => none
  | .leave i =>
      match s.workers[i]? with
      | some (.busy t _) => some ({ s with finished := s.finished ++ [t] }.set i .testing)
      | _ => none

/-- A run over a list of steps. -/
def run (ops : β → List α) (s : Pool β α) (moves : List (Move β)) : Option (Pool β α) := moves.foldlM (step ops) s

/-- What each kind of step does. -/
inductive Step (ops : β → List α) (s : Pool β α) : Move β → Pool β α → Prop
  | add (task : β) : s.total Worker.sleeps = 0 → Step ops s (.add task none) (s.push task)
  | addWake (task : β) {i : ℕ} : s.workers[i]? = some .blocked →
      Step ops s (.add task (some i)) ((s.push task).set i .woken)
  | stop : Step ops s .stop { s with breakFlag := true, workers := s.workers.map Worker.notify }
  | spurious {i : ℕ} : s.workers[i]? = some .blocked → Step ops s (.spurious i) (s.set i .woken)
  | test {i : ℕ} : s.workers[i]? = some .testing →
      Step ops s (.test i) (s.set i (if s.breakFlag then .ended else .entering))
  | enterBreak {i : ℕ} {w : Worker β α} : s.workers[i]? = some w → w.Asks → s.breakFlag = true →
      Step ops s (.enter i) (s.set i .ended)
  | enterWait {i : ℕ} {w : Worker β α} : s.workers[i]? = some w → w.Asks → s.breakFlag = false → s.queue = [] →
      Step ops s (.enter i) (s.set i .blocked)
  | enterTake {i : ℕ} {w : Worker β α} {t : β} {q : List β} : s.workers[i]? = some w → w.Asks →
      s.breakFlag = false → s.queue = t :: q →
      Step ops s (.enter i) ({ s with queue := q, taken := s.taken ++ [t] }.set i (.busy t (ops t)))
  | perform {i : ℕ} {t : β} {a : α} {left : List α} : s.workers[i]? = some (.busy t (a :: left)) →
      Step ops s (.perform i) ({ s with performed := s.performed ++ [a] }.set i (.busy t left))
  | leave {i : ℕ} {t : β} {left : List α} : s.workers[i]? = some (.busy t left) →
      Step ops s (.leave i) ({ s with finished := s.finished ++ [t] }.set i .testing)

variable {ops : β → List α} {s s' t : Pool β α} {mv : Move β} {i : ℕ} {w w' : Worker β α}

theorem step_enter (hw : s.workers[i]? = some w) (ha : w.Asks) : Step ops s (.enter i) (s.enter ops i) := by
  unfold enter
  split_ifs with hb
  · exact .enterBreak hw ha hb
  · have hb : s.breakFlag = false := Bool.not_eq_true _ ▸ hb
    split
    next hq => exact .enterWait hw ha hb hq
    next t q hq => exact .enterTake hw ha hb hq

theorem step_cases (h : s.step ops mv = some s') : Step ops s mv s' := by
  cases mv with
  | add task wakes =>
      cases wakes with
      | none =>
          simp only [step] at h
          split_ifs at h with hz
          exact Option.some.inj h ▸ .add task hz
      | some i =>
          simp only [step] at h
          split at h
          next hw => exact Option.some.inj h ▸ .addWake task hw
          next => cases h
  | stop => exact Option.some.inj h ▸ .stop
  | spurious i =>
      simp only [step] at h
      split at h
      next hw => exact Option.some.inj h ▸ .spurious hw
      next => cases h
  | test i =>
      simp only [step] at h
      split at h
      next hw => exact Option.some.inj h ▸ .test hw
      next => cases h
  | enter i =>
      simp only [step] at h
      split at h
      next hw => exact Option.some.inj h ▸ step_enter hw (.inl rfl)
      next hw => exact Option.some.inj h ▸ step_enter hw (.inr rfl)
      next => cases h
  | perform i =>
      simp only [step] at h
      split at h
      next hw => exact Option.some.inj h ▸ .perform hw
      next => cases h
  | leave i =>
      simp only [step] at h
      split at h
      next hw => exact Option.some.inj h ▸ .leave hw
      next => cases h

/-! ## One worker replaced -/

theorem total_set (hw : s.workers[i]? = some w) (w' : Worker β α) (f : Worker β α → ℕ) :
    (s.set i w').total f + f w = s.total f + f w' := by
  obtain ⟨l₁, l₂, he, hset⟩ := exists_split_set hw
  simp only [total, set]
  rw [hset w', he]
  simp only [List.map_append, List.map_cons, List.sum_append, List.sum_cons]
  omega

theorem inHands_set (hw : s.workers[i]? = some w) (w' : Worker β α) :
    ((s.set i w').inHands ++ w.task.toList).Perm (s.inHands ++ w'.task.toList) := by
  obtain ⟨l₁, l₂, he, hset⟩ := exists_split_set hw
  have hsplit : ∀ x : Worker β α, (l₁ ++ x :: l₂).filterMap Worker.task =
      l₁.filterMap Worker.task ++ (x.task.toList ++ l₂.filterMap Worker.task) := fun x => by
    rw [List.filterMap_append, List.filterMap_cons]
    cases x.task <;> rfl
  have hswap : ∀ x y : Worker β α, ((l₁ ++ x :: l₂).filterMap Worker.task ++ y.task.toList).Perm
      (l₁.filterMap Worker.task ++ (l₂.filterMap Worker.task ++ (x.task.toList ++ y.task.toList))) := fun x y => by
    rw [hsplit, List.append_assoc, List.append_assoc]
    refine List.Perm.append_left _ ?_
    rw [← List.append_assoc, ← List.append_assoc]
    exact List.perm_append_comm.append_right _
  simp only [inHands, set]
  rw [hset w', he]
  refine (hswap w' w).trans (((hswap w w').trans ?_).symm)
  exact (List.perm_append_comm.append_left _).append_left _

theorem mem_set {x : Worker β α} (h : x ∈ (s.set i w').workers) : x ∈ s.workers ∨ x = w' :=
  List.mem_or_eq_of_mem_set h

@[simp] theorem length_workers_set : (s.set i w').workers.length = s.workers.length := List.length_set

theorem sleeps_notify (l : List (Worker β α)) : ((l.map Worker.notify).map Worker.sleeps).sum = 0 := by
  refine List.sum_eq_zero fun n hn => ?_
  obtain ⟨w, hw, rfl⟩ := List.mem_map.mp hn
  obtain ⟨w, _, rfl⟩ := List.mem_map.mp hw
  cases w <;> rfl

theorem filterMap_task_notify (l : List (Worker β α)) :
    (l.map Worker.notify).filterMap Worker.task = l.filterMap Worker.task := by
  rw [List.filterMap_map]
  refine List.filterMap_congr fun w _ => ?_
  cases w <;> rfl

/-! ## The invariant -/

/-- Tasks are taken in order, each taken task is in one hand or finished, a worker that has ended saw the flag,
and a task in the queue has a worker awake for it unless none sleeps; none sleeps once the flag is set. -/
structure Sound (s : Pool β α) : Prop where
  order : s.taken ++ s.queue = s.added
  hands : s.taken.Perm (s.finished ++ s.inHands)
  ended : Worker.ended ∈ s.workers → s.breakFlag = true
  watched : s.total Worker.sleeps = 0 ∨ s.queue.length ≤ s.total Worker.watches
  awake : s.breakFlag = true → s.total Worker.sleeps = 0

theorem sound_start (n : ℕ) : (start n : Pool β α).Sound := by
  have hzero : (start n : Pool β α).total Worker.sleeps = 0 := by simp [start, total, Worker.sleeps]
  have hhands : (start n : Pool β α).inHands = [] := by
    refine List.filterMap_eq_nil_iff.mpr fun w hw => ?_
    rw [List.eq_of_mem_replicate hw]
    rfl
  refine ⟨rfl, ?_, fun h => ?_, .inl hzero, fun h => (nomatch h)⟩
  · rw [hhands]
    exact .nil
  · cases List.eq_of_mem_replicate h

theorem watched_set {n : ℕ} (hw : s.workers[i]? = some w)
    (h : s.total Worker.sleeps = 0 ∧ w'.sleeps = 0 ∨ n + w.watches ≤ s.total Worker.watches + w'.watches) :
    (s.set i w').total Worker.sleeps = 0 ∨ n ≤ (s.set i w').total Worker.watches := by
  have hsleeps := total_set hw w' Worker.sleeps
  have hwatches := total_set hw w' Worker.watches
  omega

theorem Step.watched (h : Step ops s mv s') (hs : s.Sound) :
    s'.total Worker.sleeps = 0 ∨ s'.queue.length ≤ s'.total Worker.watches := by
  have hwatched := hs.watched
  cases h with
  | add task hz => exact .inl hz
  | @addWake task i hw =>
      refine watched_set (s := s.push task) hw (hwatched.imp (fun hz => ⟨hz, rfl⟩) fun hle => ?_)
      change (s.queue ++ [task]).length + 0 ≤ s.total Worker.watches + 1
      rw [List.length_append, List.length_singleton]
      omega
  | stop => exact .inl (sleeps_notify s.workers)
  | spurious hw => exact watched_set hw (hwatched.imp (fun hz => ⟨hz, rfl⟩) fun hle => Nat.le_succ_of_le hle)
  | test hw =>
      split_ifs with hb
      · exact watched_set hw (.inl ⟨hs.awake hb, rfl⟩)
      · exact watched_set hw (hwatched.imp (fun hz => ⟨hz, rfl⟩) fun hle => Nat.succ_le_succ hle)
  | enterBreak hw ha hb => exact watched_set hw (.inl ⟨hs.awake hb, rfl⟩)
  | enterWait hw ha hb hq => exact .inr (by simp [set, hq])
  | @enterTake i w t q hw ha hb hq =>
      rw [hq, List.length_cons] at hwatched
      refine watched_set (s := { s with queue := q, taken := s.taken ++ [t] }) hw
        (hwatched.imp (fun hz => ⟨hz, rfl⟩) fun hle => ?_)
      obtain rfl | rfl := ha <;> exact hle
  | @perform i t a left hw =>
      exact watched_set (s := { s with performed := s.performed ++ [a] }) hw
        (hwatched.imp (fun hz => ⟨hz, rfl⟩) fun hle => hle)
  | @leave i t left hw =>
      exact watched_set (s := { s with finished := s.finished ++ [t] }) hw
        (hwatched.imp (fun hz => ⟨hz, rfl⟩) fun hle => Nat.le_succ_of_le hle)

theorem awake_set (hw : s.workers[i]? = some w) (h : s.total Worker.sleeps = 0) (hz : w'.sleeps = 0) :
    (s.set i w').total Worker.sleeps = 0 := by
  have hsum := total_set hw w' Worker.sleeps
  omega

theorem Step.awake (h : Step ops s mv s') (hs : s.Sound) (hb : s'.breakFlag = true) :
    s'.total Worker.sleeps = 0 := by
  cases h with
  | add task hz => exact hz
  | @addWake task i hw => exact awake_set (s := s.push task) hw (hs.awake hb) rfl
  | stop => exact sleeps_notify s.workers
  | spurious hw => exact awake_set hw (hs.awake hb) rfl
  | test hw => exact awake_set hw (hs.awake hb) (by split_ifs <;> rfl)
  | enterBreak hw ha hb' => exact awake_set hw (hs.awake hb) rfl
  | enterWait hw ha hno hq => exact absurd (hb.symm.trans hno) (by decide)
  | enterTake hw ha hno hq => exact absurd (hb.symm.trans hno) (by decide)
  | @perform i t a left hw =>
      exact awake_set (s := { s with performed := s.performed ++ [a] }) hw (hs.awake hb) rfl
  | @leave i t left hw =>
      exact awake_set (s := { s with finished := s.finished ++ [t] }) hw (hs.awake hb) rfl

theorem Step.order (h : Step ops s mv s') (hs : s.Sound) : s'.taken ++ s'.queue = s'.added := by
  have horder := hs.order
  cases h with
  | add task hz => rw [push, ← horder, List.append_assoc]
  | addWake task hw => simp only [push, set, ← horder, List.append_assoc]
  | enterTake hw ha hb hq =>
      simp only [set, ← horder, hq, List.append_assoc, List.singleton_append]
  | _ => exact horder

theorem Step.added_add {task : β} {wakes : Option ℕ} (h : Step ops s (.add task wakes) s') :
    s'.added = s.added ++ [task] := by
  cases h <;> rfl

theorem Step.added_of_ne (h : Step ops s mv s') (hne : ∀ task wakes, mv ≠ .add task wakes) :
    s'.added = s.added := by
  cases h with
  | add task hz => exact absurd rfl (hne task none)
  | addWake task hw => exact absurd rfl (hne task (some _))
  | _ => rfl

theorem Step.length_workers (h : Step ops s mv s') : s'.workers.length = s.workers.length := by
  cases h with
  | add task hz => rfl
  | stop => exact List.length_map _
  | _ => exact length_workers_set

theorem Step.own_eq (h : Step ops s mv s') (hown : mv.Own) : s'.added = s.added ∧ s'.breakFlag = s.breakFlag := by
  cases h with
  | add task hz => cases hown
  | addWake task hw => cases hown
  | stop => cases hown
  | _ => exact ⟨rfl, rfl⟩

theorem hands_set (hw : s.workers[i]? = some w) (ht : w'.task = w.task) :
    (s.set i w').inHands.Perm s.inHands := by
  have hperm := inHands_set hw w'
  rw [ht] at hperm
  exact (List.perm_append_right_iff _).mp hperm

theorem Step.hands (h : Step ops s mv s') (hs : s.Sound) : s'.taken.Perm (s'.finished ++ s'.inHands) := by
  have hhands := hs.hands
  have hsame : ∀ {r : Pool β α} {i : ℕ} {w w' : Worker β α}, r.workers[i]? = some w → w'.task = w.task →
      s.inHands = r.inHands → s.taken.Perm (s.finished ++ (r.set i w').inHands) := fun {r i w w'} hw ht he => by
    rw [he] at hhands
    exact hhands.trans ((hands_set hw ht).symm.append_left _)
  cases h with
  | add task hz => exact hhands
  | @addWake task i hw => exact hsame (r := s.push task) hw rfl rfl
  | stop =>
      refine hhands.trans (List.Perm.of_eq (congrArg (s.finished ++ ·) ?_))
      exact (filterMap_task_notify s.workers).symm
  | spurious hw => exact hsame hw rfl rfl
  | test hw => exact hsame hw (by split_ifs <;> rfl) rfl
  | enterBreak hw ha hb => exact hsame hw (by obtain rfl | rfl := ha <;> rfl) rfl
  | enterWait hw ha hb hq => exact hsame hw (by obtain rfl | rfl := ha <;> rfl) rfl
  | @enterTake i w t q hw ha hb hq =>
      have hperm := inHands_set (s := { s with queue := q, taken := s.taken ++ [t] }) hw (.busy t (ops t))
      have hnone : w.task = none := by obtain rfl | rfl := ha <;> rfl
      rw [hnone, Option.toList_none, List.append_nil] at hperm
      refine (hhands.append_right [t]).trans ?_
      rw [List.append_assoc]
      exact hperm.symm.append_left _
  | @perform i t a left hw => exact hsame (r := { s with performed := s.performed ++ [a] }) hw rfl rfl
  | @leave i t left hw =>
      have hperm := inHands_set (s := { s with finished := s.finished ++ [t] }) hw .testing
      change ((_ : List β) ++ [t]).Perm (_ ++ []) at hperm
      rw [List.append_nil] at hperm
      refine hhands.trans ((hperm.symm.append_left _).trans ?_)
      refine ((List.perm_append_comm).append_left _).trans (List.Perm.of_eq ?_)
      exact (List.append_assoc _ _ _).symm

theorem Step.ended (h : Step ops s mv s') (hs : s.Sound) (he : Worker.ended ∈ s'.workers) :
    s'.breakFlag = true := by
  have hset : ∀ {r : Pool β α} {i : ℕ} {w' : Worker β α}, r.workers = s.workers →
      Worker.ended ∈ (r.set i w').workers → w' ≠ .ended → s.breakFlag = true := fun {r i w'} hr hmem hne =>
    hs.ended (hr ▸ (mem_set hmem).resolve_right hne.symm)
  cases h with
  | add task hz => exact hs.ended he
  | @addWake task i hw => exact hset (r := s.push task) rfl he (fun h => nomatch h)
  | stop => rfl
  | spurious hw => exact hset rfl he (fun h => nomatch h)
  | test hw =>
      split_ifs at he with hb
      · exact hb
      · exact hset rfl he (fun h => nomatch h)
  | enterBreak hw ha hb => exact hb
  | enterWait hw ha hb hq => exact hset rfl he (fun h => nomatch h)
  | @enterTake i w t q hw ha hb hq =>
      exact hset (r := { s with queue := q, taken := s.taken ++ [t] }) rfl he (fun h => nomatch h)
  | @perform i t a left hw =>
      exact hset (r := { s with performed := s.performed ++ [a] }) rfl he (fun h => nomatch h)
  | @leave i t left hw =>
      exact hset (r := { s with finished := s.finished ++ [t] }) rfl he (fun h => nomatch h)

/-- **Every step keeps the invariant.** -/
theorem Sound.step (hs : s.Sound) (h : s.step ops mv = some s') : s'.Sound :=
  have hstep := step_cases h
  ⟨hstep.order hs, hstep.hands hs, hstep.ended hs, hstep.watched hs, hstep.awake hs⟩

/-- **The invariant holds after every run.** -/
theorem Sound.run {moves : List (Move β)} (hs : s.Sound) (hr : s.run ops moves = some t) : t.Sound :=
  invariant_foldlM (fun _ _ _ hs h => hs.step h) hs hr

/-! ## What is left of a task -/

/-- What is left of a task is the end of its operations. -/
def Trimmed (ops : β → List α) (s : Pool β α) : Prop :=
  ∀ w ∈ s.workers, ∀ t left, w = Worker.busy t left → left <:+ ops t

theorem trimmed_start (n : ℕ) : (start n : Pool β α).Trimmed ops := by
  rintro w hw t left rfl
  cases List.eq_of_mem_replicate hw

theorem Step.trimmed (h : Step ops s mv s') (ht : s.Trimmed ops) : s'.Trimmed ops := by
  have hset : ∀ {r : Pool β α} {i : ℕ} {w' : Worker β α}, r.workers = s.workers →
      (∀ t left, w' = .busy t left → left <:+ ops t) → (r.set i w').Trimmed ops := by
    intro r i w' hr hw' w hw t left he
    rcases mem_set hw with hw | rfl
    · exact ht w (hr ▸ hw) t left he
    · exact hw' t left he
  cases h with
  | add task hz => exact ht
  | @addWake task i hw => exact hset (r := s.push task) rfl fun _ _ he => nomatch he
  | stop =>
      rintro w hw t left rfl
      obtain ⟨x, hx, he⟩ := List.mem_map.mp hw
      cases x <;> cases he
      exact ht _ hx t left rfl
  | spurious hw => exact hset rfl fun _ _ he => nomatch he
  | test hw => exact hset rfl fun _ _ he => by split_ifs at he
  | enterBreak hw ha hb => exact hset rfl fun _ _ he => nomatch he
  | enterWait hw ha hb hq => exact hset rfl fun _ _ he => nomatch he
  | @enterTake i w t q hw ha hb hq =>
      refine hset (r := { s with queue := q, taken := s.taken ++ [t] }) rfl fun t' left he => ?_
      obtain ⟨rfl, rfl⟩ := Worker.busy.inj he
      exact List.suffix_refl _
  | @perform i t a left hw =>
      refine hset (r := { s with performed := s.performed ++ [a] }) rfl fun t' left' he => ?_
      obtain ⟨rfl, rfl⟩ := Worker.busy.inj he
      exact (List.suffix_cons a left).trans (ht _ (List.mem_of_getElem? hw) t (a :: left) rfl)
  | @leave i t left hw =>
      exact hset (r := { s with finished := s.finished ++ [t] }) rfl fun _ _ he => nomatch he

/-! ## What is left to do -/

/-- The steps that the workers can make by themselves. -/
def measure (ops : β → List α) (s : Pool β α) : ℕ :=
  s.total Worker.weight + (s.queue.map fun t => (ops t).length + 4).sum

/-- No worker can make a step by itself. -/
def Quiescent (ops : β → List α) (s : Pool β α) : Prop := ∀ mv : Move β, mv.Own → s.step ops mv = none

/-- **A step of a worker leaves less to do.** -/
theorem Step.measure_lt (h : Step ops s mv s') (hown : mv.Own) : s'.measure ops < s.measure ops := by
  have hsum : ∀ {r : Pool β α} {i : ℕ} {w : Worker β α}, r.workers[i]? = some w → ∀ w',
      (r.set i w').total Worker.weight + w.weight = r.total Worker.weight + w'.weight :=
    fun hw w' => total_set hw w' Worker.weight
  cases h with
  | add task hz => cases hown
  | addWake task hw => cases hown
  | stop => cases hown
  | spurious hw => cases hown
  | test hw =>
      have htotal := hsum hw (if s.breakFlag then .ended else .entering)
      have hle : (if s.breakFlag then Worker.ended else Worker.entering : Worker β α).weight ≤ 1 := by
        split_ifs
        · exact Nat.zero_le 1
        · exact le_rfl
      simp only [measure, set, total, Worker.weight] at htotal hle ⊢
      omega
  | enterBreak hw ha hb =>
      have htotal := hsum hw .ended
      obtain rfl | rfl := ha <;> simp only [measure, set, total, Worker.weight] at htotal ⊢ <;> omega
  | enterWait hw ha hb hq =>
      have htotal := hsum hw .blocked
      obtain rfl | rfl := ha <;> simp only [measure, set, total, Worker.weight] at htotal ⊢ <;> omega
  | @enterTake i w t q hw ha hb hq =>
      have htotal := hsum (r := { s with queue := q, taken := s.taken ++ [t] }) hw (.busy t (ops t))
      simp only [measure, hq, List.map_cons, List.sum_cons]
      obtain rfl | rfl := ha <;> simp only [set, total, Worker.weight] at htotal ⊢ <;> omega
  | @perform i t a left hw =>
      have htotal := hsum (r := { s with performed := s.performed ++ [a] }) hw (.busy t left)
      simp only [measure, set, total, Worker.weight, List.length_cons] at htotal ⊢
      omega
  | @leave i t left hw =>
      have htotal := hsum (r := { s with finished := s.finished ++ [t] }) hw .testing
      simp only [measure, set, total, Worker.weight] at htotal ⊢
      omega

/-- **The workers alone make at most so many steps.** -/
theorem length_add_measure_le {moves : List (Move β)} (hown : ∀ mv ∈ moves, mv.Own)
    (hr : s.run ops moves = some t) : moves.length + t.measure ops ≤ s.measure ops := by
  induction moves generalizing s with
  | nil =>
      obtain rfl := Option.some.inj hr
      exact le_of_eq (Nat.zero_add _)
  | cons mv moves ih =>
      rw [run, List.foldlM_cons] at hr
      obtain ⟨s', hs', hrest⟩ := Option.bind_eq_some_iff.mp hr
      have hlt := (step_cases hs').measure_lt (hown mv List.mem_cons_self)
      have hle := ih (fun mv' h' => hown mv' (List.mem_cons_of_mem _ h')) hrest
      rw [List.length_cons]
      omega

theorem own_run {moves : List (Move β)} (hown : ∀ mv ∈ moves, mv.Own) (hr : s.run ops moves = some t) :
    t.added = s.added ∧ t.breakFlag = s.breakFlag ∧ t.workers.length = s.workers.length := by
  induction moves generalizing s with
  | nil =>
      obtain rfl := Option.some.inj hr
      exact ⟨rfl, rfl, rfl⟩
  | cons mv moves ih =>
      rw [run, List.foldlM_cons] at hr
      obtain ⟨s', hs', hrest⟩ := Option.bind_eq_some_iff.mp hr
      have hstep := step_cases hs'
      obtain ⟨hadded, hflag⟩ := hstep.own_eq (hown mv List.mem_cons_self)
      obtain ⟨hadded', hflag', hlength⟩ := ih (fun mv' h' => hown mv' (List.mem_cons_of_mem _ h')) hrest
      exact ⟨hadded'.trans hadded, hflag'.trans hflag, hlength.trans hstep.length_workers⟩

/-- **The workers alone come to an end.** -/
theorem exists_quiescent (ops : β → List α) (s : Pool β α) :
    ∃ moves t, (∀ mv ∈ moves, mv.Own) ∧ s.run ops moves = some t ∧ t.Quiescent ops := by
  by_cases hq : s.Quiescent ops
  · exact ⟨[], s, fun _ h => (nomatch h), rfl, hq⟩
  · obtain ⟨mv, hmv⟩ := not_forall.mp hq
    obtain ⟨hown, hne⟩ := Classical.not_imp.mp hmv
    obtain ⟨s', hs'⟩ := Option.ne_none_iff_exists'.mp hne
    have hlt := (step_cases hs').measure_lt hown
    obtain ⟨moves, t, hmoves, hr, ht⟩ := exists_quiescent ops s'
    refine ⟨mv :: moves, t, List.forall_mem_cons.mpr ⟨hown, hmoves⟩, ?_, ht⟩
    rw [run, List.foldlM_cons, hs']
    exact hr
termination_by s.measure ops

theorem Quiescent.blocked_or_ended (h : s.Quiescent ops) (hw : w ∈ s.workers) : w = .blocked ∨ w = .ended := by
  obtain ⟨i, hi⟩ := List.getElem?_of_mem hw
  cases w with
  | testing =>
      have hno := h (.test i) trivial
      simp [step, hi] at hno
  | entering =>
      have hno := h (.enter i) trivial
      simp [step, hi] at hno
  | blocked => exact .inl rfl
  | woken =>
      have hno := h (.enter i) trivial
      simp [step, hi] at hno
  | busy t left =>
      have hno := h (.leave i) trivial
      simp [step, hi] at hno
  | ended => exact .inr rfl

theorem Quiescent.watches_eq_zero (h : s.Quiescent ops) : s.total Worker.watches = 0 := by
  refine List.sum_eq_zero fun n hn => ?_
  obtain ⟨w, hw, rfl⟩ := List.mem_map.mp hn
  obtain rfl | rfl := h.blocked_or_ended hw <;> rfl

theorem Quiescent.inHands_eq_nil (h : s.Quiescent ops) : s.inHands = [] := by
  refine List.filterMap_eq_nil_iff.mpr fun w hw => ?_
  obtain rfl | rfl := h.blocked_or_ended hw <;> rfl

theorem sleeps_pos (h : Worker.blocked ∈ s.workers) : 1 ≤ s.total Worker.sleeps :=
  List.le_sum_of_mem (List.mem_map.mpr ⟨_, h, rfl⟩)

/-- **No worker sleeps on a task.** -/
theorem Sound.idle (hs : s.Sound) (h : s.Quiescent ops) (hb : s.breakFlag = false) (hne : s.workers ≠ []) :
    s.queue = [] ∧ s.added.Perm s.finished := by
  have hblocked : s.total Worker.sleeps ≠ 0 := by
    obtain ⟨w, hw⟩ := List.exists_mem_of_ne_nil _ hne
    intro hzero
    obtain rfl | rfl := h.blocked_or_ended hw
    · have := sleeps_pos hw
      omega
    · exact absurd (hb.symm.trans (hs.ended hw)) (by decide)
  have hqueue : s.queue = [] := by
    have hle := hs.watched.resolve_left hblocked
    rw [h.watches_eq_zero] at hle
    exact List.length_eq_zero_iff.mp (Nat.le_zero.mp hle)
  refine ⟨hqueue, ?_⟩
  have hhands := hs.hands
  rw [h.inHands_eq_nil, List.append_nil] at hhands
  rwa [← hs.order, hqueue, List.append_nil]

/-- **Once the flag is set every worker ends.** -/
theorem Sound.ended_of_quiescent (hs : s.Sound) (h : s.Quiescent ops) (hb : s.breakFlag = true) (hw : w ∈ s.workers) :
    w = .ended := by
  obtain rfl | rfl := h.blocked_or_ended hw
  · have := sleeps_pos hw
    have := hs.awake hb
    omega
  · rfl

/-- **Once the flag is set no task is taken.** -/
theorem Step.taken_eq (h : Step ops s mv s') (hb : s.breakFlag = true) :
    s'.breakFlag = true ∧ s'.taken = s.taken := by
  cases h with
  | stop => exact ⟨rfl, rfl⟩
  | enterTake hw ha hno hq => exact absurd (hb.symm.trans hno) (by decide)
  | _ => exact ⟨hb, rfl⟩

theorem taken_run {moves : List (Move β)} (hb : s.breakFlag = true) (hr : s.run ops moves = some t) :
    t.breakFlag = true ∧ t.taken = s.taken :=
  invariant_foldlM (I := fun r => r.breakFlag = true ∧ r.taken = s.taken)
    (fun _ _ _ hI h => ⟨((step_cases h).taken_eq hI.1).1, ((step_cases h).taken_eq hI.1).2.trans hI.2⟩)
    ⟨hb, rfl⟩ hr

/-! ## One worker -/

/-- What one worker has performed: a part of each finished task in turn, in the relation `R` to the whole of its
operations, and then those of the task in hand that are not left. -/
inductive Serial (R : List α → List α → Prop) (ops : β → List α) (s : Pool β α) : Prop
  | idle (parts : List (List α)) (w : Worker β α) : s.workers = [w] → w.task = none →
      List.Forall₂ R parts (s.finished.map ops) → s.taken = s.finished → s.performed = parts.flatten → Serial R ops s
  | busy (parts : List (List α)) (p : List α) (t : β) (left : List α) : s.workers = [.busy t left] →
      List.Forall₂ R parts (s.finished.map ops) → s.taken = s.finished ++ [t] → p ++ left = ops t →
      s.performed = parts.flatten ++ p → Serial R ops s

/-- A task that is left was performed as far as `R` asks for. -/
def LeftAt (R : List α → List α → Prop) (ops : β → List α) (s : Pool β α) : Move β → Prop
  | .leave i => ∀ t left p, s.workers[i]? = some (.busy t left) → p ++ left = ops t → R p (ops t)
  | _ => True

variable {R : List α → List α → Prop}

theorem serial_start : (start 1 : Pool β α).Serial R ops := .idle [] .testing rfl rfl .nil rfl rfl

theorem eq_of_getElem? (hs : s.workers = [w']) (hw : s.workers[i]? = some w) : i = 0 ∧ w = w' := by
  rw [hs] at hw
  cases i with
  | zero => exact ⟨rfl, (Option.some.inj hw).symm⟩
  | succ i => cases hw

theorem Serial.set_idle (h : s.Serial R ops) (hw : s.workers[i]? = some w) (ht : w.task = none)
    (ht' : w'.task = none) : (s.set i w').Serial R ops := by
  cases h with
  | idle parts w₀ hs _ hparts htaken hperformed =>
      obtain ⟨rfl, rfl⟩ := eq_of_getElem? hs hw
      exact .idle parts w' (by rw [set, hs, List.set_cons_zero]) ht' hparts htaken hperformed
  | busy parts p t left hs hparts htaken hp hperformed =>
      obtain ⟨rfl, rfl⟩ := eq_of_getElem? hs hw
      cases ht

theorem Serial.idle_of_task (h : s.Serial R ops) (hw : s.workers[i]? = some w) (ht : w.task = none) :
    i = 0 ∧ s.workers = [w] ∧ s.taken = s.finished ∧
      ∃ parts, List.Forall₂ R parts (s.finished.map ops) ∧ s.performed = parts.flatten := by
  cases h with
  | idle parts w₀ hs _ hparts htaken hperformed =>
      obtain ⟨rfl, rfl⟩ := eq_of_getElem? hs hw
      exact ⟨rfl, hs, htaken, parts, hparts, hperformed⟩
  | busy parts p t left hs hparts htaken hp hperformed =>
      obtain ⟨rfl, rfl⟩ := eq_of_getElem? hs hw
      cases ht

theorem Serial.busy_of_task (h : s.Serial R ops) {t : β} {left : List α}
    (hw : s.workers[i]? = some (.busy t left)) :
    i = 0 ∧ s.workers = [.busy t left] ∧ s.taken = s.finished ++ [t] ∧
      ∃ parts p, List.Forall₂ R parts (s.finished.map ops) ∧ p ++ left = ops t ∧
        s.performed = parts.flatten ++ p := by
  cases h with
  | idle parts w₀ hs ht hparts htaken hperformed =>
      obtain ⟨rfl, rfl⟩ := eq_of_getElem? hs hw
      cases ht
  | busy parts p t left hs hparts htaken hp hperformed =>
      obtain ⟨rfl, he⟩ := eq_of_getElem? hs hw
      obtain ⟨rfl, rfl⟩ := Worker.busy.inj he
      exact ⟨rfl, hs, htaken, parts, p, hparts, hp, hperformed⟩

theorem Serial.step (h : s.Serial R ops) (hleft : s.LeftAt R ops mv) (hstep : s.step ops mv = some s') :
    s'.Serial R ops := by
  have hset : ∀ {r : Pool β α}, r.workers = s.workers → r.finished = s.finished → r.taken = s.taken →
      r.performed = s.performed → r.Serial R ops := fun {r} hw hf ht hp => by
    cases h with
    | idle parts w hs hn hparts htaken hperformed =>
        exact .idle parts w (hw.trans hs) hn (hf ▸ hparts) (by rw [ht, hf, htaken]) (hp.trans hperformed)
    | busy parts p t left hs hparts htaken hpl hperformed =>
        exact .busy parts p t left (hw.trans hs) (hf ▸ hparts) (by rw [ht, hf, htaken]) hpl (hp.trans hperformed)
  cases step_cases hstep with
  | add task hz => exact hset rfl rfl rfl rfl
  | addWake task hw => exact (hset (r := s.push task) rfl rfl rfl rfl).set_idle hw rfl rfl
  | stop =>
      cases h with
      | idle parts w hs hn hparts htaken hperformed =>
          refine .idle parts w.notify (by rw [hs]; rfl) ?_ hparts htaken hperformed
          cases w <;> first | rfl | cases hn
      | busy parts p t left hs hparts htaken hpl hperformed =>
          exact .busy parts p t left (by rw [hs]; rfl) hparts htaken hpl hperformed
  | spurious hw => exact h.set_idle hw rfl rfl
  | test hw => exact h.set_idle hw rfl (by split_ifs <;> rfl)
  | enterBreak hw ha hb => exact h.set_idle hw (by obtain rfl | rfl := ha <;> rfl) rfl
  | enterWait hw ha hb hq => exact h.set_idle hw (by obtain rfl | rfl := ha <;> rfl) rfl
  | @enterTake i w t q hw ha hb hq =>
      obtain ⟨rfl, hs, htaken, parts, hparts, hperformed⟩ :=
        h.idle_of_task hw (by obtain rfl | rfl := ha <;> rfl)
      refine .busy parts [] t (ops t) ?_ hparts ?_ rfl ?_
      · rw [set, hs, List.set_cons_zero]
      · rw [set, htaken]
      · rw [List.append_nil]
        exact hperformed
  | @perform i t a left hw =>
      obtain ⟨rfl, hs, htaken, parts, p, hparts, hp, hperformed⟩ := h.busy_of_task hw
      refine .busy parts (p ++ [a]) t left ?_ hparts htaken ?_ ?_
      · rw [set, hs, List.set_cons_zero]
      · rw [← hp, List.append_assoc, List.singleton_append]
      · rw [set, hperformed, List.append_assoc]
  | @leave i t left hw =>
      obtain ⟨rfl, hs, htaken, parts, p, hparts, hp, hperformed⟩ := h.busy_of_task hw
      refine .idle (parts ++ [p]) .testing ?_ rfl ?_ htaken ?_
      · rw [set, hs, List.set_cons_zero]
      · rw [set, List.map_append]
        exact List.rel_append hparts (.cons (hleft t left p hw hp) .nil)
      · rw [set, hperformed, List.flatten_append, List.flatten_singleton]

end Pool

end HelpzLib
