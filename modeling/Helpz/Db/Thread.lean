import Helpz.Db.Placeholders
import Helpz.Lib.Pool

/-!
# The database threads

`DB::Thread` (`db_thread.h`, `db_thread.cpp`): a queue of packaged tasks and the threads that execute them, each
on a connection of its own.

* `processQuery`: the statements of a pending query; `Task`: a packaged task, named by the future it was
  returned with;
* `Thread`, `step`: the calls of other threads and the steps of the threads in any order;
* `exactly_once`: what becomes of a task over every run; `executes_all`: no task is left waiting;
  `stop_ends`: what happens after `stop`; `in_order`: what a single thread executes.
-/

namespace HelpzDb

open HelpzLib

variable {V : Type}

/-- What a task does to the database. -/
inductive Operation (V : Type)
  | exec (sql : Text) (values : List V)
  | callback (values : List V)
  deriving DecidableEq

/-- `Thread::process_query`; `callback` tells whether the function object is not empty. -/
def processQuery (sql : Text) (valuesList : List (List V)) (callback : Bool) : List (Operation V) :=
  if valuesList = [] then .exec sql [] :: if callback then [.callback []] else []
  else valuesList.flatMap fun values => .exec sql values :: if callback then [.callback values] else []

/-- A packaged task, with the number of its future. -/
structure Task (V : Type) where
  future : ℕ
  operations : List (Operation V)
  deriving DecidableEq

/-- `Thread`. A future is ready when its task is finished. -/
abbrev Thread (V : Type) := Pool (Task V) (Operation V)

namespace Thread

/-- The constructors: the second one starts one thread. -/
def new (threadCount : ℕ) : Thread V := Pool.start threadCount

/-- The calls, and the steps of the threads. `wakes` is the thread that `notify_one` wakes up. -/
inductive Call (V : Type)
  | addQuery (operations : List (Operation V)) (wakes : Option ℕ)
  | addPendingQuery (sql : Text) (valuesList : List (List V)) (callback : Bool) (wakes : Option ℕ)
  | stop
  | thread (mv : Pool.Move (Task V))

/-- `add_task`. -/
def addTask (s : Thread V) (operations : List (Operation V)) (wakes : Option ℕ) : Option (Thread V) :=
  s.step Task.operations (.add ⟨s.added.length, operations⟩ wakes)

/-- One step. A pending query without a text is refused. -/
def step (s : Thread V) : Call V → Option (Thread V)
  | .addQuery operations wakes => s.addTask operations wakes
  | .addPendingQuery sql valuesList callback wakes =>
      if sql = [] then some s else s.addTask (processQuery sql valuesList callback) wakes
  | .stop => Pool.step Task.operations s .stop
  | .thread (.add _ _) | .thread .stop => none
  | .thread mv => Pool.step Task.operations s mv

def run (s : Thread V) (calls : List (Call V)) : Option (Thread V) := calls.foldlM step s

/-- The operations that a call asks for. -/
def Call.operations : Call V → List (Operation V)
  | .addQuery operations _ => operations
  | .addPendingQuery sql valuesList callback _ => if sql = [] then [] else processQuery sql valuesList callback
  | .stop | .thread _ => []

variable {s s' t : Thread V} {c : Call V} {n : ℕ}

theorem step_cases (h : s.step c = some s') :
    (s' = s ∧ c.operations = []) ∨ ∃ mv, Pool.step Task.operations s mv = some s' ∧
      ((∃ wakes, mv = .add ⟨s.added.length, c.operations⟩ wakes) ∨
        c.operations = [] ∧ (∀ task wakes, mv ≠ .add task wakes) ∧ (mv = .stop ∨ c = .thread mv)) := by
  cases c with
  | addQuery operations wakes => exact .inr ⟨_, h, .inl ⟨wakes, rfl⟩⟩
  | addPendingQuery sql valuesList callback wakes =>
      simp only [step] at h
      split_ifs at h with hsql
      · exact .inl ⟨(Option.some.inj h).symm, if_pos hsql⟩
      · refine .inr ⟨_, h, .inl ⟨wakes, ?_⟩⟩
        rw [Call.operations, if_neg hsql]
  | stop => exact .inr ⟨.stop, h, .inr ⟨rfl, fun _ _ he => (nomatch he), .inl rfl⟩⟩
  | thread mv =>
      have hmv : Pool.step Task.operations s mv = some s' ∧ ∀ task wakes, mv ≠ .add task wakes := by
        cases mv with
        | add task wakes => cases h
        | stop => cases h
        | _ => exact ⟨h, fun _ _ he => nomatch he⟩
      exact .inr ⟨mv, hmv.1, .inr ⟨rfl, hmv.2, .inr rfl⟩⟩

theorem sound_step (hs : s.Sound) (h : s.step c = some s') : s'.Sound := by
  obtain ⟨rfl, _⟩ | ⟨mv, hmv, _⟩ := step_cases h
  · exact hs
  · exact hs.step hmv

theorem sound_run {calls : List (Call V)} (h : (new n).run calls = some s) : s.Sound :=
  invariant_foldlM (fun _ _ _ hs h => sound_step hs h) (Pool.sound_start n) h

/-- The tasks are numbered in turn. -/
def Numbered (s : Thread V) : Prop := s.added.map Task.future = List.range s.added.length

theorem Numbered.step (hs : s.Numbered) (h : s.step c = some s') : s'.Numbered := by
  obtain ⟨rfl, _⟩ | ⟨mv, hmv, ⟨wakes, rfl⟩ | ⟨_, hno, _⟩⟩ := step_cases h
  · exact hs
  · rw [Numbered, (Pool.step_cases hmv).added_add, List.map_append, List.length_append, List.length_singleton,
      List.range_succ]
    exact congrArg (· ++ [s.added.length]) hs
  · rw [Numbered, (Pool.step_cases hmv).added_of_ne hno]
    exact hs

theorem numbered_run {calls : List (Call V)} (h : (new n).run calls = some s) : s.Numbered :=
  invariant_foldlM (fun _ _ _ hs h => hs.step h) (rfl : (new n : Thread V).Numbered) h

theorem operations_run {calls : List (Call V)} (h : s.run calls = some t) :
    t.added.flatMap Task.operations = s.added.flatMap Task.operations ++ calls.flatMap Call.operations := by
  induction calls generalizing s with
  | nil =>
      obtain rfl := Option.some.inj h
      exact (List.append_nil _).symm
  | cons c calls ih =>
      rw [run, List.foldlM_cons] at h
      obtain ⟨s', hs', hrest⟩ := Option.bind_eq_some_iff.mp h
      have hadd : s'.added.flatMap Task.operations = s.added.flatMap Task.operations ++ c.operations := by
        obtain ⟨rfl, hc⟩ | ⟨mv, hmv, ⟨wakes, rfl⟩ | ⟨hc, hno, _⟩⟩ := step_cases hs'
        · rw [hc, List.append_nil]
        · rw [(Pool.step_cases hmv).added_add, List.flatMap_append, List.flatMap_singleton]
        · rw [(Pool.step_cases hmv).added_of_ne hno, hc, List.append_nil]
      rw [ih hrest, hadd, List.flatMap_cons, List.append_assoc]

/-! ## Every task in one place -/

/-- **Tasks are started in the order they were added, and each is executed at most once**, over every run of any
number of threads: a task waits in the queue, is in the hands of one thread, or is finished. -/
theorem exactly_once (calls : List (Call V)) (h : (new n).run calls = some s) :
    s.taken ++ s.queue = s.added ∧ (s.finished ++ s.inHands ++ s.queue).Perm s.added ∧
      ((s.finished ++ s.inHands ++ s.queue).map Task.future).Nodup := by
  have hs := sound_run h
  have hperm : (s.finished ++ s.inHands ++ s.queue).Perm s.added := by
    rw [← hs.order]
    exact hs.hands.symm.append_right _
  refine ⟨hs.order, hperm, (hperm.map Task.future).nodup_iff.mpr ?_⟩
  rw [numbered_run h]
  exact List.nodup_range

/-- One of two threads takes the query, and the other one falls asleep. -/
theorem exactly_once_twoThreads :
    let calls : List (Call ℕ) := [.addPendingQuery ['q'] [[1], [2]] true none, .thread (.test 0), .thread (.enter 0),
      .thread (.test 1), .thread (.enter 1)]
    ∃ s : Thread ℕ, (new 2).run calls = some s ∧ s.inHands.map Task.future = [0] ∧
      (s.finished ++ s.inHands ++ s.queue).Perm s.added := by
  intro calls
  exact ⟨_, rfl, rfl, (exactly_once (n := 2) calls rfl).2.1⟩

/-! ## The threads left to themselves -/

theorem thread_own {mv : Pool.Move (Task V)} (hown : mv.Own) :
    s.step (.thread mv) = Pool.step Task.operations s mv := by
  cases mv with
  | add task wakes => cases hown
  | stop => cases hown
  | _ => rfl

theorem run_thread {moves : List (Pool.Move (Task V))} (hown : ∀ mv ∈ moves, mv.Own) :
    s.run (moves.map .thread) = Pool.run Task.operations s moves := by
  induction moves generalizing s with
  | nil => rfl
  | cons mv moves ih =>
      have hstep := thread_own (s := s) (hown mv List.mem_cons_self)
      rw [run, List.map_cons, List.foldlM_cons, hstep, Pool.run, List.foldlM_cons]
      exact congrArg _ (funext fun s' => ih fun mv' h' => hown mv' (List.mem_cons_of_mem _ h'))

/-- No thread can make a step. -/
def AtRest (s : Thread V) : Prop := ∀ mv : Pool.Move (Task V), mv.Own → s.step (.thread mv) = none

theorem AtRest.quiescent (h : s.AtRest) : Pool.Quiescent Task.operations s := fun mv hown =>
  (thread_own hown).symm.trans (h mv hown)

theorem length_workers_run {calls : List (Call V)} (h : (new n).run calls = some s) : s.workers.length = n := by
  refine invariant_foldlM (I := fun r : Thread V => r.workers.length = n) (fun r c r' hr hstep => ?_)
    List.length_replicate h
  obtain ⟨rfl, _⟩ | ⟨mv, hmv, _⟩ := step_cases hstep
  · exact hr
  · exact (Pool.step_cases hmv).length_workers.trans hr

/-- **No task is left waiting.** Before `stop`, threads that are left to themselves come to rest after a bounded
number of steps, and then every task that was added is finished. -/
theorem executes_all (hn : 0 < n) (calls : List (Call V)) (h : (new n).run calls = some s)
    (hb : s.breakFlag = false) :
    (∀ (moves : List (Pool.Move (Task V))) (t : Thread V), (∀ mv ∈ moves, mv.Own) →
      s.run (moves.map .thread) = some t → moves.length ≤ s.measure Task.operations ∧
        (t.AtRest → t.queue = [] ∧ s.added.Perm t.finished)) ∧
    ∃ (moves : List (Pool.Move (Task V))) (t : Thread V), (∀ mv ∈ moves, mv.Own) ∧
      s.run (moves.map .thread) = some t ∧ t.AtRest := by
  refine ⟨fun moves t hown hr => ?_, ?_⟩
  · rw [run_thread hown] at hr
    refine ⟨le_trans (Nat.le_add_right _ _) (Pool.length_add_measure_le hown hr), fun hrest => ?_⟩
    obtain ⟨hadded, hflag, hlength⟩ := Pool.own_run hown hr
    have hne : t.workers ≠ [] := by
      rw [← List.length_pos_iff, hlength, length_workers_run h]
      exact hn
    rw [← hadded]
    exact ((sound_run h).run hr).idle hrest.quiescent (hflag.trans hb) hne
  · obtain ⟨moves, t, hown, hr, hq⟩ := Pool.exists_quiescent Task.operations s
    exact ⟨moves, t, hown, (run_thread hown).trans hr, fun mv hmv => (thread_own hmv).trans (hq mv hmv)⟩

/-- A thread that was asleep is woken up for the query. -/
theorem executes_all_woken :
    let calls : List (Call ℕ) := [.thread (.test 0), .thread (.enter 0), .addPendingQuery ['q'] [] false (some 0)]
    let moves : List (Pool.Move (Task ℕ)) := [.enter 0, .perform 0, .leave 0, .test 0, .enter 0]
    ∃ s t : Thread ℕ, (new 1).run calls = some s ∧ s.run (moves.map .thread) = some t ∧
      5 ≤ s.measure Task.operations ∧ (t.AtRest → t.queue = [] ∧ s.added.Perm t.finished) := by
  intro calls moves
  have hown : ∀ mv ∈ moves, mv.Own := by simp [moves, Pool.Move.Own]
  exact ⟨_, _, rfl, rfl, (executes_all (n := 1) Nat.one_pos calls rfl rfl).1 moves _ hown rfl⟩

theorem taken_run {calls : List (Call V)} (hb : s.breakFlag = true) (hr : s.run calls = some t) :
    t.breakFlag = true ∧ t.taken = s.taken := by
  refine invariant_foldlM (I := fun r : Thread V => r.breakFlag = true ∧ r.taken = s.taken)
    (fun r c r' hI hstep => ?_) ⟨hb, rfl⟩ hr
  obtain ⟨rfl, _⟩ | ⟨mv, hmv, _⟩ := step_cases hstep
  · exact hI
  · obtain ⟨hflag, htaken⟩ := (Pool.step_cases hmv).taken_eq hI.1
    exact ⟨hflag, htaken.trans hI.2⟩

/-- **After `stop`** no task is started, whatever is called; and threads that are left to themselves all end after a
bounded number of steps, with every started task finished. What is still in the queue is never executed. -/
theorem stop_ends (calls : List (Call V)) (h : (new n).run calls = some s) (hb : s.breakFlag = true) :
    (∀ (calls' : List (Call V)) (t : Thread V), s.run calls' = some t → t.taken = s.taken) ∧
    (∀ (moves : List (Pool.Move (Task V))) (t : Thread V), (∀ mv ∈ moves, mv.Own) →
      s.run (moves.map .thread) = some t → moves.length ≤ s.measure Task.operations ∧
        (t.AtRest → (∀ w ∈ t.workers, w = .ended) ∧ s.taken.Perm t.finished ∧ t.queue = s.queue)) := by
  refine ⟨fun calls' t hr => (taken_run hb hr).2, fun moves t hown hr => ?_⟩
  have htaken := (taken_run hb hr).2
  rw [run_thread hown] at hr
  refine ⟨le_trans (Nat.le_add_right _ _) (Pool.length_add_measure_le hown hr), fun hrest => ?_⟩
  obtain ⟨hadded, hflag, _⟩ := Pool.own_run hown hr
  have ht : t.Sound := (sound_run h).run hr
  have hhands := ht.hands
  rw [hrest.quiescent.inHands_eq_nil, List.append_nil, htaken] at hhands
  refine ⟨fun w hw => ht.ended_of_quiescent hrest.quiescent (hflag.trans hb) hw, hhands, ?_⟩
  have horder := ht.order
  rw [htaken, hadded, ← (sound_run h).order] at horder
  exact List.append_cancel_left horder

/-- The query that is added after `stop` stays in the queue. -/
theorem stop_ends_pending :
    let calls : List (Call ℕ) := [.thread (.test 0), .stop, .addPendingQuery ['q'] [] false none]
    ∃ s t : Thread ℕ, (new 1).run calls = some s ∧ s.run [.thread (.enter 0)] = some t ∧ t.taken = s.taken := by
  intro calls
  exact ⟨_, _, rfl, rfl, (stop_ends (n := 1) calls rfl rfl).1 [.thread (.enter 0)] _ rfl⟩

/-! ## A single thread -/

/-- The tasks that are finished return: none of them ends in an exception. -/
def Returns (s : Thread V) : Call V → Prop
  | .thread (.leave i) => ∀ t left, s.workers[i]? = some (.busy t left) → left = []
  | _ => True

/-- The operations of the task in hand that were not performed yet. -/
def left (s : Thread V) : List (Operation V) :=
  s.workers.flatMap fun w => match w with
    | .busy _ left => left
    | _ => []

theorem serial_step {R : List (Operation V) → List (Operation V) → Prop} (hs : s.Serial R Task.operations)
    (hleft : ∀ mv, c = .thread mv → s.LeftAt R Task.operations mv) (h : s.step c = some s') :
    s'.Serial R Task.operations := by
  obtain ⟨rfl, _⟩ | ⟨mv, hmv, ⟨wakes, rfl⟩ | ⟨_, _, rfl | hc⟩⟩ := step_cases h
  · exact hs
  · have hany : s.LeftAt R Task.operations (.add ⟨s.added.length, c.operations⟩ wakes) := trivial
    exact hs.step hany hmv
  · have hany : s.LeftAt R Task.operations .stop := trivial
    exact hs.step hany hmv
  · exact hs.step (hleft mv hc) hmv

theorem performed_append_left (h : s.Serial Eq Task.operations) :
    s.performed ++ s.left = s.taken.flatMap Task.operations := by
  cases h with
  | idle parts w hs ht hparts htaken hperformed =>
      have hnil : s.left = [] := by
        rw [left, hs]
        cases w <;> first | rfl | cases ht
      rw [List.forall₂_eq_eq_eq] at hparts
      rw [hnil, List.append_nil, hperformed, hparts, htaken, List.flatMap_def]
  | busy parts p t left' hs hparts htaken hp hperformed =>
      have hleft : s.left = left' := by
        rw [left, hs]
        exact List.append_nil left'
      rw [List.forall₂_eq_eq_eq] at hparts
      rw [hleft, hperformed, hparts, htaken, List.flatMap_append, List.flatMap_singleton, List.append_assoc, hp,
        List.flatMap_def]

theorem exists_parts (h : s.Serial (· <+: ·) Task.operations) :
    ∃ parts, List.Forall₂ (· <+: ·) parts (s.taken.map Task.operations) ∧ s.performed = parts.flatten := by
  cases h with
  | idle parts w hs ht hparts htaken hperformed => exact ⟨parts, htaken ▸ hparts, hperformed⟩
  | busy parts p t left hs hparts htaken hp hperformed =>
      refine ⟨parts ++ [p], ?_, ?_⟩
      · rw [htaken, List.map_append]
        exact List.rel_append hparts (.cons ⟨left, hp⟩ .nil)
      · rw [hperformed, List.flatten_append, List.flatten_singleton]

/-- **A single thread executes the queries in the order they were added**, and does not mix them: what it has
performed is an initial part of each started task in turn. As long as no task ends in an exception, it is, with what
is left of the task in hand and what is in the queue, what the calls asked for. -/
theorem in_order (calls : List (Call V)) (h : (new 1).run calls = some s) :
    (∃ parts, List.Forall₂ (· <+: ·) parts (s.taken.map Task.operations) ∧ s.performed = parts.flatten) ∧
      (Along step Returns (new 1) calls →
        s.performed ++ s.left ++ s.queue.flatMap Task.operations = calls.flatMap Call.operations) := by
  have hprefix : ∀ {r : Thread V} {mv : Pool.Move (Task V)}, r.LeftAt (· <+: ·) Task.operations mv := fun {r mv} => by
    cases mv with
    | leave i => exact fun t left p _ hp => ⟨left, hp⟩
    | _ => exact trivial
  refine ⟨exists_parts ?_, fun hreturns => ?_⟩
  · exact invariant_foldlM (fun r c r' hr hstep => serial_step hr (fun mv _ => hprefix) hstep) Pool.serial_start h
  · have hserial : s.Serial Eq Task.operations := by
      refine hreturns.invariant (fun r c r' hr hC hstep => serial_step hr (fun mv hc => ?_) hstep) Pool.serial_start h
      subst hc
      cases mv with
      | leave i =>
          intro t left p hw hp
          rw [← hp, hC t left hw, List.append_nil]
      | _ => exact trivial
    have hcalls := operations_run h
    rw [performed_append_left hserial, ← List.flatMap_append, (sound_run h).order, hcalls]
    rfl

/-- The second row of the first query is not inserted yet, and the second query waits. -/
theorem in_order_twoRows :
    let calls : List (Call ℕ) := [.addPendingQuery ['q'] [[1], [2]] false none, .addPendingQuery ['r'] [] false none,
      .thread (.test 0), .thread (.enter 0), .thread (.perform 0)]
    ∃ s : Thread ℕ, (new 1).run calls = some s ∧ s.performed ++ s.left ++ s.queue.flatMap Task.operations =
      [.exec ['q'] [1], .exec ['q'] [2], .exec ['r'] []] := by
  intro calls
  refine ⟨_, rfl, (in_order calls rfl).2 ?_⟩
  exact ⟨trivial, fun _ _ => ⟨trivial, fun _ _ => ⟨trivial, fun _ _ => ⟨trivial, fun _ _ =>
    ⟨trivial, fun _ _ => trivial⟩⟩⟩⟩⟩

end Thread

end HelpzDb
