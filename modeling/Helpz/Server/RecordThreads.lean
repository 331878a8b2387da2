import Helpz.Lib.Pool
import Helpz.Server.Records

/-!
# The record threads and their condition variable

`records_thread_run` as it waits on `records_cond_`, with the test of the flag outside of the mutex, spurious wake-ups,
and the destructor of `Server_Controller`. The steps on one record are those of `Controller`.

* `RecordThreads`, `step`: the pool of threads, the `record_mutex_`es and the protocols;
* `AtRest`, `comes_to_rest`: the threads do not get stuck on each other or on the queue;
* `Shows`, `refines`: what the threads do is what a run of `Controller` does, which pops without waiting.
-/

namespace HelpzServer

open HelpzLib

/-- What a thread does with the record it has popped. -/
inductive RecordStep (ν : Type)
  | protocol (r : Record ν)
  | lock (r : Record ν)
  | processBytes (r : Record ν)
  deriving DecidableEq

def Record.steps {ν : Type} (r : Record ν) : List (RecordStep ν) := [.protocol r, .lock r, .processBytes r]

/-- The record threads, the `record_mutex_`es that `on_protocol_timeout` holds, and the nodes that have a protocol. -/
structure RecordThreads (ν : Type) where
  pool : Pool (Record ν) (RecordStep ν)
  timerLock : ν → Bool
  hasProtocol : ν → Bool

namespace RecordThreads

/-- What threads and other callers do. -/
inductive Call (ν : Type)
  | addReceivedRecord (r : Record ν) (wakes : Option ℕ)
  | thread (mv : Pool.Move (Record ν))
  | timerLock (n : ν)
  | timerUnlock (n : ν)
  | setProtocol (n : ν)
  | close (n : ν)
  | shutdown

variable {ν : Type} [DecidableEq ν]

def start (threadCount : ℕ) : RecordThreads ν := ⟨Pool.start threadCount, fun _ => false, fun _ => false⟩

/-- The thread holds the `record_mutex_` of the node. -/
def holdsLock (n : ν) : Worker (Record ν) (RecordStep ν) → Bool
  | .busy r [.processBytes _] => decide (r.node = n)
  | _ => false

/-- The `record_mutex_` of the node is held. -/
def isLocked (s : RecordThreads ν) (n : ν) : Bool := s.timerLock n || s.pool.workers.any (holdsLock n)

/-- The thread can go on: it has found the protocol, or the lock it asks for is free. It is done with a record when
there is no protocol, or the bytes were processed. -/
def ready (s : RecordThreads ν) : Pool.Move (Record ν) → Bool
  | .perform i =>
      match s.pool.workers[i]? with
      | some (.busy r (.protocol _ :: _)) => s.hasProtocol r.node
      | some (.busy r (.lock _ :: _)) => !s.isLocked r.node
      | _ => true
  | .leave i =>
      match s.pool.workers[i]? with
      | some (.busy r (.protocol _ :: _)) => !s.hasProtocol r.node
      | some (.busy _ (_ :: _)) => false
      | _ => true
  | .add _ _ | .stop => false
  | _ => true

def poolStep (s : RecordThreads ν) (mv : Pool.Move (Record ν)) : Option (RecordThreads ν) :=
  (s.pool.step Record.steps mv).map fun pool => { s with pool := pool }

/-- `add_received_record`, `records_thread_run` step by step, `on_protocol_timeout`, and the destructor. -/
def step (s : RecordThreads ν) : Call ν → Option (RecordThreads ν)
  | .addReceivedRecord r wakes => s.poolStep (.add r wakes)
  | .thread mv => if s.ready mv then s.poolStep mv else none
  | .timerLock n => if s.isLocked n then none else some { s with timerLock := Function.update s.timerLock n true }
  | .timerUnlock n => some { s with timerLock := Function.update s.timerLock n false }
  | .setProtocol n => some { s with hasProtocol := Function.update s.hasProtocol n true }
  | .close n => some { s with hasProtocol := Function.update s.hasProtocol n false }
  | .shutdown => s.poolStep .stop

def run (s : RecordThreads ν) (calls : List (Call ν)) : Option (RecordThreads ν) := calls.foldlM step s

variable {s s' t : RecordThreads ν} {c : Call ν} {n : ℕ} {mv : Pool.Move (Record ν)}

theorem step_cases (h : s.step c = some s') :
    (s'.pool = s.pool ∧ ∀ mv, c ≠ .thread mv) ∨ ∃ mv, s.pool.step Record.steps mv = some s'.pool ∧
      s' = { s with pool := s'.pool } := by
  have hpool : ∀ {mv : Pool.Move (Record ν)}, s.poolStep mv = some s' →
      s.pool.step Record.steps mv = some s'.pool ∧ s' = { s with pool := s'.pool } := by
    intro mv hmv
    obtain ⟨pool, hstep, rfl⟩ := Option.map_eq_some_iff.mp hmv
    exact ⟨hstep, rfl⟩
  cases c with
  | addReceivedRecord r wakes => exact .inr ⟨_, hpool h⟩
  | thread mv =>
      simp only [step] at h
      split_ifs at h
      exact .inr ⟨mv, hpool h⟩
  | shutdown => exact .inr ⟨_, hpool h⟩
  | timerLock n =>
      simp only [step] at h
      split_ifs at h
      exact .inl ⟨Option.some.inj h ▸ rfl, fun _ he => nomatch he⟩
  | timerUnlock n => exact .inl ⟨Option.some.inj h ▸ rfl, fun _ he => nomatch he⟩
  | setProtocol n => exact .inl ⟨Option.some.inj h ▸ rfl, fun _ he => nomatch he⟩
  | close n => exact .inl ⟨Option.some.inj h ▸ rfl, fun _ he => nomatch he⟩

/-- What every run keeps. -/
structure Regular (n : ℕ) (s : RecordThreads ν) : Prop where
  sound : s.pool.Sound
  trimmed : s.pool.Trimmed Record.steps
  threads : s.pool.workers.length = n

theorem Regular.step (hs : s.Regular n) (h : s.step c = some s') : s'.Regular n := by
  rcases step_cases h with ⟨he, _⟩ | ⟨mv, hmv, _⟩
  · exact ⟨he ▸ hs.sound, he ▸ hs.trimmed, he ▸ hs.threads⟩
  · have hstep := Pool.step_cases hmv
    exact ⟨hs.sound.step hmv, hstep.trimmed hs.trimmed, hstep.length_workers.trans hs.threads⟩

theorem regular_run (calls : List (Call ν)) (h : (start n).run calls = some s) : s.Regular n :=
  invariant_foldlM (fun _ _ _ hs h => hs.step h)
    ⟨Pool.sound_start n, Pool.trimmed_start n, List.length_replicate⟩ h

/-! ## The threads left to themselves -/

/-- No thread can make a step. -/
def AtRest (s : RecordThreads ν) : Prop := ∀ mv : Pool.Move (Record ν), mv.Own → s.step (.thread mv) = none

omit [DecidableEq ν] in
theorem poolStep_eq_none : s.poolStep mv = none ↔ s.pool.step Record.steps mv = none := Option.map_eq_none_iff

omit [DecidableEq ν] in
theorem suffix_steps {r : Record ν} {left : List (RecordStep ν)} (h : left <:+ r.steps) :
    left = r.steps ∨ left = [.lock r, .processBytes r] ∨ left = [.processBytes r] ∨ left = [] := by
  obtain ⟨l, hl⟩ := h
  unfold Record.steps at hl ⊢
  match l, hl with
  | [], hl => exact .inl hl
  | [_], hl => exact .inr (.inl (List.cons.inj hl).2)
  | [_, _], hl => exact .inr (.inr (.inl (List.cons.inj (List.cons.inj hl).2).2))
  | [_, _, _], hl => exact .inr (.inr (.inr (List.cons.inj (List.cons.inj (List.cons.inj hl).2).2).2))
  | _ :: _ :: _ :: _ :: _, hl => simp at hl

/-- **Threads that rest are not in the middle of a record**, unless a timer holds a `record_mutex_`. -/
theorem AtRest.not_busy {k i : ℕ} (h : s.AtRest) (hs : s.Regular k) (htimer : ∀ n, s.timerLock n = false)
    {r : Record ν} {left : List (RecordStep ν)} : s.pool.workers[i]? ≠ some (.busy r left) := by
  -- a thread that holds a lock can process its record
  have hlast : ∀ {j : ℕ} {r : Record ν}, s.pool.workers[j]? ≠ some (.busy r [.processBytes r]) := by
    intro j r hj
    have hno := h (.perform j) trivial
    simp [step, ready, poolStep, Pool.step, hj] at hno
  intro hi
  rcases suffix_steps (hs.trimmed _ (List.mem_of_getElem? hi) r left rfl) with rfl | rfl | rfl | rfl
  · cases hp : s.hasProtocol r.node with
    | true =>
        have hno := h (.perform i) trivial
        simp [step, ready, poolStep, Pool.step, Record.steps, hi, hp] at hno
    | false =>
        have hno := h (.leave i) trivial
        simp [step, ready, poolStep, Pool.step, Record.steps, hi, hp] at hno
  · cases hl : s.isLocked r.node with
    | true =>
        rw [isLocked, htimer, Bool.false_or, List.any_eq_true] at hl
        obtain ⟨w, hw, hlock⟩ := hl
        obtain ⟨j, hj⟩ := List.getElem?_of_mem hw
        unfold holdsLock at hlock
        split at hlock
        next r' r'' =>
          rcases suffix_steps (hs.trimmed _ hw r' _ rfl) with he | he | he | he
          · cases he
          · cases he
          · rw [he] at hj
            exact hlast hj
          · cases he
        next => cases hlock
    | false =>
        have hno := h (.perform i) trivial
        simp [step, ready, poolStep, Pool.step, hi, hl] at hno
  · exact hlast hi
  · have hno := h (.leave i) trivial
    simp [step, ready, poolStep, Pool.step, hi] at hno

theorem AtRest.quiescent {k : ℕ} (h : s.AtRest) (hs : s.Regular k) (htimer : ∀ n, s.timerLock n = false) :
    s.pool.Quiescent Record.steps := by
  intro mv hown
  have hno := h mv hown
  cases mv with
  | add r wakes => cases hown
  | stop => cases hown
  | spurious i => cases hown
  | test i => exact poolStep_eq_none.mp hno
  | enter i => exact poolStep_eq_none.mp hno
  | perform i =>
      simp only [Pool.step]
      split
      next hi => exact absurd hi (h.not_busy hs htimer)
      · rfl
  | leave i =>
      simp only [Pool.step]
      split
      next hi => exact absurd hi (h.not_busy hs htimer)
      · rfl

/-- What the threads do by themselves is what the workers of the pool do. -/
theorem run_thread {moves : List (Pool.Move (Record ν))} (h : s.run (moves.map .thread) = some t) :
    Pool.run Record.steps s.pool moves = some t.pool ∧ t.timerLock = s.timerLock := by
  induction moves generalizing s with
  | nil =>
      obtain rfl := Option.some.inj h
      exact ⟨rfl, rfl⟩
  | cons mv moves ih =>
      rw [run, List.map_cons, List.foldlM_cons] at h
      obtain ⟨s', hs', hrest⟩ := Option.bind_eq_some_iff.mp h
      obtain ⟨hrun, htimer⟩ := ih hrest
      simp only [step] at hs'
      split_ifs at hs'
      obtain ⟨pool, hstep, rfl⟩ := Option.map_eq_some_iff.mp hs'
      refine ⟨?_, htimer⟩
      rw [Pool.run, List.foldlM_cons, hstep]
      exact hrun

theorem exists_atRest (s : RecordThreads ν) :
    ∃ (moves : List (Pool.Move (Record ν))) (t : RecordThreads ν), (∀ mv ∈ moves, mv.Own) ∧
      s.run (moves.map .thread) = some t ∧ t.AtRest := by
  by_cases hq : s.AtRest
  · exact ⟨[], s, fun _ h => (nomatch h), rfl, hq⟩
  · obtain ⟨mv, hmv⟩ := not_forall.mp hq
    obtain ⟨hown, hne⟩ := Classical.not_imp.mp hmv
    obtain ⟨s', hs'⟩ := Option.ne_none_iff_exists'.mp hne
    have hrun : s.run ([mv].map .thread) = some s' := by
      rw [run, List.map_singleton, List.foldlM_cons, hs']
      rfl
    have hlt := Pool.length_add_measure_le (fun x hx => List.mem_singleton.mp hx ▸ hown) (run_thread hrun).1
    rw [List.length_singleton] at hlt
    have hless : s'.pool.measure Record.steps < s.pool.measure Record.steps := by omega
    obtain ⟨moves, t, hmoves, hr, ht⟩ := exists_atRest s'
    refine ⟨mv :: moves, t, List.forall_mem_cons.mpr ⟨hown, hmoves⟩, ?_, ht⟩
    rw [run, List.map_cons, List.foldlM_cons, hs']
    exact hr
termination_by s.pool.measure Record.steps

/-- **The record threads do not get stuck**, on each other or on the queue. Left to themselves they come to rest after a
bounded number of steps; when they rest and no timer holds a `record_mutex_`, every record that was received is done
with, or, once the controller is shut down, all threads have ended and no record is in their hands. -/
theorem comes_to_rest {k : ℕ} (hk : 0 < k) (calls : List (Call ν)) (h : (start k).run calls = some s) :
    (∀ (moves : List (Pool.Move (Record ν))) (t : RecordThreads ν), (∀ mv ∈ moves, mv.Own) →
      s.run (moves.map .thread) = some t → moves.length ≤ s.pool.measure Record.steps ∧
        (t.AtRest → (∀ n, s.timerLock n = false) →
          (s.pool.breakFlag = false → t.pool.queue = [] ∧ s.pool.added.Perm t.pool.finished) ∧
          (s.pool.breakFlag = true → (∀ w ∈ t.pool.workers, w = .ended) ∧ s.pool.taken.Perm t.pool.finished))) ∧
    ∃ (moves : List (Pool.Move (Record ν))) (t : RecordThreads ν), (∀ mv ∈ moves, mv.Own) ∧
      s.run (moves.map .thread) = some t ∧ t.AtRest := by
  refine ⟨fun moves t hown hr => ?_, exists_atRest s⟩
  obtain ⟨hrun, htimers⟩ := run_thread hr
  refine ⟨le_trans (Nat.le_add_right _ _) (Pool.length_add_measure_le hown hrun), fun hrest htimer => ?_⟩
  have hs := regular_run calls h
  obtain ⟨hadded, hflag, hlength⟩ := Pool.own_run hown hrun
  have hthreads : t.pool.workers.length = k := hlength.trans hs.threads
  have hsound := hs.sound.run hrun
  have ht : t.Regular k := invariant_foldlM (fun _ _ _ hs h => hs.step h) hs hr
  have hq := hrest.quiescent ht fun n => (congrFun htimers n).trans (htimer n)
  refine ⟨fun hb => ?_, fun hb => ⟨fun w hw => hsound.ended_of_quiescent hq (hflag.trans hb) hw, ?_⟩⟩
  · rw [← hadded]
    refine hsound.idle hq (hflag.trans hb) ?_
    rw [← List.length_pos_iff, hthreads]
    exact hk
  · have hhands := hsound.hands
    rwa [hq.inHands_eq_nil, List.append_nil, (Pool.taken_run hb hrun).2] at hhands

/-- Two records of one node, and one thread that has popped the first. -/
theorem comes_to_rest_sameNode :
    let calls : List (Call ℕ) := [.setProtocol 7, .addReceivedRecord ⟨7, [1]⟩ none, .addReceivedRecord ⟨7, [2]⟩ none,
      .thread (.test 0), .thread (.enter 0)]
    ∃ s : RecordThreads ℕ, (start 2).run calls = some s ∧ s.pool.queue = [⟨7, [2]⟩] ∧
      ∃ (moves : List (Pool.Move (Record ℕ))) (t : RecordThreads ℕ), (∀ mv ∈ moves, mv.Own) ∧
        s.run (moves.map .thread) = some t ∧ t.AtRest := by
  intro calls
  exact ⟨_, rfl, rfl, (comes_to_rest (k := 2) (by decide) calls rfl).2⟩

end RecordThreads

/-! ## The controller without its condition variable -/

namespace Controller

variable {ν : Type} [DecidableEq ν] {c : Controller ℕ ν}

omit [DecidableEq ν] in
theorem hand_advance (c : Controller ℕ ν) (t j : ℕ) (stage : Stage) :
    (c.advance t stage).hand j = if j = t then (c.hand t).map fun h => { h with stage := stage } else c.hand j := by
  have hp : ((fun h : Hand ℕ ν => decide (h.thread = j)) ∘
      fun h : Hand ℕ ν => if h.thread = t then { h with stage := stage } else h) = fun h => decide (h.thread = j) := by
    funext h
    rw [Function.comp_apply]
    split_ifs <;> rfl
  rw [hand, advance, List.find?_map, hp]
  split_ifs with hj
  · subst hj
    refine Option.map_congr fun h hh => ?_
    rw [if_pos (hand_eq_some hh).2]
  · cases hh : c.hands.find? fun h => decide (h.thread = j) with
    | none => exact hh.symm
    | some h =>
        have hne : h.thread ≠ t := fun he => hj ((hand_eq_some hh).2.symm.trans he)
        rw [Option.map_some, if_neg hne]
        exact hh.symm

omit [DecidableEq ν] in
theorem hand_release {t : ℕ} {h : Hand ℕ ν} (hnd : (c.hands.map Hand.thread).Nodup) (hh : c.hand t = some h) (j : ℕ) :
    (c.release t).hand j = if j = t then none else c.hand j := by
  obtain ⟨as, bs, he, hr, hne⟩ := hands_release hh
  have ht := (hand_eq_some hh).2
  rw [hand, hand, hr, he, List.find?_append, List.find?_append]
  split_ifs with hj
  · subst hj
    rw [he, List.map_append, List.map_cons] at hnd
    have hbs : ∀ x ∈ bs, x.thread ≠ j := by
      intro x hx hxj
      have hnotin := (List.nodup_cons.mp (List.nodup_append.mp hnd).2.1).1
      exact hnotin (List.mem_map.mpr ⟨x, hx, hxj.trans ht.symm⟩)
    rw [List.find?_eq_none.mpr fun x hx => by simpa using hne x hx,
      List.find?_eq_none.mpr fun x hx => by simpa using hbs x hx]
    rfl
  · have hhj : ¬ decide (h.thread = j) = true := by
      rw [decide_eq_true_eq, ht]
      exact fun he => hj he.symm
    rw [List.find?_cons_of_neg (p := fun x : Hand ℕ ν => decide (x.thread = j)) hhj]

omit [DecidableEq ν] in
theorem hand_push {t : ℕ} (hn : c.hand t = none) (r : Record ν) (j : ℕ) :
    Controller.hand { c with hands := c.hands ++ [⟨t, r, .popped⟩] } j =
      if j = t then some ⟨t, r, .popped⟩ else c.hand j := by
  rw [hand, List.find?_append]
  change (c.hand j).or _ = _
  split_ifs with hj
  · subst hj
    rw [hn, Option.none_or]
    exact List.find?_cons_of_pos (decide_eq_true rfl)
  · rw [List.find?_cons_of_neg (by rw [decide_eq_true_eq]; exact fun he => hj he.symm), List.find?_nil, Option.or_none]

omit [DecidableEq ν] in
theorem nodup_release {t : ℕ} (hnd : (c.hands.map Hand.thread).Nodup) : ((c.release t).hands.map Hand.thread).Nodup :=
  hnd.sublist (List.eraseP_sublist.map _)

end Controller

namespace RecordThreads

variable {ν : Type} [DecidableEq ν] {s s' : RecordThreads ν} {c : Controller ℕ ν}

/-- The record in the hands of thread `i`, and how far the thread is with it. -/
def handOf (i : ℕ) : Worker (Record ν) (RecordStep ν) → Option (Hand ℕ ν)
  | .busy r (.protocol _ :: _) => some ⟨i, r, .popped⟩
  | .busy r (.lock _ :: _) => some ⟨i, r, .found⟩
  | .busy r (.processBytes _ :: _) => some ⟨i, r, .locked⟩
  | _ => none

def processed : RecordStep ν → Option (Record ν)
  | .processBytes r => some r
  | _ => none

/-- The controller has the records where the threads have them. -/
structure Shows (s : RecordThreads ν) (c : Controller ℕ ν) : Prop where
  queue : c.recordsQueue = s.pool.queue
  flag : c.recordsThreadBreakFlag = s.pool.breakFlag
  timers : c.timerLock = s.timerLock
  protocols : c.hasProtocol = s.hasProtocol
  added : c.added = s.pool.added
  processed : c.processed = s.pool.performed.filterMap processed
  hands : ∀ i, c.hand i = s.pool.workers[i]?.bind (handOf i)
  threads : (c.hands.map Hand.thread).Nodup

omit [DecidableEq ν] in
theorem hands_set {l : List (Worker (Record ν) (RecordStep ν))} {i : ℕ} {w : Worker (Record ν) (RecordStep ν)}
    (hw : l[i]? = some w) (w' : Worker (Record ν) (RecordStep ν)) (j : ℕ) :
    (l.set i w')[j]?.bind (handOf j) = if j = i then handOf i w' else l[j]?.bind (handOf j) := by
  obtain ⟨hlt, _⟩ := List.getElem?_eq_some_iff.mp hw
  rw [List.getElem?_set]
  split_ifs with h1 h2 h2
  · subst h1
    rfl
  · exact absurd h1.symm h2
  · exact absurd h2.symm h1
  · rfl

theorem Shows.isLocked (h : s.Shows c) (ht : s.pool.Trimmed Record.steps) (n : ν) : c.isLocked n = s.isLocked n := by
  have hiff : (c.hands.any fun x => decide (x.stage = .locked ∧ x.record.node = n)) = true ↔
      s.pool.workers.any (holdsLock n) = true := by
    rw [List.any_eq_true, List.any_eq_true]
    constructor
    · rintro ⟨x, hx, hlocked⟩
      obtain ⟨hstage, hnode⟩ := of_decide_eq_true hlocked
      have hhand := Controller.hand_of_mem h.threads hx rfl
      rw [h.hands] at hhand
      obtain ⟨w, hw, hof⟩ := Option.bind_eq_some_iff.mp hhand
      refine ⟨w, List.mem_of_getElem? hw, ?_⟩
      unfold handOf at hof
      split at hof
      next => rw [← Option.some.inj hof] at hstage; cases hstage
      next => rw [← Option.some.inj hof] at hstage; cases hstage
      next r r' left =>
        rw [← Option.some.inj hof] at hnode
        rcases suffix_steps (ht _ (List.mem_of_getElem? hw) r _ rfl) with he | he | he | he
        · cases he
        · cases he
        · rw [he]
          exact decide_eq_true hnode
        · cases he
      next => cases hof
    · rintro ⟨w, hw, hlock⟩
      obtain ⟨i, hi⟩ := List.getElem?_of_mem hw
      unfold holdsLock at hlock
      split at hlock
      next r r' =>
        have hhand := h.hands i
        rw [hi] at hhand
        refine ⟨_, (Controller.hand_eq_some hhand).1, ?_⟩
        exact decide_eq_true ⟨rfl, of_decide_eq_true hlock⟩
      next => cases hlock
  rw [Controller.isLocked, RecordThreads.isLocked, h.timers, Bool.eq_iff_iff.mpr hiff]

variable {p : Pool (Record ν) (RecordStep ν)} {i : ℕ} {w w' : Worker (Record ν) (RecordStep ν)}

omit [DecidableEq ν] in
theorem Shows.same (h : s.Shows c) (hw : s.pool.workers[i]? = some w) (hp : p.workers = s.pool.workers.set i w')
    (hof : handOf i w' = handOf i w) (hq : p.queue = s.pool.queue) (hb : p.breakFlag = s.pool.breakFlag)
    (ha : p.added = s.pool.added) (hd : p.performed.filterMap RecordThreads.processed =
      s.pool.performed.filterMap RecordThreads.processed) : Shows { s with pool := p } c := by
  refine ⟨h.queue.trans hq.symm, h.flag.trans hb.symm, h.timers, h.protocols, h.added.trans ha.symm,
    h.processed.trans hd.symm, fun j => ?_, h.threads⟩
  rw [hp, hands_set hw, h.hands]
  split_ifs with hj
  · subst hj
    rw [hw, hof]
    rfl
  · rfl

theorem run_singleton {mv : Move ℕ ν} {c' : Controller ℕ ν} (h : c.step mv = some c') :
    [mv].foldlM Controller.step c = some c' := by
  rw [List.foldlM_cons, h]
  rfl

theorem Shows.take (h : s.Shows c) (hw : s.pool.workers[i]? = some w) (hof : handOf i w = none)
    (hb : s.pool.breakFlag = false) {r : Record ν} {q : List (Record ν)} (hq : s.pool.queue = r :: q) :
    ∃ c', c.step (.pop i) = some c' ∧
      Shows { s with pool := { s.pool with queue := q, taken := s.pool.taken ++ [r] }.set i (.busy r r.steps) } c' := by
  have hnone : c.hand i = none := by
    rw [h.hands, hw]
    exact hof
  refine ⟨{ c with recordsQueue := q, hands := c.hands ++ [⟨i, r, .popped⟩] }, ?_, rfl, h.flag, h.timers, h.protocols,
    h.added, h.processed, fun j => ?_, ?_⟩
  · simp only [Controller.step, h.flag, hb, hnone, Option.isSome_none, Bool.or_self, Bool.false_eq_true, if_false,
      h.queue, hq]
  · refine (Controller.hand_push hnone r j).trans (Eq.trans ?_ (hands_set hw _ j).symm)
    split_ifs with hj
    · subst hj
      rfl
    · exact h.hands j
  · rw [List.map_append]
    refine List.nodup_append.mpr ⟨h.threads, List.nodup_singleton _, fun a ha b hb => ?_⟩
    rintro rfl
    rw [List.mem_singleton.mp hb] at ha
    exact Controller.notMem_of_hand_none hnone ha

omit [DecidableEq ν] in
theorem Shows.advance (h : s.Shows c) (hw : s.pool.workers[i]? = some w) {x : Hand ℕ ν} (hof : handOf i w = some x)
    {stage : Stage} (hof' : handOf i w' = some { x with stage := stage }) (a : RecordStep ν)
    (ha : RecordThreads.processed a = none) :
    Shows { s with pool := { s.pool with performed := s.pool.performed ++ [a] }.set i w' } (c.advance i stage) := by
  refine ⟨h.queue, h.flag, h.timers, h.protocols, h.added, ?_, fun j => ?_, ?_⟩
  · refine h.processed.trans ?_
    change _ = (s.pool.performed ++ [a]).filterMap RecordThreads.processed
    rw [List.filterMap_append, List.filterMap_cons_none ha, List.filterMap_nil, List.append_nil]
  · rw [Controller.hand_advance]
    refine Eq.trans ?_ (hands_set hw w' j).symm
    split_ifs with hj
    · subst hj
      rw [h.hands, hw, hof']
      change (handOf j w).map _ = _
      rw [hof]
      rfl
    · exact h.hands j
  · rw [Controller.threads_advance]
    exact h.threads

omit [DecidableEq ν] in
theorem Shows.release (h : s.Shows c) (hw : s.pool.workers[i]? = some w) {x : Hand ℕ ν} (hof : handOf i w = some x)
    (hof' : handOf i w' = none) (hp : p.workers = s.pool.workers.set i w') (hq : p.queue = s.pool.queue)
    (hb : p.breakFlag = s.pool.breakFlag) (ha : p.added = s.pool.added) (l : List (Record ν))
    (hd : p.performed.filterMap RecordThreads.processed =
      s.pool.performed.filterMap RecordThreads.processed ++ l) :
    Shows { s with pool := p } { c.release i with processed := c.processed ++ l } := by
  have hhand : c.hand i = some x := by
    rw [h.hands, hw]
    exact hof
  refine ⟨h.queue.trans hq.symm, h.flag.trans hb.symm, h.timers, h.protocols, h.added.trans ha.symm, ?_, fun j => ?_,
    Controller.nodup_release h.threads⟩
  · change c.processed ++ l = _
    rw [h.processed, ← hd]
  · rw [hp, hands_set hw]
    refine (Controller.hand_release h.threads hhand j).trans ?_
    split_ifs with hj
    · exact hof'.symm
    · exact h.hands j

/-- **What a thread does with its record, the controller does.** -/
theorem shows_perform (h : s.Shows c) (ht : s.pool.Trimmed Record.steps) {r : Record ν} {a : RecordStep ν}
    {left : List (RecordStep ν)} (hw : s.pool.workers[i]? = some (.busy r (a :: left)))
    (hready : s.ready (.perform i) = true) :
    ∃ (moves : List (Move ℕ ν)) (c' : Controller ℕ ν), moves.foldlM Controller.step c = some c' ∧
      Shows { s with pool := { s.pool with performed := s.pool.performed ++ [a] }.set i (.busy r left) } c' := by
  have hhand := h.hands i
  rw [hw] at hhand
  simp only [ready, hw] at hready
  rcases suffix_steps (ht _ (List.mem_of_getElem? hw) r _ rfl) with he | he | he | he
  · obtain ⟨rfl, rfl⟩ := List.cons.inj he
    have hc : c.step (.protocol i) = some (c.advance i .found) := by
      change c.hand i = some ⟨i, r, .popped⟩ at hhand
      simp only [Controller.step, hhand, h.protocols, show s.hasProtocol r.node = true from hready, if_true]
    exact ⟨_, _, run_singleton hc, h.advance hw rfl rfl _ rfl⟩
  · obtain ⟨rfl, rfl⟩ := List.cons.inj he
    have hfree : s.isLocked r.node = false := by simpa using hready
    have hc : c.step (.lock i) = some (c.advance i .locked) := by
      change c.hand i = some ⟨i, r, .found⟩ at hhand
      simp only [Controller.step, hhand, h.isLocked ht, hfree, Bool.false_eq_true, if_false]
    exact ⟨_, _, run_singleton hc, h.advance hw rfl rfl _ rfl⟩
  · obtain ⟨rfl, rfl⟩ := List.cons.inj he
    have hc : c.step (.processBytes i) = some { c.release i with processed := c.processed ++ [r] } := by
      change c.hand i = some ⟨i, r, .locked⟩ at hhand
      simp only [Controller.step, hhand]
    exact ⟨_, _, run_singleton hc, h.release
      (p := { s.pool with performed := s.pool.performed ++ [RecordStep.processBytes r] }.set i (.busy r []))
      hw rfl rfl rfl rfl rfl rfl [r] List.filterMap_append⟩
  · cases he

/-- **Every step is one of the controller, or changes nothing there.** -/
theorem Shows.step (h : s.Shows c) (ht : s.pool.Trimmed Record.steps) {call : Call ν} (hstep : s.step call = some s') :
    ∃ (moves : List (Move ℕ ν)) (c' : Controller ℕ ν), moves.foldlM Controller.step c = some c' ∧ s'.Shows c' := by
  cases call with
  | addReceivedRecord r wakes =>
      obtain ⟨pool, hpool, rfl⟩ := Option.map_eq_some_iff.mp hstep
      have hadd : (Shows { s with pool := s.pool.push r }
          { c with recordsQueue := c.recordsQueue ++ [r], added := c.added ++ [r] }) := by
        refine ⟨?_, h.flag, h.timers, h.protocols, ?_, h.processed, h.hands, h.threads⟩
        · change c.recordsQueue ++ [r] = s.pool.queue ++ [r]
          rw [h.queue]
        · change c.added ++ [r] = s.pool.added ++ [r]
          rw [h.added]
      refine ⟨[.addReceivedRecord r], _, run_singleton rfl, ?_⟩
      cases Pool.step_cases hpool with
      | add _ hz => exact hadd
      | addWake _ hw =>
          exact hadd.same (p := (s.pool.push r).set _ .woken) hw rfl rfl rfl rfl rfl rfl
  | thread mv =>
      simp only [RecordThreads.step] at hstep
      split_ifs at hstep with hready
      obtain ⟨pool, hpool, rfl⟩ := Option.map_eq_some_iff.mp hstep
      cases Pool.step_cases hpool with
      | add _ hz => cases hready
      | addWake _ hw => cases hready
      | stop => cases hready
      | spurious hw => exact ⟨[], c, rfl, h.same hw rfl rfl rfl rfl rfl rfl⟩
      | test hw => exact ⟨[], c, rfl, h.same hw rfl (by split_ifs <;> rfl) rfl rfl rfl rfl⟩
      | enterBreak hw ha hb =>
          exact ⟨[], c, rfl, h.same hw rfl (by obtain rfl | rfl := ha <;> rfl) rfl rfl rfl rfl⟩
      | enterWait hw ha hb hq =>
          exact ⟨[], c, rfl, h.same hw rfl (by obtain rfl | rfl := ha <;> rfl) rfl rfl rfl rfl⟩
      | enterTake hw ha hb hq =>
          obtain ⟨c', hc, hshows⟩ := h.take hw (by obtain rfl | rfl := ha <;> rfl) hb hq
          exact ⟨_, c', run_singleton hc, hshows⟩
      | perform hw => exact shows_perform h ht hw hready
      | @leave i r left hw =>
          simp only [ready, hw] at hready
          have hhand := h.hands i
          rw [hw] at hhand
          rcases suffix_steps (ht _ (List.mem_of_getElem? hw) r _ rfl) with rfl | rfl | rfl | rfl
          · change (!s.hasProtocol r.node) = true at hready
            have hno : s.hasProtocol r.node = false := by simpa using hready
            have hc : c.step (.protocol i) = some (c.release i) := by
              change c.hand i = some ⟨i, r, .popped⟩ at hhand
              simp only [Controller.step, hhand, h.protocols, hno, Bool.false_eq_true, if_false]
            have hrel := h.release (p := { s.pool with finished := s.pool.finished ++ [r] }.set i .testing)
              hw rfl rfl rfl rfl rfl rfl [] (List.append_nil _).symm
            rw [List.append_nil] at hrel
            exact ⟨_, _, run_singleton hc, hrel⟩
          · cases hready
          · cases hready
          · exact ⟨[], c, rfl, h.same hw rfl rfl rfl rfl rfl rfl⟩
  | timerLock n =>
      simp only [RecordThreads.step] at hstep
      split_ifs at hstep with hl
      obtain rfl := Option.some.inj hstep
      have hc : c.step (.timerLock n) = some { c with timerLock := Function.update c.timerLock n true } := by
        rw [Controller.step, h.isLocked ht, if_neg hl]
      exact ⟨_, _, run_singleton hc, h.queue, h.flag, by rw [h.timers], h.protocols, h.added, h.processed, h.hands,
        h.threads⟩
  | timerUnlock n =>
      obtain rfl := Option.some.inj hstep
      exact ⟨[.timerUnlock n], _, run_singleton rfl, h.queue, h.flag, by rw [h.timers], h.protocols, h.added,
        h.processed, h.hands, h.threads⟩
  | setProtocol n =>
      obtain rfl := Option.some.inj hstep
      exact ⟨[.setProtocol n], _, run_singleton rfl, h.queue, h.flag, h.timers, by rw [h.protocols], h.added,
        h.processed, h.hands, h.threads⟩
  | close n =>
      obtain rfl := Option.some.inj hstep
      exact ⟨[.close n], _, run_singleton rfl, h.queue, h.flag, h.timers, by rw [h.protocols], h.added, h.processed,
        h.hands, h.threads⟩
  | shutdown =>
      change s.poolStep .stop = some s' at hstep
      obtain ⟨pool, hpool, rfl⟩ := Option.map_eq_some_iff.mp hstep
      obtain rfl := Option.some.inj hpool
      refine ⟨[.shutdown], _, run_singleton rfl, h.queue, rfl, h.timers, h.protocols, h.added, h.processed, fun j => ?_,
        h.threads⟩
      refine (h.hands j).trans ?_
      rw [List.getElem?_map]
      cases s.pool.workers[j]? with
      | none => rfl
      | some w => cases w <;> rfl

/-- **The threads with their condition variable refine the controller.** Over every run, the queue, the records that
are in hands and those that were processed are what they are after some run of the controller that pops without
waiting. -/
theorem refines (threadCount : ℕ) (calls : List (Call ν)) (h : (start threadCount).run calls = some s) :
    ∃ (moves : List (Move ℕ ν)) (c : Controller ℕ ν), moves.foldlM Controller.step .start = some c ∧ s.Shows c := by
  have hstart : (start threadCount : RecordThreads ν).Shows .start := by
    refine ⟨rfl, rfl, rfl, rfl, rfl, rfl, fun i => ?_, List.nodup_nil⟩
    change none = ((List.replicate threadCount Worker.testing)[i]?).bind (handOf i)
    rw [List.getElem?_replicate]
    split_ifs <;> rfl
  refine (invariant_foldlM (I := fun r : RecordThreads ν => r.Regular threadCount ∧ ∃ (moves : List (Move ℕ ν))
    (c : Controller ℕ ν), moves.foldlM Controller.step .start = some c ∧ r.Shows c) (fun r call r' hI hstep => ?_)
    ⟨?_, [], .start, rfl, hstart⟩ h).2
  · obtain ⟨hregular, moves, c, hrun, hshows⟩ := hI
    obtain ⟨more, c', hmore, hshows'⟩ := hshows.step hregular.trimmed hstep
    refine ⟨hregular.step hstep, moves ++ more, c', ?_, hshows'⟩
    rw [List.foldlM_append, hrun]
    exact hmore
  · exact regular_run [] rfl

/-- The controller pops the record that a thread has found awake. -/
theorem refines_oneRecord :
    let calls : List (Call ℕ) := [.setProtocol 7, .thread (.test 0), .thread (.enter 0),
      .addReceivedRecord ⟨7, [1]⟩ (some 0), .thread (.enter 0), .thread (.perform 0)]
    ∃ s : RecordThreads ℕ, (start 1).run calls = some s ∧ s.pool.queue = [] ∧
      ∃ (moves : List (Move ℕ ℕ)) (c : Controller ℕ ℕ), moves.foldlM Controller.step .start = some c ∧ s.Shows c := by
  intro calls
  exact ⟨_, rfl, rfl, refines 1 calls rfl⟩

end RecordThreads

end HelpzServer
