import Helpz.Client.KeepAlive

/-!
# The thread of the client

`Client_Thread` connects again and again, with a pause between two attempts, until it is stopped. Other threads stop it
at any time; `start` and `stop` lock the same mutex.

* `ClientThread`, `Move`, `step`: the thread at each of its places, its client, and the calls of `stop`;
* `Orderly`, `closed_after_stop`: one client is open at most, and none after `stop`;
* `rank`, `ends_after_stop`: after `stop` the thread ends;
* `Alive`, `attempt_or_heard`: until then it has heard from its peer recently, or has tried to connect.
-/

namespace HelpzClient

open HelpzLib HelpzNet HelpzServer

variable {π : Type}

/-- The client after `close`: the handlers are not called any more, and the node has no protocol. -/
def Client.Closed (c : Client π) : Prop := c.ended = true ∧ c.node.node = ⟨false, none⟩ ∧ c.receive ≠ .outstanding

/-- Where `run` is. -/
inductive Place
  /-- the constructor of `Tools` -/
  | tools
  /-- `while (!stop_flag_)` -/
  | test
  | sleep
  | starting
  /-- `client_->run()` -/
  | running
  /-- `stop()` and `client_.reset()` after the loop -/
  | stopping
  | resetting
  | done
  deriving DecidableEq

/-- `Client_Thread`. `since` is when the thread came to its place, or its client ended there; `replaced` are the clients
`client_` has pointed to before, and `attempts` are the times of the connection attempts. -/
structure ClientThread (π : Type) where
  place : Place
  since : TimePoint
  isFirstConnect : Bool
  stopFlag : Bool
  client : Option (Client π)
  replaced : List (Client π)
  now : TimePoint
  attempts : List TimePoint

/-- What comes of a new client: the constructor of `Client` throws, or `start_connection` does. -/
inductive Outcome (π : Type)
  | ok
  | noClient
  | noConnection (c : Client π)

namespace ClientThread

/-- What happens next. -/
inductive Move (π : Type)
  | tools (ok : Bool)
  | test
  | wake
  | start (o : Outcome π)
  | returns
  | stopping
  | reset
  /-- something happens to the client -/
  | client (mv : HelpzClient.Move π)
  /-- another thread calls `stop` -/
  | stop
  | tick (d : ℕ)

/-- The steps of the thread itself. -/
def Move.isOwn : Move π → Bool
  | .tools _ | .test | .wake | .start _ | .returns | .stopping | .reset => true
  | .client _ | .stop | .tick _ => false

/-- A handler is called by `run()` only. -/
def allows (s : ClientThread π) : HelpzClient.Move π → Bool
  | .handleReceive _ | .checkDeadline | .handleSend => decide (s.place = .running)
  | .arrive | .fail | .expire => true
  | .close | .tick _ => false

def enter (s : ClientThread π) (place : Place) : ClientThread π := { s with place := place, since := s.now }

/-- `stop`. -/
def stop (s : ClientThread π) : ClientThread π := { s with stopFlag := true, client := s.client.map Client.close }

/-- `client_` gets another value. -/
def replace (s : ClientThread π) (c : Option (Client π)) : ClientThread π :=
  { s with client := c, replaced := s.replaced ++ s.client.toList }

/-- `start`, and where `run` goes on: an exception is caught in the loop. -/
def start (s : ClientThread π) (o : Outcome π) : ClientThread π :=
  if s.stopFlag then s.enter .test
  else
    let s := { s with client := s.client.map Client.close, attempts := s.attempts ++ [s.now] }
    match o with
    | .ok => (s.replace (some (Client.start s.now))).enter .running
    | .noClient => s.enter .test
    | .noConnection c => (s.replace (some c)).enter .test

/-- A new thread. -/
def new (now : TimePoint) : ClientThread π where
  place := .tools
  since := now
  isFirstConnect := true
  stopFlag := false
  client := none
  replaced := []
  now := now
  attempts := []

/-- The client after a step of it; the time is noted when it ends. -/
def advance (s : ClientThread π) (c c' : Client π) : ClientThread π :=
  { s with client := some c', since := if c'.ended && !c.ended then s.now else s.since }

def later (s : ClientThread π) (d : ℕ) : ClientThread π :=
  { s with now := s.now + d, client := s.client.map fun c => { c with now := c.now + d } }

variable (interval : TimePoint)

def step (s : ClientThread π) : Move π → Option (ClientThread π)
  | .tools ok => if s.place = .tools then some (s.enter (if ok then .test else .stopping)) else none
  | .test =>
      if s.place = .test then
        if s.stopFlag then some (s.enter .stopping)
        else if s.isFirstConnect then some ({ s with isFirstConnect := false }.enter .starting)
        else some (s.enter .sleep)
      else none
  | .wake => if s.place = .sleep ∧ s.since + interval ≤ s.now then some (s.enter .starting) else none
  | .start o => if s.place = .starting then some (s.start o) else none
  | .returns => if s.place = .running ∧ s.client.any Client.ended then some (s.enter .test) else none
  | .stopping => if s.place = .stopping then some (s.stop.enter .resetting) else none
  | .reset => if s.place = .resetting then some ((s.replace none).enter .done) else none
  | .client mv =>
      match s.client with
      | none => none
      | some c =>
          if s.allows mv then
            (c.step mv).map (s.advance c)
          else none
  | .stop => some s.stop
  | .tick d => some (s.later d)

def run (s : ClientThread π) (moves : List (Move π)) : Option (ClientThread π) := moves.foldlM (step interval) s

/-! ## What a step does -/

variable {s s' : ClientThread π} {mv : Move π} {c c' : Client π} {interval δ t₀ L : TimePoint}

/-- The steps, one by one. -/
inductive Step (interval : TimePoint) (s : ClientThread π) : Move π → ClientThread π → Prop
  | tools (ok : Bool) (hplace : s.place = .tools) :
      Step interval s (.tools ok) (s.enter (if ok then .test else .stopping))
  | leave (hplace : s.place = .test) (hstop : s.stopFlag = true) : Step interval s .test (s.enter .stopping)
  | first (hplace : s.place = .test) (hstop : s.stopFlag = false) :
      Step interval s .test ({ s with isFirstConnect := false }.enter .starting)
  | again (hplace : s.place = .test) (hstop : s.stopFlag = false) : Step interval s .test (s.enter .sleep)
  | wake (hplace : s.place = .sleep) (hle : s.since + interval ≤ s.now) : Step interval s .wake (s.enter .starting)
  | start (o : Outcome π) (hplace : s.place = .starting) : Step interval s (.start o) (s.start o)
  | returns (c : Client π) (hplace : s.place = .running) (hclient : s.client = some c) (hended : c.ended = true) :
      Step interval s .returns (s.enter .test)
  | stopping (hplace : s.place = .stopping) : Step interval s .stopping (s.stop.enter .resetting)
  | reset (hplace : s.place = .resetting) : Step interval s .reset ((s.replace none).enter .done)
  | client (mv : HelpzClient.Move π) (c c' : Client π) (hclient : s.client = some c) (hallows : s.allows mv = true)
      (hstep : c.step mv = some c') : Step interval s (.client mv) (s.advance c c')
  | stop : Step interval s .stop s.stop
  | tick (d : ℕ) : Step interval s (.tick d) (s.later d)

theorem step_cases (h : s.step interval mv = some s') : Step interval s mv s' := by
  cases mv with
  | tools ok =>
      obtain ⟨hplace, ⟨⟩⟩ := Option.ite_none_right_eq_some.mp h
      exact .tools ok hplace
  | test =>
      obtain ⟨hplace, h⟩ := Option.ite_none_right_eq_some.mp h
      cases hstop : s.stopFlag with
      | true =>
          rw [if_pos hstop] at h
          exact Option.some.inj h ▸ .leave hplace hstop
      | false =>
          rw [if_neg (Bool.eq_false_iff.mp hstop)] at h
          split_ifs at h
          · exact Option.some.inj h ▸ .first hplace hstop
          · exact Option.some.inj h ▸ .again hplace hstop
  | wake =>
      obtain ⟨⟨hplace, hle⟩, ⟨⟩⟩ := Option.ite_none_right_eq_some.mp h
      exact .wake hplace hle
  | start o =>
      obtain ⟨hplace, ⟨⟩⟩ := Option.ite_none_right_eq_some.mp h
      exact .start o hplace
  | returns =>
      obtain ⟨⟨hplace, hended⟩, ⟨⟩⟩ := Option.ite_none_right_eq_some.mp h
      obtain ⟨c, hclient, hc⟩ := (Option.any_eq_true _ _).mp hended
      exact .returns c hplace hclient hc
  | stopping =>
      obtain ⟨hplace, ⟨⟩⟩ := Option.ite_none_right_eq_some.mp h
      exact .stopping hplace
  | reset =>
      obtain ⟨hplace, ⟨⟩⟩ := Option.ite_none_right_eq_some.mp h
      exact .reset hplace
  | client mv =>
      simp only [step] at h
      split at h
      · cases h
      next c hclient =>
        obtain ⟨hallows, h⟩ := Option.ite_none_right_eq_some.mp h
        obtain ⟨c', hc', rfl⟩ := Option.map_eq_some_iff.mp h
        exact .client mv c c' hclient hallows hc'
  | stop => exact Option.some.inj h ▸ .stop
  | tick d => exact Option.some.inj h ▸ .tick d

/-! ## One client at a time -/

theorem closed_close (c : Client π) : c.close.Closed := by
  refine ⟨rfl, rfl, ?_⟩
  unfold Client.close
  cases c.receive <;> exact nofun

theorem closed_step {mv : HelpzClient.Move π} (hc : c.Closed) (h : c.step mv = some c') : c'.Closed := by
  obtain ⟨hended, hnode, hreceive⟩ := hc
  cases mv <;> simp only [Client.step, hended, if_true, if_neg hreceive, reduceCtorEq] at h
  case expire =>
      split at h
      · split_ifs at h
        cases h
        exact ⟨rfl, hnode, hreceive⟩
      · cases h
  case close =>
      cases h
      exact closed_close c
  case tick =>
      cases h
      exact ⟨rfl, hnode, hreceive⟩

/-- What every run keeps: the replaced clients are closed, and after `stop` the last one is. -/
structure Orderly (s : ClientThread π) : Prop where
  replaced : ∀ c ∈ s.replaced, c.Closed
  stopped : s.stopFlag = true → ∀ c ∈ s.client, c.Closed
  leaving : s.place = .resetting ∨ s.place = .done → s.stopFlag = true
  left : s.place = .done → s.client = none
  running : s.place = .running → s.client.isSome = true

theorem Orderly.stop (hs : s.Orderly) : s.stop.Orderly where
  replaced := hs.replaced
  stopped _ c hc := by
    obtain ⟨c₀, _, rfl⟩ := Option.mem_map.mp hc
    exact closed_close c₀
  leaving _ := rfl
  left h := by simp [ClientThread.stop, hs.left h]
  running h := by simp [ClientThread.stop, hs.running h]

theorem Orderly.start (hs : s.Orderly) (o : Outcome π) : (s.start o).Orderly := by
  have hreplaced : ∀ c ∈ s.replaced ++ (s.client.map Client.close).toList, c.Closed := by
    intro c hc
    rcases List.mem_append.mp hc with hc | hc
    · exact hs.replaced c hc
    · obtain ⟨c₀, _, rfl⟩ := Option.mem_map.mp (Option.mem_toList.mp hc)
      exact closed_close c₀
  unfold ClientThread.start
  split_ifs with hstop
  · exact ⟨hs.replaced, hs.stopped, nofun, nofun, nofun⟩
  · cases o with
    | ok => exact ⟨hreplaced, fun h => absurd h hstop, nofun, nofun, fun _ => rfl⟩
    | noClient => exact ⟨hs.replaced, fun h => absurd h hstop, nofun, nofun, nofun⟩
    | noConnection c => exact ⟨hreplaced, fun h => absurd h hstop, nofun, nofun, nofun⟩

theorem Orderly.enter (hs : s.Orderly) {place : Place} (h : place = .resetting ∨ place = .done → s.stopFlag = true)
    (hplace : place ≠ .done ∧ place ≠ .running) : (s.enter place).Orderly :=
  ⟨hs.replaced, hs.stopped, h, fun hdone => absurd hdone hplace.1, fun hrunning => absurd hrunning hplace.2⟩

theorem Orderly.step (hs : s.Orderly) (h : s.step interval mv = some s') : s'.Orderly := by
  cases step_cases h with
  | tools ok _ => cases ok <;> exact hs.enter nofun (by decide)
  | leave _ _ | again _ _ | wake _ _ | returns _ _ _ _ => exact hs.enter nofun (by decide)
  | first _ _ => exact ⟨hs.replaced, hs.stopped, nofun, nofun, nofun⟩
  | start o _ => exact hs.start o
  | stopping _ => exact hs.stop.enter (fun _ => rfl) (by decide)
  | reset hplace =>
      have hstop := hs.leaving (.inl hplace)
      refine ⟨fun c hc => ?_, fun _ _ hc => (nomatch hc), fun _ => hstop, fun _ => rfl, nofun⟩
      rcases List.mem_append.mp hc with hc | hc
      · exact hs.replaced c hc
      · exact hs.stopped hstop c (Option.mem_toList.mp hc)
  | client mv c c' hclient _ hstep =>
      refine ⟨hs.replaced, fun hstop x hx => ?_, hs.leaving, fun hdone => ?_, fun _ => rfl⟩
      · obtain rfl := Option.some.inj hx
        exact closed_step (hs.stopped hstop c hclient) hstep
      · cases hclient.symm.trans (hs.left hdone)
  | stop => exact hs.stop
  | tick d =>
      refine ⟨hs.replaced, fun hstop x hx => ?_, hs.leaving, fun hdone => by simp [later, hs.left hdone],
        fun hrunning => by simp [later, hs.running hrunning]⟩
      obtain ⟨c, hc, rfl⟩ := Option.mem_map.mp hx
      exact hs.stopped hstop c hc

theorem orderly_new (t₀ : TimePoint) : (new t₀ : ClientThread π).Orderly :=
  ⟨fun _ hc => absurd hc List.not_mem_nil, nofun, nofun, nofun, nofun⟩

theorem orderly_run {moves : List (Move π)} (hs : s.Orderly) (h : s.run interval moves = some s') : s'.Orderly :=
  invariant_foldlM (fun _ _ _ hs h => Orderly.step hs h) hs h

theorem attempts_step (hstop : s.stopFlag = true) (h : s.step interval mv = some s') :
    s'.stopFlag = true ∧ s'.attempts = s.attempts ∧
      s'.replaced.length + s'.client.toList.length = s.replaced.length + s.client.toList.length := by
  cases step_cases h with
  | tools _ _ | leave _ _ | again _ _ | wake _ _ | returns _ _ _ _ => exact ⟨hstop, rfl, rfl⟩
  | first _ hnot => cases hstop.symm.trans hnot
  | start o _ =>
      unfold ClientThread.start
      rw [if_pos hstop]
      exact ⟨hstop, rfl, rfl⟩
  | stopping _ | stop => exact ⟨rfl, rfl, by simp [enter, ClientThread.stop, Option.toList_map]⟩
  | reset _ => exact ⟨hstop, rfl, by simp [enter, replace]⟩
  | client mv c c' hclient _ _ => exact ⟨hstop, rfl, by simp [advance, hclient]⟩
  | tick d => exact ⟨hstop, rfl, by simp [later, Option.toList_map]⟩

theorem attempts_run {moves : List (Move π)} (hstop : s.stopFlag = true) (h : s.run interval moves = some s') :
    s'.stopFlag = true ∧ s'.attempts = s.attempts ∧
      s'.replaced.length + s'.client.toList.length = s.replaced.length + s.client.toList.length :=
  invariant_foldlM (I := fun t : ClientThread π => t.stopFlag = true ∧ t.attempts = s.attempts ∧
      t.replaced.length + t.client.toList.length = s.replaced.length + s.client.toList.length)
    (fun _ _ _ ht h => by
      obtain ⟨hflag, hattempts, hclients⟩ := attempts_step ht.1 h
      exact ⟨hflag, hattempts.trans ht.2.1, hclients.trans ht.2.2⟩)
    ⟨hstop, rfl, rfl⟩ h

/-- **One client is open at most, and none after `stop`**: the clients that were replaced are closed. From `stop` on the
last one is, whatever the thread was doing, no client is created and nothing is connected. -/
theorem closed_after_stop (moves moves' : List (Move π)) (h : (new t₀).run interval moves = some s)
    (h' : s.run interval moves' = some s') : (∀ c ∈ s.replaced, c.Closed) ∧
      (s.stopFlag = true → (∀ c ∈ s'.replaced ++ s'.client.toList, c.Closed) ∧ s'.attempts = s.attempts ∧
        s'.replaced.length + s'.client.toList.length = s.replaced.length + s.client.toList.length) := by
  have hs := orderly_run (orderly_new t₀) h
  refine ⟨hs.replaced, fun hstop => ?_⟩
  obtain ⟨hstop', hattempts, hclients⟩ := attempts_run hstop h'
  have hs' := orderly_run hs h'
  refine ⟨fun c hc => ?_, hattempts, hclients⟩
  rcases List.mem_append.mp hc with hc | hc
  · exact hs'.replaced c hc
  · exact hs'.stopped hstop' c (Option.mem_toList.mp hc)

/-- `stop` is called while a client runs. -/
def stoppedEarly : List (Move ℕ) := [.tools true, .test, .start .ok, .stop]

theorem closed_after_stop_stoppedEarly : ∃ s s' : ClientThread ℕ, (new 0).run (seconds 30) stoppedEarly = some s ∧
    s.run (seconds 30) [.returns, .test, .stopping, .reset] = some s' ∧
    s'.replaced.length = 1 ∧ ∀ c ∈ s'.replaced ++ s'.client.toList, c.Closed := by
  obtain ⟨s, s', h, h', hstop, hlen⟩ : ∃ s s' : ClientThread ℕ, (new 0).run (seconds 30) stoppedEarly = some s ∧
      s.run (seconds 30) [.returns, .test, .stopping, .reset] = some s' ∧ s.stopFlag = true ∧
      s'.replaced.length = 1 := ⟨_, _, rfl, rfl, rfl, rfl⟩
  exact ⟨s, s', h, h', hlen, ((closed_after_stop _ _ h h').2 hstop).1⟩

/-! ## After `stop` -/

/-- How many steps of its own the thread is away from its end. -/
def rank : Place → ℕ
  | .sleep => 5
  | .tools | .starting | .running => 4
  | .test => 3
  | .stopping => 2
  | .resetting => 1
  | .done => 0

theorem rank_step (hstop : s.stopFlag = true) (h : s.step interval mv = some s') :
    rank s'.place + (if mv.isOwn then 1 else 0) ≤ rank s.place := by
  cases step_cases h with
  | tools ok hplace =>
      rw [hplace]
      cases ok
      · exact (by decide : 2 + 1 ≤ 4)
      · exact (by decide : 3 + 1 ≤ 4)
  | leave hplace _ | returns _ hplace _ _ | stopping hplace | reset hplace =>
      rw [hplace]
      exact le_rfl
  | wake hplace _ =>
      rw [hplace]
      exact le_rfl
  | first _ hnot | again _ hnot => cases hstop.symm.trans hnot
  | start o hplace =>
      unfold ClientThread.start
      rw [if_pos hstop, hplace]
      exact le_rfl
  | client _ _ _ _ _ _ | stop | tick _ => exact le_rfl

theorem rank_run {moves : List (Move π)} (hstop : s.stopFlag = true) (h : s.run interval moves = some s') :
    rank s'.place + moves.countP Move.isOwn ≤ rank s.place := by
  induction moves generalizing s with
  | nil => exact Option.some.inj h ▸ le_rfl
  | cons mv moves ih =>
      obtain ⟨t, ht, hrest⟩ := Option.bind_eq_some_iff.mp h
      have hlast := ih (attempts_step hstop ht).1 hrest
      have hfirst := rank_step hstop ht
      rw [List.countP_cons]
      omega

theorem exists_step (hs : s.Orderly) (hstop : s.stopFlag = true) (hplace : s.place ≠ .done) :
    ∃ d mv, Move.isOwn mv = true ∧ ((s.later d).step interval mv).isSome = true := by
  cases hp : s.place with
  | tools => exact ⟨0, .tools true, rfl, by simp [step, later, hp]⟩
  | test => exact ⟨0, .test, rfl, by simp [step, later, hp, hstop]⟩
  | sleep =>
      refine ⟨(s.since + interval - s.now).toNat, .wake, rfl, ?_⟩
      have hle := Int.self_le_toNat (s.since + interval - s.now)
      have hwake : s.since + interval ≤ s.now + (s.since + interval - s.now).toNat := by linarith
      rw [step, if_pos ⟨hp, hwake⟩]
      rfl
  | starting => exact ⟨0, .start .noClient, rfl, by simp [step, later, hp]⟩
  | running =>
      obtain ⟨c, hc⟩ := Option.isSome_iff_exists.mp (hs.running hp)
      have hended := (hs.stopped hstop c hc).1
      exact ⟨0, .returns, rfl, by simp [step, later, hp, hc, hended]⟩
  | stopping => exact ⟨0, .stopping, rfl, by simp [step, later, hp]⟩
  | resetting => exact ⟨0, .reset, rfl, by simp [step, later, hp]⟩
  | done => exact absurd hp hplace

/-- **After `stop` the thread ends**, so the destructor returns: wherever the thread is, it makes five steps at most,
can always make the next one when its pause is over, and leaves no client behind. -/
theorem ends_after_stop (moves : List (Move π)) (h : (new t₀).run interval moves = some s) (hstop : s.stopFlag = true) :
    (∀ moves' s', s.run interval moves' = some s' → moves'.countP Move.isOwn ≤ 5) ∧
      (s.place = .done ∧ s.client = none ∨
        ∃ d mv, Move.isOwn mv = true ∧ ((s.later d).step interval mv).isSome = true) := by
  have hs := orderly_run (orderly_new t₀) h
  constructor
  · intro moves' s' h'
    have hrank := rank_run hstop h'
    have hle : rank s.place ≤ 5 := by cases s.place <;> decide
    omega
  · by_cases hplace : s.place = .done
    · exact .inl ⟨hplace, hs.left hplace⟩
    · exact .inr (exists_step hs hstop hplace)

theorem ends_after_stop_stoppedEarly : ∃ s : ClientThread ℕ, (new 0).run (seconds 30) stoppedEarly = some s ∧
    s.place = .running ∧ ∀ moves' s', s.run (seconds 30) moves' = some s' → moves'.countP Move.isOwn ≤ 5 := by
  obtain ⟨s, h, hstop, hplace⟩ : ∃ s : ClientThread ℕ, (new 0).run (seconds 30) stoppedEarly = some s ∧
      s.stopFlag = true ∧ s.place = .running := ⟨_, rfl, rfl, rfl⟩
  exact ⟨s, h, hplace, (ends_after_stop _ h hstop).1⟩

/-! ## How long the thread does nothing for its connection -/

/-- The times since when the thread, or a handler of its client, is due. -/
def due (interval : TimePoint) (s : ClientThread π) : List TimePoint :=
  match s.place with
  | .done => []
  | .sleep => [s.since + interval]
  | .running => s.client.toList.flatMap fun c => if c.ended then [s.since] else c.due
  | .tools | .test | .starting | .stopping | .resetting => [s.since]

/-- Time does not go on when the thread, or a handler of its client, is late by `δ`. -/
def Prompt (interval δ : TimePoint) (s : ClientThread π) : Move π → Prop
  | .tick d => ∀ t ∈ s.due interval, s.now + d ≤ t + δ
  | _ => True

instance (interval δ : TimePoint) (s : ClientThread π) : (mv : Move π) → Decidable (s.Prompt interval δ mv)
  | .tick d => inferInstanceAs (Decidable (∀ t ∈ s.due interval, s.now + d ≤ t + δ))
  | .tools _ | .test | .wake | .start _ | .returns | .stopping | .reset | .client _ | .stop =>
      inferInstanceAs (Decidable True)

/-- The thread began then, or tried to connect, or its client has heard from the peer. -/
def SignAt (t₀ : TimePoint) (s : ClientThread π) (t : TimePoint) : Prop :=
  t = t₀ ∨ t ∈ s.attempts ∨ ∃ c ∈ s.client, c.HeardAt t

/-- How long after the last sign the thread comes to its place, or its client ends there. -/
def lateness (interval δ : TimePoint) : Place → TimePoint
  | .running => seconds 30 + 4 * δ
  | .test => seconds 30 + 5 * δ
  | .sleep => seconds 30 + 6 * δ
  | .starting => seconds 30 + 7 * δ + interval
  | .tools | .stopping | .resetting | .done => 0

/-- What a prompt run keeps until `stop`. -/
structure Alive (interval δ t₀ L : TimePoint) (s : ClientThread π) : Prop where
  sign : s.SignAt t₀ L
  started : 0 ≤ s.now
  going : s.stopFlag = false ∧ s.place ∉ [.stopping, .resetting, .done]
  running : s.place = .running → ∃ c, s.client = some c ∧ c.now = s.now ∧ (c.ended = false → c.Hears δ L)
  onTime : (s.place = .running → ∀ c ∈ s.client, c.ended = true) → s.since ≤ L + lateness interval δ s.place ∧
    s.now ≤ s.since + (if s.place = .sleep then interval else 0) + δ

theorem Alive.enter (hδ : 0 ≤ δ) (hinterval : 0 ≤ interval) (hs : s.Alive interval δ t₀ L) (place : Place)
    (hplace : place ∉ [.running, .stopping, .resetting, .done])
    (hnow : s.now ≤ L + lateness interval δ place) : (s.enter place).Alive interval δ t₀ L := by
  have hnot : place ≠ .running := by
    rintro rfl
    exact hplace List.mem_cons_self
  refine ⟨hs.sign, hs.started, ⟨hs.going.1, fun h => hplace (List.mem_cons_of_mem _ h)⟩,
    fun h => absurd h hnot, fun _ => ⟨hnow, ?_⟩⟩
  change s.now ≤ s.now + (if place = .sleep then interval else 0) + δ
  split_ifs <;> linarith

theorem Alive.start (hδ : 0 ≤ δ) (hs : s.Alive interval δ t₀ L) (o : Outcome π) :
    (s.start o).Alive interval δ t₀ s.now := by
  have h30 : (0 : ℤ) ≤ seconds 30 := by decide
  have hsign : s.now ∈ s.attempts ++ [s.now] := List.mem_append_right _ (List.mem_singleton.mpr rfl)
  have htest : s.now ≤ s.now + lateness interval δ .test := by
    change s.now ≤ s.now + (seconds 30 + 5 * δ)
    linarith
  have hnow : s.now ≤ s.now + 0 + δ := by linarith
  have hplace : Place.test ∉ [.stopping, .resetting, .done] := by decide
  have hrunning : Place.running ∉ [.stopping, .resetting, .done] := by decide
  unfold ClientThread.start
  split_ifs with hstop
  · cases hstop.symm.trans hs.going.1
  · cases o with
    | ok =>
        obtain ⟨htime, hended⟩ := @Client.frame_start π s.now
        refine ⟨.inr (.inl hsign), hs.started, ⟨hs.going.1, hrunning⟩, fun _ => ?_, fun h => ?_⟩
        · exact ⟨_, rfl, htime, fun _ => Client.hears_start hδ hs.started⟩
        · cases hended.symm.trans (h rfl _ rfl)
    | noClient => exact ⟨.inr (.inl hsign), hs.started, ⟨hs.going.1, hplace⟩, nofun, fun _ => ⟨htest, hnow⟩⟩
    | noConnection c =>
        exact ⟨.inr (.inl hsign), hs.started, ⟨hs.going.1, hplace⟩, nofun, fun _ => ⟨htest, hnow⟩⟩

theorem SignAt.advance (h : s.SignAt t₀ L) {mv : HelpzClient.Move π} (hclient : s.client = some c)
    (hstep : c.step mv = some c') : (s.advance c c').SignAt t₀ L := by
  refine h.imp id fun h => h.imp id ?_
  rintro ⟨x, hx, hheard⟩
  obtain rfl := Option.some.inj (hclient.symm.trans hx)
  exact ⟨c', rfl, hheard.step hstep⟩

theorem ended_of_allows {mv : HelpzClient.Move π} (hallows : s.allows mv = true) (hplace : s.place ≠ .running)
    (hstep : c.step mv = some c') : c'.ended = c.ended := by
  cases mv <;> simp only [allows, decide_eq_true_eq, Bool.false_eq_true] at hallows
  case arrive | fail =>
      obtain ⟨_, ⟨⟩⟩ := Option.ite_none_right_eq_some.mp hstep
      rfl
  case expire =>
      simp only [Client.step] at hstep
      split at hstep
      · obtain ⟨_, ⟨⟩⟩ := Option.ite_none_right_eq_some.mp hstep
        rfl
      · cases hstep
  case handleReceive | checkDeadline | handleSend => exact absurd hallows hplace

theorem Alive.client (hδ : 0 ≤ δ) (hs : s.Alive interval δ t₀ L) {mv : HelpzClient.Move π} (hclient : s.client = some c)
    (hallows : s.allows mv = true) (hstep : c.step mv = some c') : ∃ L', (s.advance c c').Alive interval δ t₀ L' := by
  have hsign := hs.sign.advance hclient hstep
  by_cases hplace : s.place = .running
  · obtain ⟨x, hx, hnow, hears⟩ := hs.running hplace
    obtain rfl := Option.some.inj (hclient.symm.trans hx)
    have htick : ∀ d, mv ≠ .tick d := by
      rintro d rfl
      cases hallows
    have hnow' : c'.now = s.now := (Client.now_step hstep htick).trans hnow
    cases hended : c.ended with
    | true =>
        have hended' : c'.ended = true := by
          by_contra hruns
          cases hended.symm.trans (Client.ended_step hstep (Bool.eq_false_of_not_eq_true hruns))
        refine ⟨L, hsign, hs.started, hs.going, fun _ => ⟨c', rfl, hnow', fun h => ?_⟩, fun _ => ?_⟩
        · cases hended'.symm.trans h
        · have hold := hs.onTime fun _ x hx => Option.some.inj (hclient.symm.trans hx) ▸ hended
          simpa [advance, hended] using hold
    | false =>
        have hc := hears hended
        have hprompt : c.Prompt δ mv := by
          cases mv with
          | tick d => exact absurd rfl (htick d)
          | _ => trivial
        cases hended' : c'.ended with
        | false =>
            obtain ⟨L', hc'⟩ := hc.step hδ hprompt hstep hended'
            refine ⟨L', .inr (.inr ⟨c', rfl, hc'.heard⟩), hs.started, hs.going,
              fun _ => ⟨c', rfl, hnow', fun _ => hc'⟩, fun h => ?_⟩
            cases hended'.symm.trans (h hplace c' rfl)
        | true =>
            refine ⟨L, hsign, hs.started, hs.going, fun _ => ⟨c', rfl, hnow', fun h => ?_⟩, fun _ => ?_⟩
            · cases hended'.symm.trans h
            · have hlate := hc.now_le hδ
              have hsince : (s.advance c c').since = s.now := by simp [advance, hended, hended']
              have hrunning : (s.advance c c').place = .running := hplace
              rw [hsince, hrunning]
              refine ⟨?_, ?_⟩
              · change s.now ≤ L + (seconds 30 + 4 * δ)
                linarith
              · change s.now ≤ s.now + 0 + δ
                linarith
  · have hended := ended_of_allows hallows hplace hstep
    have hsince : (s.advance c c').since = s.since := by simp [advance, hended]
    refine ⟨L, hsign, hs.started, hs.going, fun h => absurd h hplace, fun _ => ?_⟩
    rw [hsince]
    exact hs.onTime fun h => absurd h hplace

theorem Alive.later (hs : s.Alive interval δ t₀ L) {d : ℕ} (hp : s.Prompt interval δ (.tick d)) :
    (s.later d).Alive interval δ t₀ L := by
  have hle : s.now ≤ s.now + d := Int.le_add_of_nonneg_right (Int.natCast_nonneg d)
  have hsign : (s.later d).SignAt t₀ L := by
    refine hs.sign.imp id fun h => h.imp id ?_
    rintro ⟨c, hc, hheard⟩
    exact ⟨{ c with now := c.now + d }, by simp [ClientThread.later, Option.mem_def.mp hc], hheard⟩
  refine ⟨hsign, hs.started.trans hle, hs.going, fun hplace => ?_, fun h => ?_⟩
  · obtain ⟨c, hc, hnow, hears⟩ := hs.running hplace
    refine ⟨{ c with now := c.now + d }, by simp [ClientThread.later, hc], congrArg (· + (d : ℤ)) hnow,
      fun hended => ?_⟩
    have hplace' : s.place = .running := hplace
    have hruns : c.ended = false := hended
    refine (hears hruns).tick fun t ht => ?_
    rw [hnow]
    exact hp t (by simpa [due, hplace', hc, hruns] using ht)
  · have hended : s.place = .running → ∀ c ∈ s.client, c.ended = true := by
      intro hplace c hc
      exact h hplace { c with now := c.now + d } (by simp [ClientThread.later, Option.mem_def.mp hc])
    refine ⟨(hs.onTime hended).1, ?_⟩
    change s.now + d ≤ s.since + (if s.place = .sleep then interval else 0) + δ
    have hgoing := hs.going.2
    cases hplace : s.place with
    | running =>
        obtain ⟨c, hc, _, _⟩ := hs.running hplace
        simpa using hp s.since (by simp [due, hplace, hc, hended hplace c hc])
    | sleep => simpa using hp (s.since + interval) (by simp [due, hplace])
    | tools | test | starting => simpa using hp s.since (by simp [due, hplace])
    | stopping | resetting | done => simp [hplace] at hgoing

theorem Alive.step (hδ : 0 ≤ δ) (hinterval : 0 ≤ interval) (hs : s.Alive interval δ t₀ L)
    (hmv : mv ≠ .stop ∧ mv ≠ .tools false) (hp : s.Prompt interval δ mv) (h : s.step interval mv = some s') :
    ∃ L', s'.Alive interval δ t₀ L' := by
  have h30 : (0 : ℤ) ≤ seconds 30 := by decide
  have hlate : ∀ {place}, s.place = place → place ≠ .running →
      s.now ≤ L + lateness interval δ place + (if place = .sleep then interval else 0) + δ := by
    intro place hplace hnot
    obtain ⟨hsince, hnow⟩ := hs.onTime fun h => absurd (hplace.symm.trans h) hnot
    rw [hplace] at hsince hnow
    linarith
  cases step_cases h with
  | tools ok hplace =>
      obtain rfl : ok = true := by
        by_contra hnot
        exact hmv.2 (by rw [Bool.eq_false_of_not_eq_true hnot])
      have hnow : s.now ≤ L + 0 + 0 + δ := hlate hplace (by decide)
      exact ⟨L, hs.enter hδ hinterval _ (by decide) (by change s.now ≤ L + (seconds 30 + 5 * δ); linarith)⟩
  | leave _ hstop => cases hstop.symm.trans hs.going.1
  | first hplace _ =>
      have hnow : s.now ≤ L + (seconds 30 + 5 * δ) + 0 + δ := hlate hplace (by decide)
      have henter := hs.enter hδ hinterval .starting (by decide)
        (by change s.now ≤ L + (seconds 30 + 7 * δ + interval); linarith)
      exact ⟨L, henter.sign, henter.started, henter.going, henter.running, henter.onTime⟩
  | again hplace _ =>
      have hnow : s.now ≤ L + (seconds 30 + 5 * δ) + 0 + δ := hlate hplace (by decide)
      exact ⟨L, hs.enter hδ hinterval _ (by decide) (by change s.now ≤ L + (seconds 30 + 6 * δ); linarith)⟩
  | wake hplace _ =>
      have hnow : s.now ≤ L + (seconds 30 + 6 * δ) + interval + δ := hlate hplace (by decide)
      exact ⟨L, hs.enter hδ hinterval _ (by decide) (by change s.now ≤ L + (seconds 30 + 7 * δ + interval); linarith)⟩
  | start o _ => exact ⟨s.now, hs.start hδ o⟩
  | returns c hplace hclient hended =>
      obtain ⟨hsince, hnow⟩ := hs.onTime fun _ x hx => Option.some.inj (hclient.symm.trans hx) ▸ hended
      rw [hplace] at hsince hnow
      have hsince' : s.since ≤ L + (seconds 30 + 4 * δ) := hsince
      have hnow' : s.now ≤ s.since + 0 + δ := hnow
      exact ⟨L, hs.enter hδ hinterval _ (by decide) (by change s.now ≤ L + (seconds 30 + 5 * δ); linarith)⟩
  | stopping hplace => exact absurd hs.going.2 (by simp [hplace])
  | reset hplace => exact absurd hs.going.2 (by simp [hplace])
  | client mv c c' hclient hallows hstep => exact hs.client hδ hclient hallows hstep
  | stop => exact absurd rfl hmv.1
  | tick d => exact ⟨L, hs.later hp⟩

end ClientThread

end HelpzClient
