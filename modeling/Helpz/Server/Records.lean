import Helpz.Lib.Run
import Mathlib.Data.List.Nodup

/-!
# The record threads of the server

`Server_Controller` keeps the records it receives in one queue. Each record thread pops a record under
`records_mutex_`, looks for the protocol of the node, takes the `record_mutex_` of the node and calls
`process_bytes`. Between the pop and the second lock another thread may overtake it.

* `Controller`, `step`: the queue, the records in the hands of threads, and every order of steps;
* `oldest`, `Kept`: the condition, on the state before a thread takes the `record_mutex_` of a node;
* `Ordered`: the invariant of one node, kept by each step (`ordered_step`);
* `records_in_order`: over every run; `single_thread_in_order`: with one thread.
-/

namespace HelpzServer

open HelpzLib

/-- `Record_Item`. -/
structure Record (ν : Type) where
  node : ν
  buffer : List UInt8
  deriving DecidableEq

/-- How far a thread is with the record it popped. -/
inductive Stage
  | popped
  /-- `record.node_->protocol()` is set, and `record_mutex_` is asked for -/
  | found
  /-- `record_mutex_` is held -/
  | locked
  deriving DecidableEq

/-- A record in the hands of a thread. -/
structure Hand (τ ν : Type) where
  thread : τ
  record : Record ν
  stage : Stage

/-- `Server_Controller` with threads `τ` and nodes `ν`. `hands` are the records popped and not done with, in
the order they were popped; `added` and `processed` are the arguments of `add_received_record` and
`process_bytes` so far. -/
structure Controller (τ ν : Type) where
  recordsQueue : List (Record ν)
  recordsThreadBreakFlag : Bool
  hands : List (Hand τ ν)
  /-- the nodes whose `record_mutex_` is held by `on_protocol_timeout` -/
  timerLock : ν → Bool
  hasProtocol : ν → Bool
  added : List (Record ν)
  processed : List (Record ν)

/-- One step of one thread. -/
inductive Move (τ ν : Type)
  | addReceivedRecord (r : Record ν)
  | pop (t : τ)
  | protocol (t : τ)
  | lock (t : τ)
  | processBytes (t : τ)
  | timerLock (n : ν)
  | timerUnlock (n : ν)
  | setProtocol (n : ν)
  | close (n : ν)
  | shutdown

namespace Controller

variable {τ ν : Type} [DecidableEq τ] [DecidableEq ν]

def start : Controller τ ν where
  recordsQueue := []
  recordsThreadBreakFlag := false
  hands := []
  timerLock := fun _ => false
  hasProtocol := fun _ => false
  added := []
  processed := []

/-- The record thread `t` is busy with. -/
def hand (s : Controller τ ν) (t : τ) : Option (Hand τ ν) := s.hands.find? fun h => decide (h.thread = t)

/-- The thread is done with its record. -/
def release (s : Controller τ ν) (t : τ) : Controller τ ν :=
  { s with hands := s.hands.eraseP fun h => decide (h.thread = t) }

/-- The thread gets on with its record. -/
def advance (s : Controller τ ν) (t : τ) (stage : Stage) : Controller τ ν :=
  { s with hands := s.hands.map fun h => if h.thread = t then { h with stage := stage } else h }

/-- The `record_mutex_` of the node is held. -/
def isLocked (s : Controller τ ν) (n : ν) : Bool :=
  s.timerLock n || s.hands.any fun h => decide (h.stage = .locked ∧ h.record.node = n)

/-- `add_received_record`, `records_thread_run` step by step, `on_protocol_timeout`, and what other threads do
to a node and the controller. A thread holds its record until `process_bytes` has returned. -/
def step (s : Controller τ ν) : Move τ ν → Option (Controller τ ν)
  | .addReceivedRecord r => some { s with recordsQueue := s.recordsQueue ++ [r], added := s.added ++ [r] }
  | .pop t =>
      if s.recordsThreadBreakFlag || (s.hand t).isSome then none
      else match s.recordsQueue with
        | [] => none
        | r :: q => some { s with recordsQueue := q, hands := s.hands ++ [⟨t, r, .popped⟩] }
  | .protocol t =>
      match s.hand t with
      | some ⟨_, r, .popped⟩ => some (if s.hasProtocol r.node then s.advance t .found else s.release t)
      | _ => none
  | .lock t =>
      match s.hand t with
      | some ⟨_, r, .found⟩ => if s.isLocked r.node then none else some (s.advance t .locked)
      | _ => none
  | .processBytes t =>
      match s.hand t with
      | some ⟨_, r, .locked⟩ => some { s.release t with processed := s.processed ++ [r] }
      | _ => none
  | .timerLock n =>
      if s.isLocked n then none else some { s with timerLock := Function.update s.timerLock n true }
  | .timerUnlock n => some { s with timerLock := Function.update s.timerLock n false }
  | .setProtocol n => some { s with hasProtocol := Function.update s.hasProtocol n true }
  | .close n => some { s with hasProtocol := Function.update s.hasProtocol n false }
  | .shutdown => some { s with recordsThreadBreakFlag := true }

/-- The records of one node. -/
def ofNode (n : ν) (l : List (Record ν)) : List (Record ν) := l.filter fun r => decide (r.node = n)

/-- The thread that popped the oldest of the records of the node that are in hands. -/
def oldest (s : Controller τ ν) (n : ν) : Option τ :=
  (s.hands.find? fun h => decide (h.record.node = n)).map Hand.thread

/-- The condition for node `n`: the thread that takes its `record_mutex_` has the oldest of its records, and
its protocol is there when a thread looks for it. -/
def Kept (n : ν) (s : Controller τ ν) : Move τ ν → Prop
  | .protocol t => ∀ h, s.hand t = some h → h.record.node = n → s.hasProtocol n = true
  | .lock t => ∀ h, s.hand t = some h → h.record.node = n → s.oldest n = some t
  | _ => True

instance decidableKept (n : ν) (s : Controller τ ν) : (mv : Move τ ν) → Decidable (s.Kept n mv)
  | .protocol t =>
      decidable_of_iff (∀ h ∈ s.hand t, h.record.node = n → s.hasProtocol n = true) Iff.rfl
  | .lock t => decidable_of_iff (∀ h ∈ s.hand t, h.record.node = n → s.oldest n = some t) Iff.rfl
  | .addReceivedRecord _ | .pop _ | .processBytes _ | .timerLock _ | .timerUnlock _ | .setProtocol _ | .close _ |
    .shutdown => inferInstanceAs (Decidable True)

variable {s s' : Controller τ ν} {t : τ} {n : ν} {h : Hand τ ν}

/-! ## Hands -/

omit [DecidableEq ν] in
theorem hand_eq_some (hh : s.hand t = some h) : h ∈ s.hands ∧ h.thread = t :=
  ⟨List.mem_of_find?_eq_some hh, by simpa using List.find?_some hh⟩

omit [DecidableEq ν] in
theorem notMem_of_hand_none (hh : s.hand t = none) : t ∉ s.hands.map Hand.thread := by
  intro hmem
  obtain ⟨h, hm, ht⟩ := List.mem_map.mp hmem
  have hne := List.find?_eq_none.mp hh h hm
  exact hne (decide_eq_true ht)

omit [DecidableEq ν] in
theorem hand_of_mem (hnd : (s.hands.map Hand.thread).Nodup) (hm : h ∈ s.hands) (ht : h.thread = t) :
    s.hand t = some h := by
  cases hh : s.hand t with
  | none => exact absurd (List.mem_map.mpr ⟨h, hm, ht⟩) (notMem_of_hand_none hh)
  | some h' =>
      obtain ⟨hm', ht'⟩ := hand_eq_some hh
      rw [List.inj_on_of_nodup_map hnd hm' hm (ht'.trans ht.symm)]

omit [DecidableEq ν] in
theorem records_advance (s : Controller τ ν) (t : τ) (stage : Stage) :
    (s.advance t stage).hands.map Hand.record = s.hands.map Hand.record := by
  rw [advance, List.map_map]
  refine List.map_congr_left fun h _ => ?_
  rw [Function.comp_apply]
  split_ifs <;> rfl

omit [DecidableEq ν] in
theorem threads_advance (s : Controller τ ν) (t : τ) (stage : Stage) :
    (s.advance t stage).hands.map Hand.thread = s.hands.map Hand.thread := by
  rw [advance, List.map_map]
  refine List.map_congr_left fun h _ => ?_
  rw [Function.comp_apply]
  split_ifs <;> rfl

theorem oldest_advance (s : Controller τ ν) (t : τ) (stage : Stage) (n : ν) :
    (s.advance t stage).oldest n = s.oldest n := by
  simp only [oldest, advance, List.find?_map, Option.map_map]
  have hp : ((fun h : Hand τ ν => decide (h.record.node = n)) ∘
      fun h : Hand τ ν => if h.thread = t then { h with stage := stage } else h) =
      fun h => decide (h.record.node = n) := by
    funext h
    rw [Function.comp_apply]
    split_ifs <;> rfl
  rw [hp]
  refine congrArg (fun f => Option.map f _) (funext fun h => ?_)
  rw [Function.comp_apply]
  split_ifs <;> rfl

omit [DecidableEq ν] in
theorem hands_release (hh : s.hand t = some h) :
    ∃ as bs, s.hands = as ++ h :: bs ∧ (s.release t).hands = as ++ bs ∧ ∀ x ∈ as, x.thread ≠ t := by
  obtain ⟨hp, as, bs, he, has⟩ := List.find?_eq_some_iff_append.mp hh
  have hne : ∀ x ∈ as, x.thread ≠ t := fun x hx => by simpa using has x hx
  refine ⟨as, bs, he, ?_, hne⟩
  simp only [release, he]
  rw [List.eraseP_append_right _ fun x hx => by simpa using hne x hx]
  exact congrArg (as ++ ·) (List.eraseP_cons_of_pos hp)

theorem ofNode_append (n : ν) (l l' : List (Record ν)) : ofNode n (l ++ l') = ofNode n l ++ ofNode n l' :=
  List.filter_append _ _

theorem ofNode_singleton_ne {r : Record ν} (hr : r.node ≠ n) : ofNode n [r] = [] := by simp [ofNode, hr]

theorem ofNode_singleton_self {r : Record ν} (hr : r.node = n) : ofNode n [r] = [r] := by simp [ofNode, hr]

/-- The records of the node in hands, in the order they were popped. -/
def inHands (s : Controller τ ν) (n : ν) : List (Record ν) := ofNode n (s.hands.map Hand.record)

theorem inHands_release_ne (hh : s.hand t = some h) (hn : h.record.node ≠ n) :
    (s.release t).inHands n = s.inHands n := by
  obtain ⟨as, bs, he, hr, _⟩ := hands_release hh
  rw [inHands, inHands, he, hr, List.map_append, List.map_append, List.map_cons, ofNode_append, ofNode_append,
    ← List.singleton_append, ofNode_append, ofNode_singleton_ne hn, List.nil_append]

/-- **The oldest record of the node is the first of those in hands.** -/
theorem inHands_release_oldest (hh : s.hand t = some h) (hn : h.record.node = n) (ho : s.oldest n = some t) :
    s.inHands n = h.record :: (s.release t).inHands n := by
  obtain ⟨as, bs, he, hr, hne⟩ := hands_release hh
  have hnone : as.find? (fun x => decide (x.record.node = n)) = none := by
    cases hf : as.find? fun x => decide (x.record.node = n) with
    | none => rfl
    | some x =>
        rw [oldest, he, List.find?_append, hf] at ho
        exact absurd (Option.some.inj ho) (hne x (List.mem_of_find?_eq_some hf))
  have hnil : ofNode n (as.map Hand.record) = [] := by
    refine List.filter_eq_nil_iff.mpr fun r hr' => ?_
    obtain ⟨x, hx, rfl⟩ := List.mem_map.mp hr'
    exact List.find?_eq_none.mp hnone x hx
  rw [inHands, inHands, he, hr, List.map_append, List.map_append, List.map_cons, ofNode_append, ofNode_append,
    hnil, ← List.singleton_append, ofNode_append, ofNode_singleton_self hn]
  rfl

theorem oldest_release_ne (hh : s.hand t = some h) (hn : h.record.node ≠ n) :
    (s.release t).oldest n = s.oldest n := by
  obtain ⟨as, bs, he, hr, _⟩ := hands_release hh
  rw [oldest, oldest, he, hr, List.find?_append, List.find?_append, List.find?_cons_of_neg (by simpa using hn)]

/-! ## The invariant of one node -/

/-- No thread has two records; the thread that holds the `record_mutex_` of the node has the oldest of its
records; and what was passed to `process_bytes`, what is in hands and what is in the queue make up what was
added, in order. -/
structure Ordered (n : ν) (s : Controller τ ν) : Prop where
  threads : (s.hands.map Hand.thread).Nodup
  first : ∀ h ∈ s.hands, h.stage = .locked → h.record.node = n → s.oldest n = some h.thread
  order : ofNode n s.processed ++ (s.inHands n ++ ofNode n s.recordsQueue) = ofNode n s.added

omit [DecidableEq τ] in
theorem ordered_start (n : ν) : (start : Controller τ ν).Ordered n :=
  ⟨List.nodup_nil, fun _ hm => (nomatch hm), rfl⟩

omit [DecidableEq τ] in
theorem Ordered.congr (ho : s.Ordered n) (h1 : s'.hands = s.hands) (h2 : s'.processed = s.processed)
    (h3 : s'.recordsQueue = s.recordsQueue) (h4 : s'.added = s.added) : s'.Ordered n := by
  obtain ⟨hnd, hfirst, horder⟩ := ho
  refine ⟨h1 ▸ hnd, fun h hm hl hn => ?_, ?_⟩
  · rw [oldest, h1]
    exact hfirst h (h1 ▸ hm) hl hn
  · rw [inHands, h1, h2, h3, h4]
    exact horder

omit [DecidableEq τ] in
theorem Ordered.addReceivedRecord (ho : s.Ordered n) (r : Record ν) :
    Ordered n { s with recordsQueue := s.recordsQueue ++ [r], added := s.added ++ [r] } := by
  refine ⟨ho.threads, ho.first, ?_⟩
  change ofNode n s.processed ++ (s.inHands n ++ ofNode n (s.recordsQueue ++ [r])) = ofNode n (s.added ++ [r])
  rw [ofNode_append, ofNode_append, ← ho.order]
  simp only [List.append_assoc]

theorem Ordered.pop (ho : s.Ordered n) (ht : s.hand t = none) {r : Record ν} {q : List (Record ν)}
    (hq : s.recordsQueue = r :: q) :
    Ordered n { s with recordsQueue := q, hands := s.hands ++ [⟨t, r, .popped⟩] } := by
  refine ⟨?_, fun h hm hl hn => ?_, ?_⟩
  · rw [List.map_append]
    refine List.nodup_append.mpr ⟨ho.threads, List.nodup_singleton _, fun a ha b hb => ?_⟩
    rintro rfl
    rw [List.mem_singleton.mp hb] at ha
    exact notMem_of_hand_none ht ha
  · rcases List.mem_append.mp hm with hm | hm
    · have hold := ho.first h hm hl hn
      obtain ⟨x, hx, hxt⟩ := Option.map_eq_some_iff.mp hold
      rw [oldest, List.find?_append, hx]
      exact congrArg some hxt
    · rw [List.mem_singleton.mp hm] at hl
      cases hl
  · have horder := ho.order
    rw [hq, ← List.singleton_append, ofNode_append] at horder
    rw [inHands, List.map_append, ofNode_append, List.append_assoc]
    exact horder

theorem Ordered.advance (ho : s.Ordered n) (t : τ) {stage : Stage}
    (hl : stage = .locked → ∀ h, s.hand t = some h → h.record.node = n → s.oldest n = some t) :
    (s.advance t stage).Ordered n := by
  refine ⟨by rw [threads_advance]; exact ho.threads, fun h hm hlocked hn => ?_, ?_⟩
  · rw [oldest_advance]
    obtain ⟨x, hx, rfl⟩ := List.mem_map.mp hm
    by_cases hxt : x.thread = t
    · simp only [if_pos hxt] at hlocked hn ⊢
      rw [hxt]
      exact hl hlocked x (hand_of_mem ho.threads hx hxt) hn
    · simp only [if_neg hxt] at hlocked hn ⊢
      exact ho.first x hx hlocked hn
  · rw [inHands, records_advance]
    exact ho.order

theorem Ordered.release_ne (ho : s.Ordered n) (hh : s.hand t = some h) (hn : h.record.node ≠ n) :
    (s.release t).Ordered n := by
  obtain ⟨as, bs, he, hr, _⟩ := hands_release hh
  have hsub : (s.release t).hands.Sublist s.hands := List.eraseP_sublist
  refine ⟨ho.threads.sublist (hsub.map _), fun x hx hl hxn => ?_, ?_⟩
  · rw [oldest_release_ne hh hn]
    exact ho.first x (hsub.subset hx) hl hxn
  · rw [inHands_release_ne hh hn]
    exact ho.order

/-- **The record of the node that is processed is the oldest one in hands.** -/
theorem Ordered.processBytes (ho : s.Ordered n) (hh : s.hand t = some h) (hl : h.stage = .locked) :
    Ordered n { s.release t with processed := s.processed ++ [h.record] } := by
  obtain ⟨hm, ht⟩ := hand_eq_some hh
  by_cases hn : h.record.node = n
  · have hold : s.oldest n = some t := ht ▸ ho.first h hm hl hn
    obtain ⟨as, bs, he, hr, hne⟩ := hands_release hh
    have hsub : (s.release t).hands.Sublist s.hands := List.eraseP_sublist
    refine ⟨ho.threads.sublist (hsub.map _), fun x hx hxl hxn => ?_, ?_⟩
    · -- no other thread holds the mutex
      have hxt := (ho.first x (hsub.subset hx) hxl hxn).symm.trans hold
      have hnd := ho.threads
      rw [he, List.map_append, List.map_cons, List.nodup_middle, List.nodup_cons, ← List.map_append, ← hr] at hnd
      exact absurd (List.mem_map.mpr ⟨x, hx, (Option.some.inj hxt).trans ht.symm⟩) hnd.1
    · have horder := ho.order
      rw [inHands_release_oldest hh hn hold] at horder
      change ofNode n (s.processed ++ [h.record]) ++ ((s.release t).inHands n ++ ofNode n s.recordsQueue) =
        ofNode n s.added
      rw [ofNode_append, ofNode_singleton_self hn, List.append_assoc]
      exact horder
  · have hrel := ho.release_ne hh hn
    refine ⟨hrel.threads, hrel.first, ?_⟩
    have horder := hrel.order
    change ofNode n (s.processed ++ [h.record]) ++ ((s.release t).inHands n ++ ofNode n s.recordsQueue) =
      ofNode n s.added
    rw [ofNode_append, ofNode_singleton_ne hn, List.append_nil]
    exact horder

/-- **Every step that meets the condition keeps the records of the node in order.** -/
theorem ordered_step (s : Controller τ ν) (mv : Move τ ν) (s' : Controller τ ν) (ho : s.Ordered n)
    (hk : s.Kept n mv) (hs : s.step mv = some s') : s'.Ordered n := by
  cases mv with
  | addReceivedRecord r => exact Option.some.inj hs ▸ ho.addReceivedRecord r
  | pop t =>
      simp only [step] at hs
      split_ifs at hs with hbusy
      have ht : s.hand t = none := by
        rw [Bool.or_eq_true, not_or] at hbusy
        exact Option.not_isSome_iff_eq_none.mp hbusy.2
      cases hq : s.recordsQueue with
      | nil => simp [hq] at hs
      | cons r q =>
          simp only [hq] at hs
          exact Option.some.inj hs ▸ ho.pop ht hq
  | protocol t =>
      simp only [step] at hs
      split at hs
      next x r hh =>
        obtain rfl := Option.some.inj hs
        split_ifs with hproto
        · exact ho.advance t nofun
        · refine ho.release_ne hh fun hn => hproto ?_
          have hset := hk _ hh hn
          rwa [hn]
      next => cases hs
  | lock t =>
      simp only [step] at hs
      split at hs
      next x r hh =>
        split_ifs at hs
        exact Option.some.inj hs ▸ ho.advance t fun _ => hk
      next => cases hs
  | processBytes t =>
      simp only [step] at hs
      split at hs
      next x r hh => exact Option.some.inj hs ▸ ho.processBytes hh rfl
      next => cases hs
  | timerLock m =>
      simp only [step] at hs
      split_ifs at hs
      exact Option.some.inj hs ▸ ho.congr rfl rfl rfl rfl
  | timerUnlock m => exact Option.some.inj hs ▸ ho.congr rfl rfl rfl rfl
  | setProtocol m => exact Option.some.inj hs ▸ ho.congr rfl rfl rfl rfl
  | close m => exact Option.some.inj hs ▸ ho.congr rfl rfl rfl rfl
  | shutdown => exact Option.some.inj hs ▸ ho.congr rfl rfl rfl rfl

/-- **Records reach a protocol in the order they were added**, none lost and none repeated, in every run in
which each thread that takes the `record_mutex_` of the node has the oldest of its records that are in
hands, as long as the node has its protocol. -/
theorem records_in_order (n : ν) (moves : List (Move τ ν)) (hk : Along step (Kept n) start moves)
    (s : Controller τ ν) (hrun : moves.foldlM step start = some s) :
    ofNode n s.processed ++ (ofNode n (s.hands.map Hand.record) ++ ofNode n s.recordsQueue) =
      ofNode n s.added :=
  (hk.invariant ordered_step (ordered_start n) hrun).order

/-! ## One thread -/

theorem oldest_of_subsingleton [Subsingleton τ] (hh : s.hand t = some h) (hn : h.record.node = n) :
    s.oldest n = some t := by
  obtain ⟨hm, _⟩ := hand_eq_some hh
  have hsome : (s.hands.find? fun x => decide (x.record.node = n)).isSome = true :=
    List.find?_isSome.mpr ⟨h, hm, decide_eq_true hn⟩
  obtain ⟨x, hx⟩ := Option.isSome_iff_exists.mp hsome
  rw [oldest, hx]
  exact congrArg some (Subsingleton.elim _ _)

/-- One record thread keeps the order of every node, as long as the node has its protocol. -/
theorem single_thread_in_order [Subsingleton τ] (n : ν) (moves : List (Move τ ν))
    (hk : Along step (fun s mv => ∀ t h, mv = .protocol t → s.hand t = some h → h.record.node = n →
      s.hasProtocol n = true) start moves) (s : Controller τ ν) (hrun : moves.foldlM step start = some s) :
    ofNode n s.processed ++ (s.inHands n ++ ofNode n s.recordsQueue) = ofNode n s.added := by
  refine (hk.invariant (I := Ordered n) (fun s mv s' ho hset hs => ?_) (ordered_start n) hrun).order
  refine ordered_step s mv s' ho ?_ hs
  cases mv with
  | protocol t => exact fun h => hset t h rfl
  | lock t => exact fun h hh hn => oldest_of_subsingleton hh hn
  | _ => trivial

/-! ## Two threads -/

/-- Two records of one node; thread `false` pops the first, thread `true` the second. -/
def twoPopped : List (Move Bool ℕ) :=
  [.setProtocol 0, .addReceivedRecord ⟨0, [1]⟩, .addReceivedRecord ⟨0, [2]⟩, .pop false, .pop true,
    .protocol false, .protocol true]

/-- Thread `false` takes the mutex first. -/
def inTurn : List (Move Bool ℕ) := twoPopped ++ [.lock false, .processBytes false, .lock true, .processBytes true]

theorem records_in_order_inTurn : ∃ s, inTurn.foldlM step start = some s ∧
    ofNode 0 s.processed ++ (ofNode 0 (s.hands.map Hand.record) ++ ofNode 0 s.recordsQueue) =
      ofNode 0 s.added :=
  ⟨_, rfl, records_in_order 0 inTurn (by decide) _ rfl⟩

/-- Thread `true` takes the mutex first. -/
def overtaking : List (Move Bool ℕ) := twoPopped ++ [.lock true, .processBytes true]

theorem records_overtaken : ¬ ∀ (moves : List (Move Bool ℕ)) (s : Controller Bool ℕ),
    moves.foldlM step start = some s → ∀ n, ofNode n s.processed <+: ofNode n s.added := by
  intro h
  have hprefix := h overtaking _ rfl 0
  revert hprefix
  decide

end Controller

end HelpzServer
