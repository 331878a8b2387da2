import Helpz.Lib.Decimal
import Helpz.Lib.Frames
import Helpz.Lib.Run
import Mathlib.Algebra.Ring.Int.Defs
import Mathlib.Data.List.TakeWhile
import Mathlib.Logic.Function.Basic

/-!
# Commands for a service

A controller sends a command to a service as a line over a local socket. The service keeps, for each socket, what it
has read of a line that has not ended.

* `getCommand`, `serve`, `slotReady`: the service takes the lines out of what it has read, and executes them;
* `handle`: what it does for a command, and its answer;
* `Service`, `step`: sockets that connect, send and close, in any order; `Conn`: what has come over a connection;
* `Accounts`, `accounts_run`: what a connection has executed, and what is left in its cache, are the commands in what
  was left at its address before and what it has sent;
* `Request`, `request_served`: the requests of a controller, and what the service does for one.
-/

namespace HelpzService

open HelpzLib

/-- A text of the source's `QString`. -/
abbrev Text : Type := List Char

def crlf : Text := ['\r', '\n']

/-- `getCommand`: the next line and what follows it, or the empty text. -/
def getCommand (cache : Text) : Text × Text :=
  match find crlf cache with
  | some pos => (cache.take pos, cache.drop (pos + 2))
  | none => ([], cache)

/-- The loop of `slotReady`, at most `fuel` times: the commands up to an empty one, and what is left. -/
def serve : ℕ → Text → List Text × Text
  | 0, cache => ([], cache)
  | fuel + 1, cache =>
      match getCommand cache with
      | ([], cache) => ([], cache)
      | (cmd, cache) => (cmd :: (serve fuel cache).1, (serve fuel cache).2)

/-- `slotReady`: what has come is put behind the cache, and its commands are taken out. Each of them takes at least two
characters. -/
def slotReady (cache chunk : Text) : List Text × Text := serve (cache ++ chunk).length (cache ++ chunk)

/-- The commands in a text: its lines that are not empty. -/
def commands (text : Text) : List Text := (frames crlf text).1.filter fun line => line ≠ []

theorem crlf_ne : crlf ≠ [] := by decide

theorem getCommand_none {cache : Text} (h : find crlf cache = none) : getCommand cache = ([], cache) := by
  rw [getCommand, h]

theorem getCommand_some {cache : Text} {pos : ℕ} (h : find crlf cache = some pos) :
    getCommand cache = (cache.take pos, cache.drop (pos + 2)) := by
  rw [getCommand, h]

/-- **The loop takes the first commands out, in order.** What is left in the cache is the rest of them; unless there
was an empty line, it is no command. -/
theorem serve_spec {fuel : ℕ} {cache : Text} (hfuel : cache.length ≤ fuel) :
    (serve fuel cache).1 ++ commands (serve fuel cache).2 = commands cache ∧
      (frames crlf (serve fuel cache).2).2 = (frames crlf cache).2 ∧
      ([] ∉ (frames crlf cache).1 → (frames crlf (serve fuel cache).2).1 = []) := by
  induction fuel generalizing cache with
  | zero =>
      obtain rfl := List.length_eq_zero_iff.mp (Nat.le_zero.mp hfuel)
      have hnone : find crlf [] = none := by decide
      refine ⟨rfl, rfl, fun _ => ?_⟩
      rw [serve, frames_none hnone]
  | succ fuel ih =>
      cases h : find crlf cache with
      | none =>
          rw [serve, getCommand_none h]
          exact ⟨rfl, rfl, fun _ => by rw [frames_none h]⟩
      | some pos =>
          have hle : pos + 2 ≤ cache.length := find_le_length h
          have hframes := frames_some crlf_ne h
          have hlen : (cache.drop (pos + 2)).length ≤ fuel := by
            rw [List.length_drop]
            omega
          obtain ⟨hcommands, hrest, hnone⟩ := ih hlen
          change _ = (_ :: (frames crlf (cache.drop (pos + 2))).1, (frames crlf (cache.drop (pos + 2))).2) at hframes
          rw [serve, getCommand_some h]
          cases hcmd : cache.take pos with
          | nil =>
              rw [hcmd] at hframes
              refine ⟨?_, by rw [hframes], fun hempty => ?_⟩
              · rw [commands, commands, hframes]
                simp
              · rw [hframes] at hempty
                exact absurd List.mem_cons_self hempty
          | cons c cmd =>
              rw [hcmd] at hframes
              refine ⟨?_, by rw [hframes]; exact hrest, fun hempty => ?_⟩
              · rw [commands] at hcommands
                rw [commands, commands, hframes, List.filter_cons, if_pos (by simp), List.cons_append, hcommands]
                rfl
              · rw [hframes] at hempty
                exact hnone fun hmem => hempty (List.mem_cons_of_mem _ hmem)

/-! ## The service -/

/-- What is called for a command. -/
inductive Call
  | stop
  | quit
  | pause
  | resume
  | processCommands (args : List Text)
  | processCommand (code : ℤ)
  deriving DecidableEq, Repr

/-- The flags of the service, its file, and how the text of a `QByteArray` and the number of a text are read. -/
structure Env where
  cannotBeStopped : Bool
  canBeSuspended : Bool
  applicationFilePath : Text
  fromUtf8 : List ℕ → Text
  toInt : Text → ℤ

/-- What `slotReady` does for a command, and whether it answers that it did. -/
def handle (env : Env) (cmd : Text) : List Call × Bool :=
  if cmd = "terminate".toList then
    if !env.cannotBeStopped then ([.stop, .quit], true) else ([], false)
  else if cmd = "pause".toList then
    if env.canBeSuspended then ([.pause], true) else ([], false)
  else if cmd = "resume".toList then
    if env.canBeSuspended then ([.resume], true) else ([], false)
  else if cmd = "alive".toList then ([], true)
  else if 5 < cmd.length ∧ cmd.take 5 = "list:".toList then
    ([.processCommands (env.applicationFilePath :: (cmd.drop 5).splitOn '|')], true)
  else if 4 < cmd.length ∧ cmd.take 4 = "num:".toList then ([.processCommand (env.toInt (cmd.drop 4))], true)
  else ([], false)

/-- `retString`. -/
def answer (retValue : Bool) : Text := if retValue then "true".toList else "false".toList

/-- A connection: what was in the cache of its socket's address when it connected, what it has sent, the commands that
were executed, the calls that were made, and what was written to it. -/
structure Conn where
  leftover : Text
  chunks : List (List ℕ)
  executed : List Text
  calls : List Call
  written : Text
  deriving DecidableEq, Repr

/-- The service: the cache of each address of a socket, the connections, and those that have ended, with what they left
in the cache. -/
structure Service (A : Type) where
  cache : A → Text
  conn : A → Option Conn
  ended : List (A × Conn × Text)

inductive Move (A : Type)
  | incomingConnection (a : A)
  | readyRead (a : A) (bytes : List ℕ)
  | disconnected (a : A)

variable {A : Type} [DecidableEq A]

/-- The service as it is started. -/
def Service.init : Service A := ⟨fun _ => [], fun _ => none, []⟩

/-- What a connection is after `slotReady`. -/
def Conn.read (env : Env) (c : Conn) (bytes : List ℕ) (cmds : List Text) : Conn where
  leftover := c.leftover
  chunks := c.chunks ++ [bytes]
  executed := c.executed ++ cmds
  calls := c.calls ++ cmds.flatMap fun cmd => (handle env cmd).1
  written := c.written ++ cmds.flatMap fun cmd => answer (handle env cmd).2

/-- `incomingConnection`, `slotReady` and `slotClosed`. A new socket is not at the address of one that is connected, but
it may be at that of one that is not any more; the cache of the address is still there then. -/
def step (env : Env) (s : Service A) : Move A → Option (Service A)
  | .incomingConnection a =>
      match s.conn a with
      | some _ => none
      | none => some { s with conn := Function.update s.conn a (some ⟨s.cache a, [], [], [], []⟩) }
  | .readyRead a bytes =>
      (s.conn a).map fun c =>
        let r := slotReady (s.cache a) (env.fromUtf8 bytes)
        { s with
          cache := Function.update s.cache a r.2
          conn := Function.update s.conn a (some (c.read env bytes r.1)) }
  | .disconnected a =>
      (s.conn a).map fun c =>
        { s with
          conn := Function.update s.conn a none
          ended := s.ended ++ [(a, c, s.cache a)] }

/-! ## What a connection has executed -/

/-- What has come over a connection, with what was left before. -/
def Conn.text (env : Env) (c : Conn) : Text := c.leftover ++ (c.chunks.map env.fromUtf8).flatten

/-- What a connection has executed, with the commands in the cache, are the commands of the text; the beginning of a
line that has not ended is still there; and once something has come, and unless there was an empty line, no command is
left in the cache. -/
structure Accounts (env : Env) (c : Conn) (cache : Text) : Prop where
  executed : c.executed ++ commands cache = commands (c.text env)
  rest : (frames crlf cache).2 = (frames crlf (c.text env)).2
  none_left : c.chunks ≠ [] → [] ∉ (frames crlf (c.text env)).1 → (frames crlf cache).1 = []
  first : c.chunks = [] → cache = c.leftover
  calls : c.calls = c.executed.flatMap fun cmd => (handle env cmd).1
  written : c.written = c.executed.flatMap fun cmd => answer (handle env cmd).2

theorem commands_append (l m : Text) : commands (l ++ m) = commands l ++ commands ((frames crlf l).2 ++ m) := by
  rw [commands, frames_append crlf_ne, List.filter_append]
  rfl

theorem frames_snd_of_nil {l : Text} (h : (frames crlf l).1 = []) : (frames crlf l).2 = l := by
  cases hfind : find crlf l with
  | none => rw [frames_none hfind]
  | some p =>
      rw [frames_some crlf_ne hfind] at h
      cases h

theorem accounts_new (env : Env) (cache : Text) : Accounts env ⟨cache, [], [], [], []⟩ cache := by
  constructor <;> simp [Conn.text]

/-- **What comes is executed behind what was executed before.** -/
theorem accounts_read {env : Env} {c : Conn} {cache : Text} (h : Accounts env c cache) (bytes : List ℕ) :
    Accounts env (c.read env bytes (slotReady cache (env.fromUtf8 bytes)).1)
      (slotReady cache (env.fromUtf8 bytes)).2 := by
  set chunk := env.fromUtf8 bytes with hchunk
  obtain ⟨hexec, hrest, hleft⟩ := serve_spec (show (cache ++ chunk).length ≤ (cache ++ chunk).length from le_rfl)
  have htext : (c.read env bytes (slotReady cache chunk).1).text env = c.text env ++ chunk := by
    simp [Conn.text, Conn.read, hchunk]
  have hsplit := frames_append crlf_ne (c.text env) chunk
  constructor
  · rw [htext, commands_append, ← h.executed, ← h.rest, List.append_assoc, ← commands_append, ← hexec]
    simp [Conn.read, slotReady]
  · rw [htext, hsplit, ← h.rest, slotReady, hrest, frames_append crlf_ne]
  · intro _ hempty
    rw [htext] at hempty
    refine hleft fun hmem => hempty ?_
    cases hchunks : c.chunks with
    | nil =>
        have hcache : cache = c.text env := by rw [h.first hchunks, Conn.text, hchunks]; simp
        rwa [← hcache]
    | cons bytes' chunks =>
        rw [hsplit] at hempty ⊢
        simp only [List.mem_append, not_or] at hempty
        have hcache := h.none_left (by rw [hchunks]; simp) hempty.1
        rw [← h.rest, frames_snd_of_nil hcache]
        exact List.mem_append_right _ hmem
  · intro hnil
    simp [Conn.read] at hnil
  · simp [Conn.read, h.calls]
  · simp [Conn.read, h.written]

/-! ## Runs -/

/-- What the last connection at an address has left in its cache. -/
def lastLeft (ended : List (A × Conn × Text)) (a : A) : Text :=
  ended.foldl (fun left e => if e.1 = a then e.2.2 else left) []

theorem lastLeft_append (ended : List (A × Conn × Text)) (e : A × Conn × Text) (a : A) :
    lastLeft (ended ++ [e]) a = if e.1 = a then e.2.2 else lastLeft ended a := by
  rw [lastLeft, List.foldl_append]
  rfl

/-- Each connection, open or not, accounts for what has come over it and for what the one before it at its address has
left. -/
structure Sound (env : Env) (s : Service A) : Prop where
  accounts : ∀ a c, s.conn a = some c → Accounts env c (s.cache a) ∧ c.leftover = lastLeft s.ended a
  cache : ∀ a, s.conn a = none → s.cache a = lastLeft s.ended a
  ended : ∀ before a c left after, s.ended = before ++ (a, c, left) :: after →
    Accounts env c left ∧ c.leftover = lastLeft before a

theorem sound_init (env : Env) : Sound env (Service.init : Service A) where
  accounts a c h := by cases h
  cache a _ := rfl
  ended before a c left after h := by simp [Service.init] at h

theorem sound_step {env : Env} {s s' : Service A} (h : Sound env s) {m : Move A} (hstep : step env s m = some s') :
    Sound env s' := by
  cases m with
  | incomingConnection a =>
      rw [step] at hstep
      cases hconn : s.conn a with
      | some c =>
          rw [hconn] at hstep
          cases hstep
      | none =>
          rw [hconn] at hstep
          cases hstep
          refine ⟨fun b c hb => ?_, fun b hb => ?_, h.ended⟩
          · dsimp only at hb ⊢
            by_cases hab : b = a
            · subst hab
              rw [Function.update_self] at hb
              cases hb
              exact ⟨accounts_new env (s.cache b), h.cache b hconn⟩
            · rw [Function.update_of_ne hab] at hb
              exact h.accounts b c hb
          · dsimp only at hb ⊢
            by_cases hab : b = a
            · subst hab
              rw [Function.update_self] at hb
              cases hb
            · rw [Function.update_of_ne hab] at hb
              exact h.cache b hb
  | readyRead a bytes =>
      obtain ⟨c, hconn, rfl⟩ := Option.map_eq_some_iff.mp hstep
      obtain ⟨haccounts, hleftover⟩ := h.accounts a c hconn
      refine ⟨fun b c' hb => ?_, fun b hb => ?_, h.ended⟩
      · dsimp only at hb ⊢
        by_cases hab : b = a
        · subst hab
          rw [Function.update_self] at hb
          cases hb
          rw [Function.update_self]
          exact ⟨accounts_read haccounts bytes, hleftover⟩
        · rw [Function.update_of_ne hab] at hb ⊢
          exact h.accounts b c' hb
      · dsimp only at hb ⊢
        by_cases hab : b = a
        · subst hab
          rw [Function.update_self] at hb
          cases hb
        · rw [Function.update_of_ne hab] at hb ⊢
          exact h.cache b hb
  | disconnected a =>
      obtain ⟨c, hconn, rfl⟩ := Option.map_eq_some_iff.mp hstep
      obtain ⟨haccounts, hleftover⟩ := h.accounts a c hconn
      refine ⟨fun b c' hb => ?_, fun b hb => ?_, fun before b c' left after hended => ?_⟩
      · dsimp only at hb ⊢
        have hab : b ≠ a := by
          rintro rfl
          rw [Function.update_self] at hb
          cases hb
        rw [Function.update_of_ne hab] at hb
        rw [lastLeft_append, if_neg fun he => hab he.symm]
        exact h.accounts b c' hb
      · dsimp only at hb ⊢
        rw [lastLeft_append]
        split_ifs with hab
        · rw [← hab]
        · rw [Function.update_of_ne fun he => hab he.symm] at hb
          exact h.cache b hb
      · rcases List.eq_nil_or_concat after with rfl | ⟨after, last, rfl⟩
        · obtain ⟨rfl, he⟩ := List.append_inj' hended rfl
          cases he
          exact ⟨haccounts, hleftover⟩
        · have hsplit : s.ended ++ [(a, c, s.cache a)] = (before ++ (b, c', left) :: after) ++ [last] :=
            hended.trans (by simp)
          exact h.ended before b c' left after (List.append_inj' hsplit rfl).1

/-- **A connection executes the commands in what was left at its address and what it has sent**: in every run, what it
has executed and what is left in its cache are these commands, in order, and what was left is what the connection
before it at this address left. -/
theorem accounts_run {env : Env} {moves : List (Move A)} {s : Service A}
    (h : moves.foldlM (step env) Service.init = some s) :
    (∀ a c, s.conn a = some c → Accounts env c (s.cache a) ∧ c.leftover = lastLeft s.ended a) ∧
      ∀ before a c left after, s.ended = before ++ (a, c, left) :: after →
        Accounts env c left ∧ c.leftover = lastLeft before a :=
  have hsound : Sound env s := invariant_foldlM (fun _ _ _ hs => sound_step hs) (sound_init env) h
  ⟨hsound.accounts, hsound.ended⟩

/-- A service that can be stopped and suspended, with texts in ASCII. -/
def plainEnv : Env :=
  ⟨false, true, "srv".toList, fun bytes => bytes.map Char.ofNat, fun text => (readDecimal text).getD 0⟩

def bytes (text : String) : List ℕ := text.toList.map Char.toNat

/-- A connection ends in the middle of a command, and the next one at its address pays for it: its command is another
one then. -/
theorem accounts_run_reused :
    ∃ s c, [Move.incomingConnection 0, .readyRead 0 (bytes "alive\r\npau"), .disconnected 0, .incomingConnection 0,
        .readyRead 0 (bytes "resume\r"), .readyRead 0 (bytes "\nalive\r\n")].foldlM (step plainEnv) Service.init =
          some s ∧ s.conn 0 = some c ∧ c.executed = ["pauresume".toList, "alive".toList] ∧ c.calls = [] ∧
        c.executed ++ commands (s.cache 0) = commands (c.text plainEnv) ∧ c.leftover = "pau".toList := by
  obtain ⟨s, hrun, c, hconn, hexec, hcalls, hleft⟩ : ∃ s, [Move.incomingConnection 0,
      .readyRead 0 (bytes "alive\r\npau"), .disconnected 0, .incomingConnection 0, .readyRead 0 (bytes "resume\r"),
      .readyRead 0 (bytes "\nalive\r\n")].foldlM (step plainEnv) Service.init = some s ∧
        ∃ c, s.conn 0 = some c ∧ c.executed = ["pauresume".toList, "alive".toList] ∧ c.calls = [] ∧
          lastLeft s.ended 0 = "pau".toList :=
    ⟨_, rfl, _, rfl, by decide, by decide, by decide⟩
  obtain ⟨haccounts, hleftover⟩ := (accounts_run hrun).1 0 c hconn
  exact ⟨s, c, hrun, hconn, hexec, hcalls, haccounts.executed, hleftover.trans hleft⟩

/-! ## Requests of a controller -/

/-- `stop`, `pause`, `resume`, `sendCommand` and `sendCommands` of a controller. -/
inductive Request
  | stop
  | pause
  | resume
  | sendCommand (code : ℤ)
  | sendCommands (cmdList : List Text)

namespace Request

/-- The command of a request. -/
def cmd : Request → Text
  | .stop => "terminate".toList
  | .pause => "pause".toList
  | .resume => "resume".toList
  | .sendCommand code => "num:".toList ++ decimal code
  | .sendCommands cmdList => "list:".toList ++ ['|'].intercalate cmdList

/-- `toLatin1`, up to the first null character: what `sendCmd` writes. -/
def wire (r : Request) : List ℕ :=
  ((r.cmd ++ crlf).map fun c => if c.toNat < 256 then c.toNat else 63).takeWhile (· ≠ 0)

/-- What a service calls for a request. A list that is written as the empty text is none. -/
def calls (env : Env) : Request → List Call
  | .stop => if env.cannotBeStopped then [] else [.stop, .quit]
  | .pause => if env.canBeSuspended then [.pause] else []
  | .resume => if env.canBeSuspended then [.resume] else []
  | .sendCommand code => [.processCommand code]
  | .sendCommands cmdList =>
      if ['|'].intercalate cmdList = [] then [] else [.processCommands (env.applicationFilePath :: cmdList)]

/-- Whether it accepts the request. -/
def accepted (env : Env) : Request → Bool
  | .stop => !env.cannotBeStopped
  | .pause => env.canBeSuspended
  | .resume => env.canBeSuspended
  | .sendCommand _ => true
  | .sendCommands cmdList => ['|'].intercalate cmdList ≠ []

/-- An ASCII character that is neither null nor a line feed. -/
def IsPlain (c : Char) : Prop := 0 < c.toNat ∧ c.toNat < 128 ∧ c ≠ '\n'

instance (c : Char) : Decidable (IsPlain c) := inferInstanceAs (Decidable (_ ∧ _ ∧ _))

/-- A number is a 32-bit one, and the texts of a list are ASCII without the separators. -/
def Sendable : Request → Prop
  | .sendCommand code => -2 ^ 31 ≤ code ∧ code < 2 ^ 31
  | .sendCommands cmdList => ∀ text ∈ cmdList, ∀ c ∈ text, IsPlain c ∧ c ≠ '|'
  | _ => True

end Request

/-- `sendCmd`: whether the reply says so. -/
def sendCmd (reply : Text) : Bool := reply = "true".toList

/-- ASCII is read as it is, and so are the texts of 32-bit numbers. -/
structure Env.Reads (env : Env) : Prop where
  ascii : ∀ bytes, (∀ b ∈ bytes, 0 < b ∧ b < 128) → env.fromUtf8 bytes = bytes.map Char.ofNat
  number : ∀ n : ℤ, -2 ^ 31 ≤ n → n < 2 ^ 31 → env.toInt (decimal n) = n

section

variable {env : Env} {r : Request}

open Request

theorem forall_of_all {P : Char → Prop} [DecidablePred P] {text : Text} (h : text.all (fun c => decide (P c)) = true) :
    ∀ c ∈ text, P c :=
  fun c hc => of_decide_eq_true (List.all_eq_true.mp h c hc)

theorem crlf_ascii : ∀ c ∈ crlf, 0 < c.toNat ∧ c.toNat < 128 := by
  intro c hc
  rcases List.mem_pair.mp hc with rfl | rfl <;> decide

theorem isPlain_decimal (n : ℤ) : ∀ c ∈ decimal n, IsPlain c := by
  have hdigits : ∀ k, ∀ c ∈ Nat.toDigits 10 k, IsPlain c := by
    intro k c hc
    have hdigit := isDigit_of_mem hc
    simp only [Char.isDigit, Bool.and_eq_true, decide_eq_true_eq, ge_iff_le, UInt32.le_iff_toNat_le] at hdigit
    have hlow : 48 ≤ c.toNat := hdigit.1
    have hhigh : c.toNat ≤ 57 := hdigit.2
    refine ⟨by omega, by omega, ?_⟩
    rintro rfl
    exact absurd hlow (by decide)
  cases n with
  | ofNat n => exact hdigits n
  | negSucc n =>
      intro c hc
      rcases List.mem_cons.mp hc with rfl | hc
      · exact ⟨by decide, by decide, by decide⟩
      · exact hdigits _ c hc

theorem mem_intercalate {sep : Text} {ls : List Text} {c : Char} (h : c ∈ sep.intercalate ls) :
    c ∈ sep ∨ ∃ l ∈ ls, c ∈ l := by
  induction ls with
  | nil => cases h
  | cons l ls ih =>
      cases ls with
      | nil => exact Or.inr ⟨l, List.mem_cons_self, by simpa using h⟩
      | cons l' ls =>
          rw [List.intercalate_cons_cons] at h
          simp only [List.mem_append] at h
          rcases h with (hl | hsep) | htail
          · exact Or.inr ⟨l, List.mem_cons_self, hl⟩
          · exact Or.inl hsep
          · rcases ih htail with hsep | ⟨k, hk, hc⟩
            · exact Or.inl hsep
            · exact Or.inr ⟨k, List.mem_cons_of_mem l hk, hc⟩

theorem isPlain_cmd (hr : r.Sendable) : ∀ c ∈ r.cmd, IsPlain c := by
  cases r with
  | stop => exact forall_of_all rfl
  | pause => exact forall_of_all rfl
  | resume => exact forall_of_all rfl
  | sendCommand code =>
      intro c hc
      rcases List.mem_append.mp hc with hc | hc
      · exact forall_of_all rfl c hc
      · exact isPlain_decimal code c hc
  | sendCommands cmdList =>
      intro c hc
      rcases List.mem_append.mp hc with hc | hc
      · exact forall_of_all rfl c hc
      · rcases mem_intercalate hc with hsep | ⟨text, htext, hc⟩
        · rw [List.mem_singleton.mp hsep]
          exact ⟨by decide, by decide, by decide⟩
        · exact (hr text htext c hc).1

theorem isFrame_cmd (hr : r.Sendable) : IsFrame crlf r.cmd := by
  intro m
  have hfind : find crlf (r.cmd ++ (crlf ++ m)) = (find crlf (crlf ++ m)).map (· + r.cmd.length) := by
    refine find_append fun p hp hpre => ?_
    rw [List.drop_append_of_le_length hp.le] at hpre
    have hpos : 0 < (r.cmd.drop p).length := by
      rw [List.length_drop]
      omega
    obtain ⟨c, tail, htail⟩ := List.exists_cons_of_length_pos hpos
    rw [htail] at hpre
    obtain ⟨-, hpre⟩ := List.cons_prefix_cons.mp hpre
    cases tail with
    | nil =>
        obtain ⟨he, -⟩ := List.cons_prefix_cons.mp hpre
        exact absurd he (by decide)
    | cons d tail =>
        obtain ⟨rfl, -⟩ := List.cons_prefix_cons.mp hpre
        have hmem : '\n' ∈ r.cmd := List.mem_of_mem_drop (htail ▸ List.mem_cons_of_mem c List.mem_cons_self)
        exact (isPlain_cmd hr '\n' hmem).2.2 rfl
  rw [hfind, find_eq_zero (List.prefix_append _ _), Option.map_some, Nat.zero_add]

theorem wire_eq (hr : r.Sendable) : r.wire = (r.cmd ++ crlf).map Char.toNat := by
  have hplain : ∀ c ∈ r.cmd ++ crlf, 0 < c.toNat ∧ c.toNat < 128 := by
    intro c hc
    rcases List.mem_append.mp hc with hc | hc
    · exact ⟨(isPlain_cmd hr c hc).1, (isPlain_cmd hr c hc).2.1⟩
    · exact crlf_ascii c hc
  have hmap : (r.cmd ++ crlf).map (fun c => if c.toNat < 256 then c.toNat else 63) =
      (r.cmd ++ crlf).map Char.toNat := by
    refine List.map_congr_left fun c hc => if_pos ?_
    have := (hplain c hc).2
    omega
  rw [wire, hmap, List.takeWhile_eq_self_iff]
  intro b hb
  obtain ⟨c, hc, rfl⟩ := List.mem_map.mp hb
  have := (hplain c hc).1
  simp
  omega

theorem handle_of_colon (env : Env) {cmd : Text} (h : ':' ∈ cmd) :
    handle env cmd =
      if 5 < cmd.length ∧ cmd.take 5 = "list:".toList then
        ([.processCommands (env.applicationFilePath :: (cmd.drop 5).splitOn '|')], true)
      else if 4 < cmd.length ∧ cmd.take 4 = "num:".toList then ([.processCommand (env.toInt (cmd.drop 4))], true)
      else ([], false) := by
  have hword : ∀ word : Text, ':' ∉ word → cmd ≠ word := fun word hword he => hword (he ▸ h)
  rw [handle, if_neg (hword _ (by decide)), if_neg (hword _ (by decide)), if_neg (hword _ (by decide)),
    if_neg (hword _ (by decide))]

theorem handle_word (env : Env) {r : Request} (h : ':' ∉ r.cmd) : handle env r.cmd = (r.calls env, r.accepted env) := by
  cases r with
  | stop =>
      change handle env "terminate".toList = _
      rw [handle, if_pos rfl, calls, accepted]
      cases env.cannotBeStopped <;> rfl
  | pause =>
      change handle env "pause".toList = _
      rw [handle, if_neg (by decide), if_pos rfl, calls, accepted]
      cases env.canBeSuspended <;> rfl
  | resume =>
      change handle env "resume".toList = _
      rw [handle, if_neg (by decide), if_neg (by decide), if_pos rfl, calls, accepted]
      cases env.canBeSuspended <;> rfl
  | sendCommand code => exact absurd (List.mem_append_left _ (by decide)) h
  | sendCommands cmdList => exact absurd (List.mem_append_left _ (by decide)) h

theorem handle_num (env : Env) {text : Text} (h : text ≠ []) :
    handle env ("num:".toList ++ text) = ([.processCommand (env.toInt text)], true) := by
  have hlist : ("num:".toList ++ text).take 5 ≠ "list:".toList := by
    intro he
    have hhead := congrArg (List.take 1) he
    rw [List.take_take, show min 1 5 = 1 from rfl, List.take_append_of_le_length (by decide)] at hhead
    revert hhead
    decide
  have htake : ("num:".toList ++ text).take 4 = "num:".toList := List.take_left' rfl
  have hdrop : ("num:".toList ++ text).drop 4 = text := List.drop_left' rfl
  have hlen : 4 < ("num:".toList ++ text).length := by
    rw [List.length_append]
    exact Nat.lt_add_of_pos_right (List.length_pos_iff.mpr h)
  rw [handle_of_colon env (List.mem_append_left _ (by decide)), if_neg fun h => hlist h.2, if_pos ⟨hlen, htake⟩, hdrop]

theorem handle_list (env : Env) {text : Text} (h : text ≠ []) :
    handle env ("list:".toList ++ text) = ([.processCommands (env.applicationFilePath :: text.splitOn '|')], true) := by
  have htake : ("list:".toList ++ text).take 5 = "list:".toList := List.take_left' rfl
  have hdrop : ("list:".toList ++ text).drop 5 = text := List.drop_left' rfl
  have hlen : 5 < ("list:".toList ++ text).length := by
    rw [List.length_append]
    exact Nat.lt_add_of_pos_right (List.length_pos_iff.mpr h)
  rw [handle_of_colon env (List.mem_append_left _ (by decide)), if_pos ⟨hlen, htake⟩, hdrop]

/-- **The service reads a command as the request.** -/
theorem handle_cmd (henv : env.Reads) (hr : r.Sendable) : handle env r.cmd = (r.calls env, r.accepted env) := by
  cases r with
  | stop => exact handle_word env (by decide)
  | pause => exact handle_word env (by decide)
  | resume => exact handle_word env (by decide)
  | sendCommand code =>
      change handle env ("num:".toList ++ decimal code) = _
      rw [handle_num env (decimal_ne_nil code), henv.number code hr.1 hr.2]
      rfl
  | sendCommands cmdList =>
      change handle env ("list:".toList ++ ['|'].intercalate cmdList) = _
      rw [calls, accepted]
      by_cases hempty : ['|'].intercalate cmdList = []
      · -- only the word and the colon are left of the command
        rw [if_pos hempty, hempty, List.append_nil, handle_of_colon env (by decide)]
        rfl
      · have hne : cmdList ≠ [] := by
          rintro rfl
          exact hempty rfl
        have hsplit := List.splitOn_intercalate '|' (fun text htext hc => (hr text htext '|' hc).2 rfl) hne
        rw [handle_list env hempty, hsplit, if_neg hempty, decide_eq_true hempty]

theorem sendCmd_answer : ∀ retValue, sendCmd (answer retValue) = retValue := by decide

theorem cmd_ne (r : Request) : r.cmd ≠ [] := by
  cases r with
  | stop => exact (by decide : "terminate".toList ≠ [])
  | pause => exact (by decide : "pause".toList ≠ [])
  | resume => exact (by decide : "resume".toList ≠ [])
  | sendCommand code => exact List.append_ne_nil_of_left_ne_nil (by decide) _
  | sendCommands cmdList => exact List.append_ne_nil_of_left_ne_nil (by decide) _

theorem text_of_wire (henv : env.Reads) (hr : r.Sendable) {chunks : List (List ℕ)} (h : chunks.flatten <+: r.wire) :
    (chunks.map env.fromUtf8).flatten = chunks.flatten.map Char.ofNat := by
  have hplain : ∀ b ∈ r.wire, 0 < b ∧ b < 128 := by
    rw [wire_eq hr]
    intro b hb
    obtain ⟨c, hc, rfl⟩ := List.mem_map.mp hb
    rcases List.mem_append.mp hc with hc | hc
    · exact ⟨(isPlain_cmd hr c hc).1, (isPlain_cmd hr c hc).2.1⟩
    · exact crlf_ascii c hc
  have hread : chunks.map env.fromUtf8 = chunks.map (List.map Char.ofNat) :=
    List.map_congr_left fun bytes hbytes => henv.ascii bytes fun b hb =>
      hplain b (h.subset (List.mem_flatten.mpr ⟨bytes, hbytes, hb⟩))
  rw [hread, List.map_flatten]

theorem find_crlf_of_unfinished (hr : r.Sendable) {text rest : Text} (h : text ++ rest = r.cmd ++ crlf)
    (hrest : rest ≠ []) : find crlf text = none := by
  cases hp : find crlf text with
  | none => rfl
  | some p =>
      exfalso
      have hfind := isFrame_cmd hr []
      have hsame := find_append_right hp rest
      rw [h] at hsame
      rw [List.append_nil, hsame] at hfind
      have hle := find_le_length hp
      have hlen := congrArg List.length h
      have hpos := List.length_pos_iff.mpr hrest
      rw [List.length_append, List.length_append] at hlen
      cases hfind
      omega

/-- **A request is served once, and only when it is complete.** In every run, over a connection that found nothing in
the cache, the service does nothing as long as the request has not come in full, and then calls what the request asks
for, and answers as the controller expects; the cache is empty again. -/
theorem request_served (henv : env.Reads) {moves : List (Move A)} {s : Service A}
    (h : moves.foldlM (step env) Service.init = some s) {a : A} {c : Conn} (hconn : s.conn a = some c)
    (hleftover : c.leftover = []) (hr : r.Sendable) :
    (c.chunks.flatten = r.wire →
      c.executed = [r.cmd] ∧ c.calls = r.calls env ∧ sendCmd c.written = r.accepted env ∧ s.cache a = []) ∧
      (c.chunks.flatten <+: r.wire → c.chunks.flatten ≠ r.wire →
        c.executed = [] ∧ c.calls = [] ∧ c.written = []) := by
  obtain ⟨haccounts, -⟩ := (accounts_run h).1 a c hconn
  have hwire : r.wire.map Char.ofNat = r.cmd ++ crlf := by
    rw [wire_eq hr, List.map_map]
    exact (List.map_congr_left fun c _ => Char.ofNat_toNat c).trans (List.map_id _)
  have htext : ∀ hpre : c.chunks.flatten <+: r.wire, c.text env = c.chunks.flatten.map Char.ofNat := by
    intro hpre
    rw [Conn.text, hleftover, List.nil_append, text_of_wire henv hr hpre]
  refine ⟨fun hall => ?_, fun hpre hne => ?_⟩
  · have hcmd : c.text env = r.cmd ++ crlf := by rw [htext (hall ▸ List.prefix_rfl), hall, hwire]
    have hframes : frames crlf (c.text env) = ([r.cmd], []) := by
      have hnone : find crlf [] = none := by decide
      have hframe := frames_frame crlf_ne (isFrame_cmd hr) []
      rw [List.append_nil, frames_none hnone] at hframe
      rw [hcmd, hframe]
    have hchunks : c.chunks ≠ [] := by
      intro hnil
      have hcontra := hcmd
      rw [htext (hall ▸ List.prefix_rfl), hnil] at hcontra
      exact List.append_ne_nil_of_left_ne_nil (cmd_ne r) crlf hcontra.symm
    have hnone := haccounts.none_left hchunks (by rw [hframes]; simpa using (cmd_ne r).symm)
    have hcache : s.cache a = [] := by
      rw [← frames_snd_of_nil hnone, haccounts.rest, hframes]
    have hexec : c.executed = [r.cmd] := by
      have hcommands := haccounts.executed
      rw [commands, hnone, List.filter_nil, List.append_nil, commands, hframes] at hcommands
      rw [hcommands]
      simp [cmd_ne r]
    refine ⟨hexec, ?_, ?_, hcache⟩
    · rw [haccounts.calls, hexec, List.flatMap_singleton, handle_cmd henv hr]
    · rw [haccounts.written, hexec, List.flatMap_singleton, handle_cmd henv hr]
      exact sendCmd_answer _
  · obtain ⟨rest, hrest⟩ := hpre
    have hlong : c.text env ++ rest.map Char.ofNat = r.cmd ++ crlf := by
      rw [htext ⟨rest, hrest⟩, ← List.map_append, hrest, hwire]
    have hleft : rest.map Char.ofNat ≠ [] := by
      rw [Ne, List.map_eq_nil_iff]
      rintro rfl
      exact hne (by rwa [List.append_nil] at hrest)
    have hnone := find_crlf_of_unfinished hr hlong hleft
    have hcommands := haccounts.executed
    rw [commands, commands, frames_none hnone, List.filter_nil, List.append_eq_nil_iff] at hcommands
    exact ⟨hcommands.1, by rw [haccounts.calls, hcommands.1]; rfl, by rw [haccounts.written, hcommands.1]; rfl⟩

end

theorem plainEnv_reads : plainEnv.Reads where
  ascii _ _ := rfl
  number n _ _ := by
    change (readDecimal (decimal n)).getD 0 = n
    rw [readDecimal_decimal]
    rfl

/-- Two texts in three pieces, while another connection sends something else. -/
theorem request_served_pieces :
    ∃ s c, [Move.incomingConnection 0, .readyRead 0 (bytes "list:a"), .incomingConnection 1,
        .readyRead 1 (bytes "pause\r\nx"), .readyRead 0 (bytes "|b c\r"), .readyRead 0 (bytes "\n")].foldlM
          (step plainEnv) Service.init = some s ∧ s.conn 0 = some c ∧
      c.calls = [.processCommands ["srv".toList, "a".toList, "b c".toList]] ∧ sendCmd c.written = true := by
  obtain ⟨s, hrun, c, hconn, hleftover, hbytes⟩ : ∃ s, [Move.incomingConnection 0, .readyRead 0 (bytes "list:a"),
      .incomingConnection 1, .readyRead 1 (bytes "pause\r\nx"), .readyRead 0 (bytes "|b c\r"),
      .readyRead 0 (bytes "\n")].foldlM (step plainEnv) Service.init = some s ∧ ∃ c, s.conn 0 = some c ∧
        c.leftover = [] ∧ c.chunks.flatten = (Request.sendCommands ["a".toList, "b c".toList]).wire :=
    ⟨_, rfl, _, rfl, by decide, by decide⟩
  have hsendable : (Request.sendCommands ["a".toList, "b c".toList]).Sendable := by
    intro text htext
    refine forall_of_all (P := fun c => Request.IsPlain c ∧ c ≠ '|') ?_
    rcases List.mem_pair.mp htext with rfl | rfl <;> rfl
  obtain ⟨-, hcalls, hsend, -⟩ := (request_served plainEnv_reads hrun hconn hleftover hsendable).1 hbytes
  exact ⟨s, c, hrun, hconn, hcalls, hsend⟩

end HelpzService
