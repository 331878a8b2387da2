import Helpz.Net.Window

/-!
# The waiting list

`add_to_waiting` and the `pop_waiting_*` functions, `process_fragment_query` and
`process_wait_list`.
-/

namespace HelpzNet

open HelpzLib

namespace Protocol

/-- `Protocol::pop_waiting_message`: the first item, by time point, that passes the check. -/
def popWaitingMessage (p : Protocol) (check : MessageItem → Bool) : Option MessageItem × Protocol :=
  let r := p.waitingMessages.extract check
  (r.1, { p with waitingMessages := r.2 })

/-- `Protocol::pop_waiting_answer`. -/
def popWaitingAnswer (p : Protocol) (answerId cmd : UInt8) : Option MessageItem × Protocol :=
  p.popWaitingMessage fun m => decide (m.id.getD 0 = answerId) && decide (m.cmd = cmd)

/-- `Protocol::pop_waiting_fragment`. -/
def popWaitingFragment (p : Protocol) (msgId : UInt8) : Option MessageItem × Protocol :=
  p.popWaitingMessage fun m => decide (m.id.getD 0 = msgId)

/-- `Protocol::add_to_waiting`: an item with the same id is replaced, and `emplace` drops the new
item when its time point is taken. -/
def addToWaiting (p : Protocol) (time : TimePoint) (m : MessageItem) : Protocol :=
  let r := p.popWaitingMessage fun x => decide (x.id.getD 0 = m.id.getD 0)
  let q := match r.1 with
    | some old => r.2.emit (old.destroy .evicted)
    | none => r.2
  if q.waitingMessages.contains time then q.emit (m.destroy .collided)
  else { q with waitingMessages := q.waitingMessages.emplace time m, log := q.log ++ [.waiting m.uid time] }

/-- The object after `add_to_waiting` has dropped an item with the id of `m`. -/
def evictSameId (p : Protocol) (m : MessageItem) : Protocol :=
  match (p.popWaitingMessage fun x => decide (x.id.getD 0 = m.id.getD 0)).1 with
  | some old => (p.popWaitingMessage fun x => decide (x.id.getD 0 = m.id.getD 0)).2.emit
      (old.destroy .evicted)
  | none => (p.popWaitingMessage fun x => decide (x.id.getD 0 = m.id.getD 0)).2

theorem addToWaiting_eq (p : Protocol) (time : TimePoint) (m : MessageItem) :
    p.addToWaiting time m =
      if (p.evictSameId m).waitingMessages.contains time then (p.evictSameId m).emit (m.destroy .collided)
      else { p.evictSameId m with
        waitingMessages := (p.evictSameId m).waitingMessages.emplace time m
        log := (p.evictSameId m).log ++ [.waiting m.uid time] } := rfl

/-- The reply to a query for a message that is unknown, or wholly received: the message is kept when
it still waits for an answer. -/
def refuseFragmentQuery (p : Protocol) (found : Option MessageItem) (msgId : UInt8) : Protocol :=
  match found with
  | none => p.send Cmd.removeFragment none 0 [msgId]
  | some m =>
      if m.answerFunc then (p.addToWaiting m.endTime m).send Cmd.removeFragment none 0 [msgId]
      else (p.send Cmd.removeFragment none 0 [msgId]).emit (m.destroy .completed)

/-- `Protocol::process_fragment_query`. -/
def processFragmentQuery (p : Protocol) (msgId : UInt8) (pos size : ℕ) : Protocol :=
  let r := p.popWaitingFragment msgId
  match r.1 with
  | none => r.2.refuseFragmentQuery none msgId
  | some m =>
      if m.dataDevice.any fun d => decide (pos < d.size) then
        r.2.sendMessage ((m.setFragmentSize size).seek pos)
      else r.2.refuseFragmentQuery (some m) msgId

/-- `Protocol::pop_waiting_messages`. -/
def popWaitingMessages (p : Protocol) (now : TimePoint) : List MessageItem × Protocol :=
  let r := p.waitingMessages.popUpTo (now + milliseconds 20)
  (r.1, { p with waitingMessages := r.2 })

/-- The item is sent again by `process_wait_list`, rather than given up. -/
def isResent (now : TimePoint) (m : MessageItem) : Bool :=
  decide (m.endTime > now) && m.dataDevice.isSome

/-- One turn of the loop of `process_wait_list` over the items it popped. -/
def resendOrExpire (now : TimePoint) (p : Protocol) (m : MessageItem) : Protocol :=
  if isResent now m then
    p.sendMessage ((m.setFragmentSize (m.fragmentSize / 2)).setFlags (m.flags ||| Flag.repeated))
  else if m.timeoutFunc then p.emit [.timeoutFunc m.uid now] else p

/-- The query for the next missing part of `m`: id, position and size. -/
def queryData (msgId : UInt8) (part : ℕ × ℕ) : Bytes := msgId :: (toBE 4 part.1 ++ toBE 4 part.2)

/-- `process_wait_list` for one entry of `fragmented_messages_`. -/
def requery (now : TimePoint) (p : Protocol) (id : UInt8) : Protocol :=
  match p.fragmentedMessages id with
  | none => p
  | some m =>
      if !m.isPartsEmpty && decide (now - m.lastPartTime ≥ milliseconds 1500) then
        let half := m.maxFragmentSize / 2
        let m := { m with maxFragmentSize := if half < 128 then 128 else half, lastPartTime := now }
        let p := { p.setFragment id m with lostMsgList := emplaceLost p.lostMsgList m.id now }
        -- the sender is destroyed, and so the query posted, at the end of the turn
        (p.addTimeoutAt (now + milliseconds 1505) .fragment).send m.cmd none Flag.fragmentQuery
          (queryData m.id m.getNextPart)
      else p

/-- All ids, in the order `std::map` visits them. -/
def allIds : List UInt8 := (List.range 256).map UInt8.ofNat

/-- `Protocol::process_wait_list`. Items that are given up die with the vector, after the loop. -/
def processWaitList (p : Protocol) (data : TimerData) (now₁ now₂ : TimePoint) : Protocol :=
  match data with
  | .fragment => allIds.foldl (requery now₁) p
  | .null =>
      let r := p.popWaitingMessages now₁
      let q := r.1.foldl (resendOrExpire now₂) r.2
      q.emit ((r.1.filter fun m => !isResent now₂ m).flatMap fun m => m.destroy .timedOut)

end Protocol

end HelpzNet
