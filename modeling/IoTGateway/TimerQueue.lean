import IoTGateway.TimerHeap

/-! `ACE_Timer_Queue_T` over the timer heap: dispatching the timers that are due
and bounding how long the reactor may wait. Times are microseconds. -/

namespace IoTGateway

/-- `ACE_Timer_Node_Dispatch_Info_T`. -/
structure DispatchInfo (τ : Type) where
  type : τ
  act : Nat
  recurringTimer : Bool
  deriving Repr, DecidableEq

def TimerNode.getDispatchInfo (node : TimerNode τ) : DispatchInfo τ :=
  { type := node.type, act := node.act, recurringTimer := node.interval > 0 }

namespace TimerHeap
variable {τ ρ : Type}

/-- The next time on the grid of the timer that lies ahead of `curTime`. -/
def recomputeNextAbsIntervalTime (expired : TimerNode τ) (curTime : Int) : TimerNode τ :=
  if expired.timerValue ≤ curTime then
    let oldDiff := curTime - expired.timerValue
    let newTimer := expired.interval - oldDiff % expired.interval
    { expired with timerValue := curTime + newTimer }
  else expired

/-- `dispatch_info_i`: the timer to be called, if one is due. -/
def dispatchInfo (queue : TimerHeap τ) (curTime : Int) : Checked (Option (DispatchInfo τ) × TimerHeap τ) :=
  if queue.isEmpty then .ok (none, queue)
  else do
    let earliest ← queue.earliestTime
    if earliest ≤ curTime then
      match ← queue.removeFirst with
      | (none, _) => throw .nullPointer
      | (some expired, queue) =>
        if expired.interval > 0 then
          let queue ← queue.reschedule (recomputeNextAbsIntervalTime expired curTime)
          return (some expired.getDispatchInfo, queue)
        else
          let queue ← queue.freeNode expired
          return (some expired.getDispatchInfo, queue)
    else return (none, queue)

/-- `upcall`: what a handler does to the queue and to a state of its own. -/
abbrev Upcall (τ ρ : Type) := DispatchInfo τ → TimerHeap τ × ρ → Checked (TimerHeap τ × ρ)

/-- `while ((result = this->dispatch_info_i (cur_time, info)) != 0)` and its body. -/
def expireRound (upcall : Upcall τ ρ) (curTime : Int) :
    TimerHeap τ × ρ × Nat → Checked (TimerHeap τ × ρ × Nat ⊕ TimerHeap τ × ρ × Nat)
  | (queue, state, numberOfTimersExpired) => do
    match ← queue.dispatchInfo curTime with
    | (none, queue) => return .inr (queue, state, numberOfTimersExpired)
    | (some info, queue) =>
      let (queue, state) ← upcall info (queue, state)
      return .inl (queue, state, numberOfTimersExpired + 1)

/-- `expire`: the number of timers called. Handlers can keep the loop going, so
the fuel is the caller's. -/
def expire (upcall : Upcall τ ρ) (queue : TimerHeap τ) (state : ρ) (curTime : Int) (fuel : Nat) :
    Checked (TimerHeap τ × ρ × Nat) :=
  if queue.isEmpty then .ok (queue, state, 0)
  else do
    match ← Loops.iterate (expireRound upcall curTime) fuel (queue, state, 0) with
    | some result => return result
    | none => throw .unbounded

/-- `calculate_timeout`: how long to wait, or `none` for ever. -/
def calculateTimeout (queue : TimerHeap τ) (maxWaitTime : Option Int) (curTime : Int) : Checked (Option Int) :=
  if queue.isEmpty then .ok maxWaitTime
  else do
    let earliest ← queue.earliestTime
    if earliest > curTime then
      let theTimeout := earliest - curTime
      match maxWaitTime with
      | none => return some theTimeout
      | some maxWaitTime => return some (if maxWaitTime > theTimeout then theTimeout else maxWaitTime)
    else return some 0

/-- What the users of a queue can ask of it. -/
inductive Request (τ : Type) where
  | schedule (type : τ) (act : Nat) (futureTime interval : Int)
  | cancel (timerId : Int)
  | cancelType (type : τ)
  | resetInterval (timerId interval : Int)
  | dispatch (curTime : Int)
  | close

inductive Answer (τ : Type) where
  | timerId (timerId : Int)
  | cancelled (act : Option Nat)
  | cancellations (number : Nat)
  | result (code : Int)
  | dispatched (info : Option (DispatchInfo τ))
  | deleted (handlers : List (τ × Nat))

def serve [DecidableEq τ] (queue : TimerHeap τ) : Request τ → Checked (Answer τ × TimerHeap τ)
  | .schedule type act futureTime interval => do
    let (timerId, queue) ← queue.scheduleI type act futureTime interval
    return (.timerId timerId, queue)
  | .cancel timerId => do
    let (act, queue) ← queue.cancel timerId
    return (.cancelled act, queue)
  | .cancelType type => do
    let (number, queue) ← queue.cancelType type
    return (.cancellations number, queue)
  | .resetInterval timerId interval => do
    let (code, queue) ← queue.resetInterval timerId interval
    return (.result code, queue)
  | .dispatch curTime => do
    let (info, queue) ← queue.dispatchInfo curTime
    return (.dispatched info, queue)
  | .close => do
    let (handlers, queue) ← queue.close
    return (.deleted handlers, queue)

end TimerHeap

end IoTGateway
