import IoTGateway.Services
import IoTGateway.TimerQueue

/-! The net thread: `NetService::svc` around `ACE_Select_Reactor_T::handle_events`,
with the timers of the services in the timer heap. Times are microseconds. -/

namespace IoTGateway

def Timeval.usec (tv : Timeval) : Int := tv.tvSec.toNat * 1000000 + tv.tvUsec.toNat

/-- What the thread meets from outside, at the moments when it looks. -/
structure World where
  /-- how far the clock moves before a reading; someone may set it back -/
  elapse : Nat → Int
  /-- the handlers `select` finds ready, or `none` where it fails -/
  ready : Nat → Option (List Service)
  ticks : Nat → UInt32
  libcoap : Nat → Libcoap
  received : Nat → CoapContextT
  deactivated : Nat → Bool
  /-- `break_netsvc_thread_flag` after a turn -/
  closing : Nat → Bool

/-- What a callback can reach besides the timer queue. `timeOuts` are the services
whose `time_out` was called so far. -/
structure NetState where
  wrapper : Service → Option CoAPWrapper := fun _ => none
  time : Int := 0
  moment : Nat := 0
  timeOuts : List Service := []

/-- `timeout` is the local of `svc`; `selects` are the calls to `select` so far,
each with the time it was given. -/
structure SvcThread where
  queue : TimerHeap Service
  handlers : List Service
  state : NetState
  timeout : Int := 3000000
  selects : List (Option Int × Option (List Service)) := []

def NetState.gettimeofday (world : World) (state : NetState) : Int × NetState :=
  let time := state.time + world.elapse state.moment
  (time, { state with time, moment := state.moment + 1 })

def SvcThread.gettimeofday (world : World) (thread : SvcThread) : Int × SvcThread :=
  let (now, state) := thread.state.gettimeofday world
  (now, { thread with state })

/-- `ACE_Select_Reactor_T::schedule_timer`, for a timer without an interval. -/
def scheduleTimer (world : World) (queue : TimerHeap Service) (state : NetState) (handler : Service)
    (delayTime : Timeval) : Checked (TimerHeap Service × NetState) := do
  let (now, state) := state.gettimeofday world
  let (_, queue) ← queue.scheduleI handler 0 (now + delayTime.usec) 0
  return (queue, state)

/-- `handle_timeout` as the upcall of the timer queue. -/
def NetState.handleTimeout (world : World) : TimerHeap.Upcall Service NetState
  | info, (queue, state) =>
    match state.wrapper info.type with
    | none => .error .nullPointer
    | some wrapper => do
      let (wrapper, timeout) ← wrapper.timeOut (world.libcoap state.moment) (world.ticks state.moment) fiveSeconds
      let state := { state with
        wrapper := Function.update state.wrapper info.type (some wrapper)
        moment := state.moment + 1
        timeOuts := state.timeOuts ++ [info.type] }
      scheduleTimer world queue state info.type timeout

def NetState.handleInput (world : World) (state : NetState) (service : Service) : NetState :=
  match state.wrapper service with
  | none => state
  | some wrapper =>
    { state with
      wrapper := Function.update state.wrapper service (some (wrapper.handleEvent (world.received state.moment)))
      moment := state.moment + 1 }

/-- `ACE_Countdown_Time::stop`. -/
def SvcThread.countdownStop (world : World) (thread : SvcThread) (startTime : Int) : SvcThread :=
  let (now, thread) := thread.gettimeofday world
  let elapsedTime := now - startTime
  { thread with
    timeout := if elapsedTime ≥ 0 ∧ thread.timeout > elapsedTime then thread.timeout - elapsedTime else 0 }

/-- `wait_for_multiple_events`. A `select` that finds nothing ready has slept
for as long as it was told. -/
def SvcThread.waitForMultipleEvents (world : World) (thread : SvcThread) :
    Checked (Option (List Service) × SvcThread) := do
  let (curTime, thread) := if thread.queue.isEmpty then (0, thread) else thread.gettimeofday world
  let thisTimeout ← thread.queue.calculateTimeout (some thread.timeout) curTime
  let active := (world.ready thread.state.moment).map fun ready => ready.filter (· ∈ thread.handlers)
  let slept := if active = some [] then thisTimeout.getD 0 else 0
  return (active, { thread with
    state := { thread.state with time := thread.state.time + slept, moment := thread.state.moment + 1 }
    selects := thread.selects ++ [(thisTimeout, active)] })

/-- `dispatch`: timers first, then input. -/
def SvcThread.dispatch (world : World) (thread : SvcThread) : Option (List Service) → Checked (Int × SvcThread)
  | none => .ok (-1, thread)
  | some active => do
    let (curTime, thread) := thread.gettimeofday world
    let (queue, state, expired) ←
      thread.queue.expire (NetState.handleTimeout world) thread.state curTime (thread.queue.curSize + 1)
    let state := active.foldl (NetState.handleInput world) state
    return (expired + active.length, { thread with queue, state })

def SvcThread.handleEvents (world : World) (thread : SvcThread) : Checked (Int × SvcThread) := do
  let (startTime, thread) := thread.gettimeofday world
  if world.deactivated thread.state.moment then return (-1, thread.countdownStop world startTime)
  else
    let thread := thread.countdownStop world startTime
    let (startTime, thread) := thread.gettimeofday world
    let (active, thread) ← thread.waitForMultipleEvents world
    let (code, thread) ← thread.dispatch world active
    return (code, thread.countdownStop world startTime)

/-- One turn of the loop of `svc`; it leaves the loop with the code. -/
def SvcThread.svcRound (world : World) (thread : SvcThread) : Checked (SvcThread ⊕ Int) := do
  let (code, thread) ← thread.handleEvents world
  return if world.closing thread.state.moment then .inr code else .inl thread

/-- The thread the two `Init`s leave, their timers scheduled one after the other. -/
def SvcThread.ofServices (world : World) (size : Nat) (services : Services) : Checked SvcThread := do
  let (queue, state) ← services.net.timers.foldlM
    (fun state timer => scheduleTimer world state.1 state.2 timer.1 timer.2)
    (TimerHeap.ofSize size, { wrapper := services.wrapper })
  return { queue, handlers := services.net.handlers, state }

end IoTGateway
