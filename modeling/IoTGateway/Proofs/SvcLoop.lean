import Mathlib.Algebra.GroupWithZero.Nat
import Mathlib.Algebra.Ring.Int.Defs
import IoTGateway.Proofs.Expiration
import IoTGateway.Proofs.Timers
import IoTGateway.Reactor

/-! The net thread simulates the machine of the two services: what the loop of
`svc` does to heap, clock and contexts is a run of reactor events. -/

namespace IoTGateway.Proofs.SvcLoop

open TimerHeap Timers TimerDelay

/-- The services as the thread holds them; the timers are in the heap. -/
structure Represents (queue : TimerHeap Service) (state : NetState) (handlers : List Service) (services : Services) :
    Prop where
  wrapper : state.wrapper = services.wrapper
  handlers : handlers = services.net.handlers
  timers : (queue.armed.map TimerNode.type).Perm (services.net.timers.map Prod.fst)

/-- What the thread did since `start` is a run of reactor events. No timer of
the services repeats or is more than five seconds away. -/
structure Simulates (start : Services) (handlers : List Service) (queue : TimerHeap Service) (state : NetState) :
    Prop where
  run : ∃ history services, Histories.Run reactorStep start history services ∧ Represents queue state handlers services
  once : ∀ node ∈ queue.armed, node.interval = 0
  soon : ∀ node ∈ queue.armed, node.timerValue ≤ state.time + 5000000

/-- Nobody sets the clock back. -/
def Forward (world : World) : Prop := ∀ moment, 0 ≤ world.elapse moment

private theorem usec_micros (delay : Timeval) : delay.usec = (micros delay : Int) := by
  simp [Timeval.usec, micros]

section
variable {start : Services} {handlers : List Service} {queue : TimerHeap Service} {state : NetState} {world : World}

theorem gettimeofday_time (forward : Forward world) (state : NetState) :
    (state.gettimeofday world).1 = (state.gettimeofday world).2.time ∧
      state.time ≤ (state.gettimeofday world).2.time := by
  have passed := forward state.moment
  simp only [NetState.gettimeofday, true_and]
  omega

theorem Simulates.later (simulates : Simulates start handlers queue state) {after : NetState}
    (same : after.wrapper = state.wrapper) (grown : state.time ≤ after.time) :
    Simulates start handlers queue after := by
  obtain ⟨⟨history, services, run, wrapper, registered, timers⟩, once, soon⟩ := simulates
  refine ⟨⟨history, services, run, same.trans wrapper, registered, timers⟩, once, ?_⟩
  intro node member
  exact (soon node member).trans (by omega)

private theorem scheduleTimer_armed (forward : Forward world) (valid : Valid queue []) (handler : Service)
    (delay : Timeval) :
    ∃ timerId next after, scheduleTimer world queue state handler delay = .ok (next, after) ∧ Becomes queue next [] ∧
      state.time ≤ after.time ∧ after.wrapper = state.wrapper ∧ after.timeOuts = state.timeOuts ∧
      next.armed.Perm ({ type := handler, act := 0, timerValue := after.time + micros delay, interval := 0, timerId } ::
        queue.armed) := by
  obtain ⟨same, grown⟩ := gettimeofday_time forward state
  obtain ⟨timerId, next, scheduled, becomes, armed, _⟩ :=
    scheduleI_ok valid handler 0 ((state.gettimeofday world).1 + delay.usec) 0
  refine ⟨timerId, next, (state.gettimeofday world).2, ?_, becomes, grown, rfl, rfl, ?_⟩
  · simp [scheduleTimer, scheduled]
  · rw [← same, ← usec_micros]
    exact armed

theorem timer_at {services : Services} {node : TimerNode Service} {rest : List (TimerNode Service)}
    (timers : (queue.armed.map TimerNode.type).Perm (services.net.timers.map Prod.fst))
    (whole : queue.armed.Perm (node :: rest)) :
    ∃ index timer, services.net.timers[index]? = some timer ∧ timer.1 = node.type ∧
      (rest.map TimerNode.type).Perm ((services.net.timers.eraseIdx index).map Prod.fst) := by
  have types := (whole.map TimerNode.type).symm.trans timers
  rw [List.map_cons] at types
  obtain ⟨timer, member, same⟩ := List.mem_map.mp (types.mem_iff.mp List.mem_cons_self)
  obtain ⟨index, inside, rfl⟩ := List.getElem_of_mem member
  refine ⟨index, _, List.getElem?_eq_getElem inside, same, ?_⟩
  have others := ((List.getElem_cons_eraseIdx_perm inside).map Prod.fst).symm
  rw [List.map_cons, same] at others
  exact List.perm_cons _ |>.mp (types.trans others)

private theorem again_once {node : TimerNode Service} (once : node.interval = 0) (curTime : Int) :
    again node curTime = [] := by
  rw [again, if_neg (by omega)]

theorem handleTimeout_simulates (live : Live start) (forward : Forward world) {current middle : TimerHeap Service}
    {node : TimerNode Service} {rest : List (TimerNode Service)} (simulates : Simulates start handlers current state) (valid : Valid middle [])
    (whole : current.armed.Perm (node :: rest)) (left : middle.armed.Perm rest) :
    ∃ next after new, NetState.handleTimeout world node.getDispatchInfo (middle, state) = .ok (next, after) ∧
      Becomes middle next [] ∧ Simulates start handlers next after ∧ state.time ≤ after.time ∧
      after.timeOuts = state.timeOuts ++ [node.type] ∧ next.armed.Perm (new :: middle.armed) ∧
      after.time < new.timerValue := by
  obtain ⟨⟨history, services, run, wrapper, registered, timers⟩, once, soon⟩ := simulates
  obtain ⟨ctx, wrapped⟩ := (run.invariant reactorStep_preserves live).context node.type
  obtain ⟨index, timer, there, fires, others⟩ := timer_at timers whole
  obtain ⟨ctx', delay, called, timed⟩ :=
    wrapper_timeOut (world.libcoap state.moment) ctx (world.ticks state.moment) fiveSeconds
  have stepped : reactorStep services (.expire index (world.ticks state.moment) (world.libcoap state.moment)) =
      .ok (some (timer.1, delay), (Services.setWrapper { services with net := services.net.expire index } timer.1
        { coapCtx := some ctx' }).schedule timer.1 delay) := by
    simp only [reactorStep, there, Services.handleTimeout, fires, wrapped, called, ok_bind, pure_eq_ok]
  obtain ⟨timerId, next, after, armed, becomes, grown, kept, recorded, joined⟩ :=
    @scheduleTimer_armed middle
      { state with
        wrapper := Function.update state.wrapper node.type (some { coapCtx := some ctx' })
        moment := state.moment + 1
        timeOuts := state.timeOuts ++ [node.type] } world forward valid node.type delay
  have ahead := timed.positive
  have bounded := timed.bounded
  refine ⟨next, after, _, ?_, becomes, ⟨⟨_, _, run.step stepped, ?_, registered, ?_⟩, ?_, ?_⟩, grown, recorded, joined, ?_⟩
  · simp only [NetState.handleTimeout, TimerNode.getDispatchInfo, wrapper, wrapped, called, ok_bind]
    rw [← armed, wrapper]
  · rw [kept, wrapper, ← fires]
    rfl
  · have types := (joined.trans (left.cons _)).map TimerNode.type
    rw [List.map_cons] at types
    have listed : (((services.net.timers.eraseIdx index) ++ [(timer.1, delay)]).map Prod.fst).Perm
        (node.type :: (services.net.timers.eraseIdx index).map Prod.fst) := by
      rw [List.map_append, ← fires]
      exact List.perm_append_comm
    exact (types.trans (others.cons _)).trans listed.symm
  · intro other member
    rcases List.mem_cons.mp (joined.mem_iff.mp member) with rfl | member
    · rfl
    · exact once other (whole.mem_iff.mpr (List.mem_cons_of_mem _ (left.mem_iff.mp member)))
  · intro other member
    rcases List.mem_cons.mp (joined.mem_iff.mp member) with rfl | member
    · show after.time + (micros delay : Int) ≤ after.time + 5000000
      omega
    · exact (soon other (whole.mem_iff.mpr (List.mem_cons_of_mem _ (left.mem_iff.mp member)))).trans
        (Int.add_le_add_right grown _)
  · show after.time < after.time + (micros delay : Int)
    omega

/-- The invariant of an expiration at `curTime`; `before` are the earlier calls. -/
structure Firing (start : Services) (handlers : List Service) (curTime : Int) (before : List Service)
    (calls : List (DispatchInfo Service)) (queue : TimerHeap Service) (state : NetState) : Prop where
  simulates : Simulates start handlers queue state
  reached : curTime ≤ state.time
  recorded : state.timeOuts = before ++ calls.map DispatchInfo.type

private theorem handleTimeout_orderly (live : Live start) (forward : Forward world) (curTime : Int)
    (before : List Service) :
    Orderly (NetState.handleTimeout world) curTime (Firing start handlers curTime before) := by
  refine ⟨?_⟩
  rintro calls current node rest middle state ⟨simulates, reached, recorded⟩ valid whole left _
  have single := simulates.once node (whole.mem_iff.mpr List.mem_cons_self)
  rw [again_once single, List.nil_append] at left
  obtain ⟨next, after, new, called, becomes, simulates', grown, more, joined, ahead⟩ :=
    handleTimeout_simulates live forward simulates valid whole left
  refine ⟨next, after, called, becomes, ⟨simulates', reached.trans grown, ?_⟩, ?_⟩
  · rw [more, recorded, List.map_append, List.append_assoc]
    rfl
  have later : ¬ Due curTime new := not_le.mpr (by omega)
  rw [timers_cons joined, Multiset.filter_cons_of_neg _ later]
  rfl

theorem handleInput_simulates (live : Live start) (simulates : Simulates start handlers queue state)
    (service : Service) :
    Simulates start handlers queue (state.handleInput world service) ∧
      (state.handleInput world service).time = state.time ∧
      (state.handleInput world service).timeOuts = state.timeOuts := by
  obtain ⟨⟨history, services, run, wrapper, registered, timers⟩, once, soon⟩ := simulates
  obtain ⟨ctx, wrapped⟩ := (run.invariant reactorStep_preserves live).context service
  have stepped : reactorStep services (.input service (world.received state.moment)) =
      .ok (none, services.handleInput service (world.received state.moment)) := rfl
  rw [NetState.handleInput, wrapper, wrapped]
  refine ⟨⟨⟨_, _, run.step stepped, ?_, ?_, ?_⟩, once, soon⟩, rfl, rfl⟩
  · rw [Services.handleInput, wrapped]
    rfl
  · rw [Services.handleInput, wrapped]
    exact registered
  · rw [Services.handleInput, wrapped]
    exact timers

theorem handleInputs_simulates (live : Live start) (active : List Service)
    (simulates : Simulates start handlers queue state) :
    Simulates start handlers queue (active.foldl (NetState.handleInput world) state) ∧
      (active.foldl (NetState.handleInput world) state).time = state.time ∧
      (active.foldl (NetState.handleInput world) state).timeOuts = state.timeOuts := by
  induction active generalizing state with
  | nil => exact ⟨simulates, rfl, rfl⟩
  | cons service active ih =>
    obtain ⟨simulates', time, called⟩ := @handleInput_simulates _ _ _ _ world live simulates service
    obtain ⟨simulates'', time', called'⟩ := ih simulates'
    exact ⟨simulates'', time'.trans time, called'.trans called⟩

theorem Simulates.single (live : Live start) (simulates : Simulates start handlers queue state) (service : Service) :
    (queue.armed.filter (·.type = service)).length = 1 := by
  obtain ⟨history, services, run, represents⟩ := simulates.run
  have single := (run.invariant reactorStep_preserves live).once service
  have types := (represents.timers.filter (· = service)).length_eq
  rw [List.filter_map, List.length_map, List.filter_map, List.length_map] at types
  exact types.trans single

end

structure Sound (start : Services) (thread : SvcThread) : Prop where
  valid : Valid thread.queue []
  simulates : Simulates start thread.handlers thread.queue thread.state

section
variable {start : Services} {thread : SvcThread} {world : World}

structure Waited (before after : SvcThread) : Prop where
  queue : after.queue = before.queue
  handlers : after.handlers = before.handlers
  wrapper : after.state.wrapper = before.state.wrapper
  timeOuts : after.state.timeOuts = before.state.timeOuts
  grown : before.state.time ≤ after.state.time

theorem Sound.waited (sound : Sound start thread) {after : SvcThread} (waited : Waited thread after) :
    Sound start after := by
  obtain ⟨queue, handlers, wrapper, _, grown⟩ := waited
  refine ⟨queue ▸ sound.valid, ?_⟩
  rw [queue, handlers]
  exact sound.simulates.later wrapper grown

theorem gettimeofday_waited (forward : Forward world) (thread : SvcThread) :
    Waited thread (thread.gettimeofday world).2 :=
  ⟨rfl, rfl, rfl, rfl, (gettimeofday_time forward thread.state).2⟩

private theorem countdownStop_waited (forward : Forward world) (thread : SvcThread) (startTime : Int) :
    Waited thread (thread.countdownStop world startTime) :=
  ⟨rfl, rfl, rfl, rfl, (gettimeofday_time forward thread.state).2⟩

theorem calculateTimeout_bounds {queue : TimerHeap Service} {held : List (TimerNode Service)} (valid : Valid queue held)
    {maxWaitTime : Int} (positive : 0 ≤ maxWaitTime) (curTime : Int) :
    ∃ wait, queue.calculateTimeout (some maxWaitTime) curTime = .ok (some wait) ∧ 0 ≤ wait ∧ wait ≤ maxWaitTime ∧
      ∀ node ∈ queue.armed, wait = 0 ∨ curTime + wait ≤ node.timerValue := by
  rw [calculateTimeout]
  split
  next empty =>
    refine ⟨maxWaitTime, rfl, positive, le_rfl, ?_⟩
    rw [armed_empty (isEmpty_iff.mp empty)]
    exact fun node member => absurd member List.not_mem_nil
  next filled =>
    obtain ⟨node, _, earliest, _, _, _, least⟩ := removeFirst_ok valid fun empty => filled (isEmpty_iff.mpr empty)
    rw [earliest, ok_bind]
    split
    next ahead =>
      refine ⟨_, rfl, ?_, ?_, ?_⟩
      · split <;> omega
      · split <;> omega
      · intro other member
        have order := least other member
        right
        split <;> omega
    next => exact ⟨0, rfl, le_rfl, positive, fun _ _ => .inl rfl⟩

theorem Waited.trans {first second third : SvcThread} (one : Waited first second) (two : Waited second third) :
    Waited first third :=
  ⟨two.queue.trans one.queue, two.handlers.trans one.handlers, two.wrapper.trans one.wrapper,
    two.timeOuts.trans one.timeOuts, one.grown.trans two.grown⟩

theorem Waited.refl (thread : SvcThread) : Waited thread thread := ⟨rfl, rfl, rfl, rfl, le_rfl⟩

theorem reading_waited (forward : Forward world) (thread : SvcThread) :
    ∃ curTime read, (if thread.queue.isEmpty then (0, thread) else thread.gettimeofday world) = (curTime, read) ∧
      Waited thread read ∧ read.timeout = thread.timeout ∧ read.selects = thread.selects ∧
      (thread.queue.isEmpty = false → thread.state.time ≤ curTime) := by
  split
  next empty => exact ⟨0, thread, rfl, .refl thread, rfl, rfl, by simp [empty]⟩
  next =>
    obtain ⟨same, grown⟩ := gettimeofday_time forward thread.state
    exact ⟨_, _, rfl, gettimeofday_waited forward thread, rfl, rfl, fun _ => grown.trans same.ge⟩

/-- `select` never fails, and nobody ends the event loop. -/
def Works (world : World) : Prop := ∀ moment, (world.ready moment).isSome ∧ world.deactivated moment = false

/-- One call to `select`; where nothing is ready it sleeps as long as it is told,
which is past no timer. -/
theorem waitForMultipleEvents_waited (forward : Forward world) (sound : Sound start thread)
    (positive : 0 ≤ thread.timeout) :
    ∃ active after wait, thread.waitForMultipleEvents world = .ok (active, after) ∧ Waited thread after ∧
      after.timeout = thread.timeout ∧ after.selects = thread.selects ++ [(some wait, active)] ∧ 0 ≤ wait ∧
      wait ≤ thread.timeout ∧ (active = some [] → thread.state.time + wait ≤ after.state.time) ∧
      (Works world → active.isSome) ∧
      ∀ node ∈ thread.queue.armed, wait = 0 ∨ thread.state.time + wait ≤ node.timerValue := by
  obtain ⟨curTime, read, reading, waited, timeout, selects, now⟩ := reading_waited forward thread
  have grown := waited.grown
  rw [← timeout] at positive
  obtain ⟨wait, calculated, low, high, awake⟩ := calculateTimeout_bounds (sound.waited waited).valid positive curTime
  rw [timeout] at high
  rw [SvcThread.waitForMultipleEvents, reading]
  simp only [calculated, ok_bind, pure_eq_ok, Option.getD_some]
  refine ⟨_, _, wait, rfl, ⟨waited.queue, waited.handlers, waited.wrapper, waited.timeOuts, ?_⟩, timeout, ?_, low,
    high, ?_, ?_, ?_⟩
  · split
    · show thread.state.time ≤ read.state.time + wait
      omega
    · show thread.state.time ≤ read.state.time + 0
      omega
  · rw [selects]
  · intro idle
    rw [if_pos idle]
    show thread.state.time + wait ≤ read.state.time + wait
    omega
  · intro works
    rw [Option.isSome_map]
    exact (works _).1
  · intro node member
    rw [waited.queue] at awake
    cases empty : thread.queue.isEmpty with
    | true =>
      rw [armed_empty (isEmpty_iff.mp empty)] at member
      exact absurd member List.not_mem_nil
    | false =>
      have reached := now empty
      exact (awake node member).imp_right fun before => by omega

/-- `time_out` was called once for each service whose timer had fallen due, for no
other, and no timer that was due is left. -/
structure Called (before after : SvcThread) : Prop where
  calls : ∃ calls, after.state.timeOuts = before.state.timeOuts ++ calls ∧ calls.Nodup ∧
    (∀ node ∈ before.queue.armed, node.timerValue ≤ before.state.time → node.type ∈ calls) ∧
    ∀ service ∈ calls, ∃ node ∈ before.queue.armed, node.type = service ∧ node.timerValue ≤ after.state.time
  left : ∀ node ∈ after.queue.armed, before.state.time < node.timerValue

theorem Called.waited {before first last after : SvcThread} (called : Called first last)
    (earlier : Waited before first) (later : Waited last after) : Called before after := by
  obtain ⟨⟨calls, recorded, once, all, only⟩, left⟩ := called
  refine ⟨⟨calls, ?_, once, ?_, ?_⟩, ?_⟩
  · rw [later.timeOuts, recorded, earlier.timeOuts]
  · intro node member due
    exact all node (earlier.queue ▸ member) (due.trans earlier.grown)
  · intro service member
    obtain ⟨node, armed, same, due⟩ := only service member
    exact ⟨node, earlier.queue ▸ armed, same, due.trans later.grown⟩
  · intro node member
    exact earlier.grown.trans_lt (left node (later.queue ▸ member))

theorem dispatched_nodup (live : Live start) (sound : Sound start thread) {curTime : Int}
    {dispatched : List (TimerNode Service)} (fired : (timers thread.queue).filter (Due curTime) = ↑dispatched) :
    (dispatched.map TimerNode.type).Nodup := by
  have types : (thread.queue.armed.map TimerNode.type).Nodup := by
    rw [List.nodup_iff_count_le_one]
    intro service
    have single := sound.simulates.single live service
    rw [List.count_eq_length_filter, List.filter_map, List.length_map]
    exact single.le
  have some : (↑dispatched : Multiset (TimerNode Service)) ≤ ↑thread.queue.armed := fired ▸ Multiset.filter_le ..
  exact Multiset.coe_nodup.mp (Multiset.nodup_of_le (Multiset.map_le_map some) (Multiset.coe_nodup.mpr types))

theorem dispatch_sound (live : Live start) (forward : Forward world) (sound : Sound start thread)
    (active : Option (List Service)) :
    ∃ code after, thread.dispatch world active = .ok (code, after) ∧ Sound start after ∧
      thread.state.time ≤ after.state.time ∧ after.timeout = thread.timeout ∧ after.selects = thread.selects ∧
      (active.isSome → Called thread after) := by
  cases active with
  | none => exact ⟨-1, thread, rfl, sound, le_rfl, rfl, rfl, by simp⟩
  | some active =>
    have waited := gettimeofday_waited forward thread
    have ready := sound.waited waited
    obtain ⟨same, earlier⟩ := gettimeofday_time forward thread.state
    obtain ⟨queue, state, dispatched, expired, becomes, ⟨simulates, reached, recorded⟩, fired, _, ahead⟩ :=
      expire_orderly
        (handleTimeout_orderly live forward (thread.gettimeofday world).1 (thread.gettimeofday world).2.state.timeOuts)
        ready.valid ⟨ready.simulates, same.le, by simp⟩ (Nat.lt_succ_of_le (due_card_le ready.valid _))
    obtain ⟨simulates', time, called⟩ := @handleInputs_simulates _ _ _ _ world live active simulates
    have read : thread.state.time ≤ (thread.gettimeofday world).1 := earlier.trans same.ge
    refine ⟨dispatched.length + active.length,
      { (thread.gettimeofday world).2 with queue, state := active.foldl (NetState.handleInput world) state }, ?_,
      ⟨becomes.valid, simulates'⟩, ?_, rfl, rfl, fun _ => ⟨⟨dispatched.map TimerNode.type, ?_, ?_, ?_, ?_⟩, ?_⟩⟩
    · simp only [SvcThread.dispatch, expired, ok_bind, pure_eq_ok]
    · exact (read.trans reached).trans time.ge
    · rw [List.map_map] at recorded
      exact called.trans recorded
    · exact dispatched_nodup live ready fired
    · intro node member due
      have among : node ∈ (timers (thread.gettimeofday world).2.queue).filter (Due (thread.gettimeofday world).1) :=
        Multiset.mem_filter.mpr ⟨Multiset.mem_coe.mpr member, due.trans read⟩
      rw [fired] at among
      exact List.mem_map_of_mem (Multiset.mem_coe.mp among)
    · intro service member
      obtain ⟨node, among, kind⟩ := List.mem_map.mp member
      have due : node ∈ (↑dispatched : Multiset (TimerNode Service)) := Multiset.mem_coe.mpr among
      rw [← fired] at due
      obtain ⟨armed, before⟩ := Multiset.mem_filter.mp due
      exact ⟨node, Multiset.mem_coe.mp armed, kind, (le_trans before reached).trans time.ge⟩
    · intro node member
      exact read.trans_lt (ahead node member)

/-- The time that calls to `select` have slept through. -/
def idle (selects : List (Option Int × Option (List Service))) : Int :=
  (selects.map fun call => if call.2 = some [] then call.1.getD 0 else 0).sum

theorem idle_append (first second : List (Option Int × Option (List Service))) :
    idle (first ++ second) = idle first + idle second := by
  simp [idle]

/-- What calls to `select` take from the time of `svc`, which nothing puts back. -/
structure Spends (before after : SvcThread) : Prop where
  made : ∃ calls, after.selects = before.selects ++ calls ∧ 0 ≤ idle calls ∧
    ∀ call ∈ calls, ∃ wait, call.1 = some wait ∧ 0 ≤ wait ∧ wait ≤ before.timeout
  left : 0 ≤ after.timeout
  budget : after.timeout + idle after.selects ≤ before.timeout + idle before.selects

theorem Spends.timeout_le {before after : SvcThread} (spends : Spends before after) :
    after.timeout ≤ before.timeout := by
  obtain ⟨⟨calls, made, positive, _⟩, _, budget⟩ := spends
  rw [made, idle_append] at budget
  omega

theorem Spends.trans {first second third : SvcThread} (one : Spends first second) (two : Spends second third) :
    Spends first third := by
  have less := one.timeout_le
  obtain ⟨⟨calls, made, positive, bounded⟩, _, budget⟩ := one
  obtain ⟨⟨calls', made', positive', bounded'⟩, left, budget'⟩ := two
  refine ⟨⟨calls ++ calls', ?_, ?_, ?_⟩, left, budget'.trans budget⟩
  · rw [made', made, List.append_assoc]
  · rw [idle_append]
    omega
  · intro call member
    rcases List.mem_append.mp member with earlier | later
    · exact bounded call earlier
    · obtain ⟨wait, same, low, high⟩ := bounded' call later
      exact ⟨wait, same, low, high.trans less⟩

theorem countdownStop_spends (forward : Forward world) (thread : SvcThread) (startTime : Int) :
    0 ≤ (thread.countdownStop world startTime).timeout ∧
      (startTime ≤ thread.state.time →
        (thread.countdownStop world startTime).timeout ≤ max 0 (thread.timeout - (thread.state.time - startTime))) ∧
      (thread.countdownStop world startTime).selects = thread.selects := by
  obtain ⟨same, grown⟩ := gettimeofday_time forward thread.state
  have clock : (thread.gettimeofday world).1 = (thread.gettimeofday world).2.state.time := same
  have later : thread.state.time ≤ (thread.gettimeofday world).2.state.time := grown
  have kept : (thread.gettimeofday world).2.timeout = thread.timeout := rfl
  simp only [SvcThread.countdownStop, kept]
  refine ⟨?_, ?_, rfl⟩
  · split <;> omega
  · intro earlier
    split <;> omega

theorem countdown_waited (forward : Forward world) (thread : SvcThread) (positive : 0 ≤ thread.timeout) :
    ∃ counted, (thread.gettimeofday world).2.countdownStop world (thread.gettimeofday world).1 = counted ∧
      Waited thread counted ∧ counted.selects = thread.selects ∧ 0 ≤ counted.timeout ∧
      counted.timeout ≤ thread.timeout := by
  have waited := gettimeofday_waited forward thread
  obtain ⟨same, _⟩ := gettimeofday_time forward thread.state
  have clock : (thread.gettimeofday world).1 = (thread.gettimeofday world).2.state.time := same
  have kept : (thread.gettimeofday world).2.timeout = thread.timeout := rfl
  obtain ⟨low, less, selects⟩ :=
    countdownStop_spends forward (thread.gettimeofday world).2 (thread.gettimeofday world).1
  have bound := less clock.le
  refine ⟨_, rfl, waited.trans (countdownStop_waited forward _ _), selects, low, ?_⟩
  omega

/-- Every service whose timer was due at the start was called, and `select` was
told to sleep past no timer. -/
structure Punctual (before after : SvcThread) : Prop extends Called before after where
  awake : ∃ wait active, after.selects = before.selects ++ [(some wait, active)] ∧
    ∀ node ∈ before.queue.armed, wait = 0 ∨ before.state.time + wait ≤ node.timerValue

theorem handleEvents_sound (live : Live start) (forward : Forward world) (sound : Sound start thread)
    (positive : 0 ≤ thread.timeout) :
    ∃ code after, thread.handleEvents world = .ok (code, after) ∧ Sound start after ∧ Spends thread after ∧
      (Works world → Punctual thread after) := by
  obtain ⟨counted, stopped, waited, selects, low, high⟩ := countdown_waited forward thread positive
  rw [SvcThread.handleEvents]
  simp only [stopped]
  split
  next ended =>
    refine ⟨_, counted, rfl, sound.waited waited, ⟨⟨[], ?_, le_rfl, ?_⟩, low, ?_⟩, ?_⟩
    · rw [List.append_nil, selects]
    · exact fun call member => absurd member List.not_mem_nil
    · rw [selects]
      omega
    · intro works
      rw [(works _).2] at ended
      cases ended
  next =>
    have begun := gettimeofday_waited forward counted
    obtain ⟨same, _⟩ := gettimeofday_time forward counted.state
    have clock : (counted.gettimeofday world).1 = (counted.gettimeofday world).2.state.time := same
    have timeout : (counted.gettimeofday world).2.timeout = counted.timeout := rfl
    have soundBegun := sound.waited (waited.trans begun)
    obtain ⟨active, slept, wait, events, waited', kept, called, waitLow, waitHigh, idles, ready, awake⟩ :=
      waitForMultipleEvents_waited forward soundBegun (timeout ▸ low)
    obtain ⟨code, done, dispatched, soundDone, grown, kept', called', served⟩ :=
      dispatch_sound live forward (soundBegun.waited waited') active
    have ended := countdownStop_waited forward done (counted.gettimeofday world).1
    obtain ⟨left, less, made⟩ := countdownStop_spends forward done (counted.gettimeofday world).1
    have advanced := waited'.grown
    have bound := less (by omega)
    have total : (done.countdownStop world (counted.gettimeofday world).1).selects =
        thread.selects ++ [(some wait, active)] := by
      rw [made, called', called, show (counted.gettimeofday world).2.selects = thread.selects from selects]
    have alone : idle [(some wait, active)] = if active = some [] then wait else 0 := by simp [idle]
    refine ⟨code, _, ?_, soundDone.waited ended, ⟨⟨_, total, ?_, ?_⟩, left, ?_⟩, ?_⟩
    · simp only [events, dispatched, ok_bind, pure_eq_ok]
    · rw [alone]
      split <;> omega
    · intro call member
      rw [List.mem_singleton] at member
      subst member
      exact ⟨wait, rfl, waitLow, by omega⟩
    · rw [total, idle_append, alone]
      split
      next nothing =>
        have through := idles nothing
        omega
      next => omega
    · intro works
      have began := (waited.trans begun).grown
      refine ⟨(served (ready works)).waited (waited.trans (begun.trans waited')) ended, wait, active, total, ?_⟩
      intro node member
      rw [← (waited.trans begun).queue] at member
      exact (awake node member).imp_right fun before => by omega

theorem svcRound_sound (live : Live start) (forward : Forward world) (sound : Sound start thread)
    (positive : 0 ≤ thread.timeout) :
    ∃ after, (thread.svcRound world = .ok (.inl after) ∨ ∃ code, thread.svcRound world = .ok (.inr code)) ∧
      Sound start after ∧ Spends thread after := by
  obtain ⟨code, after, handled, sound', spends, _⟩ := handleEvents_sound live forward sound positive
  refine ⟨after, ?_, sound', spends⟩
  rw [SvcThread.svcRound, handled]
  simp only [ok_bind, pure_eq_ok]
  split
  · exact .inr ⟨code, rfl⟩
  · exact .inl rfl

theorem visits_sound (live : Live start) (forward : Forward world) {first : SvcThread} (sound : Sound start first)
    (positive : 0 ≤ first.timeout)
    (visited : Loops.Visits (SvcThread.svcRound world) first thread) : Sound start thread ∧ Spends first thread := by
  induction visited with
  | start => exact ⟨sound, ⟨[], (List.append_nil _).symm, le_rfl, fun _ member => absurd member List.not_mem_nil⟩,
      positive, le_rfl⟩
  | again visited round ih =>
    obtain ⟨sound', spends⟩ := ih
    obtain ⟨after, outcome, sound'', spends'⟩ := svcRound_sound live forward sound' spends.left
    rcases outcome with again | ⟨code, leaves⟩
    · rw [again] at round
      cases round
      exact ⟨sound'', spends.trans spends'⟩
    · rw [leaves] at round
      cases round

private theorem schedule_all (forward : Forward world) (delays : List (Service × Timeval))
    {queue : TimerHeap Service} {state : NetState}
    (valid : Valid queue []) (short : ∀ timer ∈ delays, micros timer.2 ≤ 5000000)
    (once : ∀ node ∈ queue.armed, node.interval = 0)
    (soon : ∀ node ∈ queue.armed, node.timerValue ≤ state.time + 5000000) :
    ∃ next after, delays.foldlM (fun state timer => scheduleTimer world state.1 state.2 timer.1 timer.2) (queue, state) =
        .ok (next, after) ∧ Valid next [] ∧ after.wrapper = state.wrapper ∧
      (next.armed.map TimerNode.type).Perm (queue.armed.map TimerNode.type ++ delays.map Prod.fst) ∧
      (∀ node ∈ next.armed, node.interval = 0) ∧ ∀ node ∈ next.armed, node.timerValue ≤ after.time + 5000000 := by
  induction delays generalizing queue state with
  | nil => exact ⟨queue, state, rfl, valid, rfl, by simp, once, soon⟩
  | cons timer delays ih =>
    obtain ⟨timerId, middle, between, armed, becomes, grown, wrapper, _, joined⟩ :=
      @scheduleTimer_armed queue state world forward valid timer.1 timer.2
    have within := short timer List.mem_cons_self
    have onceMiddle : ∀ node ∈ middle.armed, node.interval = 0 := by
      intro node member
      rcases List.mem_cons.mp (joined.mem_iff.mp member) with rfl | member
      · rfl
      · exact once node member
    have soonMiddle : ∀ node ∈ middle.armed, node.timerValue ≤ between.time + 5000000 := by
      intro node member
      rcases List.mem_cons.mp (joined.mem_iff.mp member) with rfl | member
      · show between.time + (micros timer.2 : Int) ≤ between.time + 5000000
        omega
      · exact (soon node member).trans (Int.add_le_add_right grown _)
    obtain ⟨next, after, folded, valid', kept, types, rest⟩ :=
      ih becomes.valid (fun other member => short other (List.mem_cons_of_mem _ member)) onceMiddle soonMiddle
    refine ⟨next, after, by simp [armed, folded], valid', kept.trans wrapper, types.trans ?_, rest⟩
    have moved := (joined.map TimerNode.type).append_right (delays.map Prod.fst)
    exact moved.trans List.perm_middle.symm

theorem ofServices_sound {size : Nat} (big : 2 ≤ size) (forward : Forward world) {services : Services}
    (short : ∀ timer ∈ services.net.timers, micros timer.2 ≤ 5000000) :
    ∃ thread, SvcThread.ofServices world size services = .ok thread ∧ Sound services thread ∧
      thread.timeout = 3000000 ∧ thread.selects = [] := by
  have none : (ofSize size : TimerHeap Service).armed = [] := rfl
  obtain ⟨queue, state, folded, valid, wrapper, types, once, soon⟩ :=
    @schedule_all _ forward services.net.timers (ofSize size) { wrapper := services.wrapper } (initial_valid big) short
      (fun node member => absurd (none ▸ member) List.not_mem_nil)
      (fun node member => absurd (none ▸ member) List.not_mem_nil)
  refine ⟨{ queue, handlers := services.net.handlers, state }, ?_, ⟨valid, ⟨[], services, .start, ?_⟩, once, soon⟩, rfl,
    rfl⟩
  · rw [SvcThread.ofServices, folded]
    rfl
  · exact ⟨wrapper, rfl, types⟩

theorem init_short {afterRd : Services} {rdFound : RDInit} {proxyFound : ProxyInit}
    (rd : Services.rdInit {} rdFound = (0, afterRd)) (proxy : afterRd.proxyInit proxyFound = (0, start)) :
    ∀ timer ∈ start.net.timers, micros timer.2 ≤ 5000000 := by
  obtain ⟨rdCtx, rfl⟩ := rdInit_zero rd
  obtain ⟨proxyCtx, rfl⟩ := proxyInit_zero proxy
  have listed : (initialised (initialised {} .rd rdCtx) .proxy proxyCtx).net.timers =
      [(.rd, fiveSeconds), (.proxy, fiveSeconds)] := rfl
  intro timer member
  rw [listed] at member
  rcases List.mem_cons.mp member with rfl | member
  · decide
  · rw [List.mem_singleton.mp member]
    decide

/-- The loop of `svc` never faults while nobody sets the clock back. What it has done is
a run of the machine of the two services; each service has one timer in the
heap, at most five seconds away. -/
theorem svc_simulates {size : Nat} (big : 2 ≤ size) {afterRd : Services} {rdFound : RDInit} {proxyFound : ProxyInit}
    (rd : Services.rdInit {} rdFound = (0, afterRd)) (proxy : afterRd.proxyInit proxyFound = (0, start))
    (forward : Forward world) : ∃ first, SvcThread.ofServices world size start = .ok first ∧
      ∀ thread, Loops.Visits (SvcThread.svcRound world) first thread →
        (∃ history services, Histories.Run reactorStep start history services ∧
          Represents thread.queue thread.state thread.handlers services) ∧
        (∀ service, (thread.queue.armed.filter (·.type = service)).length = 1) ∧
        (∀ node ∈ thread.queue.armed, node.timerValue ≤ thread.state.time + 5000000) ∧
        ∃ outcome, thread.svcRound world = .ok outcome := by
  have live := live_of_init rd proxy
  obtain ⟨first, opened, sound, timeout, _⟩ := ofServices_sound big forward (init_short rd proxy)
  refine ⟨first, opened, ?_⟩
  intro thread visited
  obtain ⟨⟨valid, simulates⟩, spends⟩ := visits_sound live forward sound (by omega) visited
  obtain ⟨after, outcome, _⟩ := svcRound_sound live forward ⟨valid, simulates⟩ spends.left
  refine ⟨simulates.run, simulates.single live, simulates.soon, ?_⟩
  rcases outcome with again | ⟨code, leaves⟩
  · exact ⟨_, again⟩
  · exact ⟨_, leaves⟩

def uneventful : World where
  elapse := fun _ => 1000000
  ready := fun _ => some []
  ticks := fun moment => moment.toUInt32
  libcoap := fun _ => Timers.libcoap
  received := fun _ => waiting
  deactivated := fun _ => false
  closing := fun _ => false

theorem uneventful_forward : Forward uneventful := fun _ => Int.natCast_nonneg 1000000

private theorem uneventful_stays {outcome : SvcThread ⊕ Int} (round : thread.svcRound uneventful = .ok outcome) :
    ∃ next, outcome = .inl next := by
  rw [SvcThread.svcRound] at round
  cases handled : thread.handleEvents uneventful with
  | error fault =>
    rw [handled] at round
    cases round
  | ok result =>
    rw [handled] at round
    cases round
    exact ⟨result.2, rfl⟩

theorem svc_simulates_uneventful : ∃ first next, SvcThread.ofServices uneventful 32 started = .ok first ∧
    first.svcRound uneventful = .ok (.inl next) ∧
    (∀ service, (next.queue.armed.filter (·.type = service)).length = 1) ∧
    ∃ outcome, next.svcRound uneventful = .ok outcome := by
  have rd : Services.rdInit {} rdFound = (0, afterRd) := rfl
  have proxy : afterRd.proxyInit proxyFound = (0, started) := rfl
  obtain ⟨first, opened, all⟩ := svc_simulates (show 2 ≤ 32 by decide) rd proxy uneventful_forward
  obtain ⟨_, _, _, outcome, round⟩ := all first .start
  obtain ⟨next, rfl⟩ := uneventful_stays round
  obtain ⟨_, single, _, further⟩ := all next (.again .start round)
  exact ⟨first, next, opened, round, single, further⟩

/-- The timeout of `svc` is declared outside its loop and counted down by every
call: the time slept adds up to three seconds at most, and no later call is
given more than what is left of them. -/
theorem svc_sleeps {size : Nat} (big : 2 ≤ size) {afterRd : Services} {rdFound : RDInit} {proxyFound : ProxyInit}
    (rd : Services.rdInit {} rdFound = (0, afterRd)) (proxy : afterRd.proxyInit proxyFound = (0, start))
    (forward : Forward world) : ∃ first, SvcThread.ofServices world size start = .ok first ∧
      ∀ thread, Loops.Visits (SvcThread.svcRound world) first thread → idle thread.selects ≤ 3000000 ∧
        ∀ last, Loops.Visits (SvcThread.svcRound world) thread last →
          ∃ calls, last.selects = thread.selects ++ calls ∧
            ∀ call ∈ calls, ∃ wait, call.1 = some wait ∧ 0 ≤ wait ∧ wait ≤ 3000000 - idle thread.selects := by
  have live := live_of_init rd proxy
  obtain ⟨first, opened, sound, timeout, none⟩ := ofServices_sound big forward (init_short rd proxy)
  refine ⟨first, opened, ?_⟩
  intro thread visited
  obtain ⟨sound', spends⟩ := visits_sound live forward sound (by omega) visited
  have budget := spends.budget
  rw [timeout, none, show idle [] = 0 from rfl] at budget
  have left := spends.left
  refine ⟨by omega, ?_⟩
  intro last visited'
  obtain ⟨_, ⟨⟨calls, made, _, bounded⟩, _⟩⟩ := visits_sound live forward sound' spends.left visited'
  refine ⟨calls, made, ?_⟩
  intro call member
  obtain ⟨wait, given, low, high⟩ := bounded call member
  exact ⟨wait, given, low, by omega⟩

theorem svc_sleeps_uneventful : ∃ first, SvcThread.ofServices uneventful 32 started = .ok first ∧
    ∀ thread, Loops.Visits (SvcThread.svcRound uneventful) first thread → idle thread.selects ≤ 3000000 := by
  have rd : Services.rdInit {} rdFound = (0, afterRd) := rfl
  have proxy : afterRd.proxyInit proxyFound = (0, started) := rfl
  obtain ⟨first, opened, all⟩ := svc_sleeps (show 2 ≤ 32 by decide) rd proxy uneventful_forward
  exact ⟨first, opened, fun thread visited => (all thread visited).1⟩

/-- As long as `select` works and nobody sets the clock back, `time_out` of every
service whose timer is due when a turn of the loop begins is called in that turn,
and no turn sleeps past a timer. -/
theorem svc_punctual {size : Nat} (big : 2 ≤ size) {afterRd : Services} {rdFound : RDInit} {proxyFound : ProxyInit}
    (rd : Services.rdInit {} rdFound = (0, afterRd)) (proxy : afterRd.proxyInit proxyFound = (0, start))
    (forward : Forward world) (works : Works world) : ∃ first, SvcThread.ofServices world size start = .ok first ∧
      ∀ thread, Loops.Visits (SvcThread.svcRound world) first thread →
        ∃ code after, thread.handleEvents world = .ok (code, after) ∧ Punctual thread after := by
  have live := live_of_init rd proxy
  obtain ⟨first, opened, sound, timeout, _⟩ := ofServices_sound big forward (init_short rd proxy)
  refine ⟨first, opened, ?_⟩
  intro thread visited
  obtain ⟨sound', spends⟩ := visits_sound live forward sound (by omega) visited
  obtain ⟨code, after, handled, _, _, punctual⟩ := handleEvents_sound live forward sound' spends.left
  exact ⟨code, after, handled, punctual works⟩

theorem svc_punctual_uneventful : ∃ first code after, SvcThread.ofServices uneventful 32 started = .ok first ∧
    first.handleEvents uneventful = .ok (code, after) ∧ Punctual first after := by
  have rd : Services.rdInit {} rdFound = (0, afterRd) := rfl
  have proxy : afterRd.proxyInit proxyFound = (0, started) := rfl
  obtain ⟨first, opened, all⟩ :=
    svc_punctual (show 2 ≤ 32 by decide) rd proxy uneventful_forward fun _ => ⟨rfl, rfl⟩
  obtain ⟨code, after, handled, punctual⟩ := all first .start
  exact ⟨first, code, after, opened, handled, punctual⟩

end

end IoTGateway.Proofs.SvcLoop
