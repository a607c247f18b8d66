import IoTGateway.Lib.History
import IoTGateway.Proofs.TimerDelay
import IoTGateway.Services

/-! The timers of the two services. Each callback that takes a timer off the
reactor puts one for the same service back, with a delay that neither spins nor
stalls. -/

namespace IoTGateway.Proofs.Timers
open RetransmissionLoop TimerDelay

def pending (services : Services) (service : Service) : List (Service × Timeval) :=
  services.net.timers.filter (·.1 = service)

/-- A normalised time, greater than zero and at most two seconds. -/
structure WellTimed (delay : Timeval) : Prop where
  normalised : delay.tvUsec.toNat < 1000000
  positive : 0 < micros delay
  bounded : micros delay ≤ 2000000

/-- What holds between two callbacks: each service has a context and one timer. -/
structure Live (services : Services) : Prop where
  context : ∀ service, ∃ ctx, services.wrapper service = some { coapCtx := some ctx }
  once : ∀ service, (pending services service).length = 1

private theorem timerDelay_wellTimed {now : UInt32} (next : Option CoapQueueT)
    (later : ∀ head, next = some head → now < head.t) : WellTimed (timerDelay next now) := by
  cases next with
  | none =>
    rw [timerDelay]
    exact ⟨by decide, by decide, by decide⟩
  | some head =>
    by_cases near : head.t ≤ now + coapResourceCheckTime
    · rcases timerDelay_near (later head rfl) near with ⟨_, delay⟩ | ⟨_, delay⟩
      · rw [delay]
        exact ⟨by decide, by decide, by decide⟩
      · rw [delay]
        exact ⟨by decide, by decide, by decide⟩
    · rw [timerDelay_far near]
      exact ⟨by decide, by decide, by decide⟩

theorem wrapper_timeOut (libcoap : Libcoap) (ctx : CoapContextT) (now : UInt32) (tm : Timeval) : ∃ after delay,
    CoAPWrapper.timeOut libcoap { coapCtx := some ctx } now tm = .ok ({ coapCtx := some after }, delay) ∧
      WellTimed delay := by
  obtain ⟨state, returned, _, waiting⟩ := timeOutWith_returns libcoap.law ctx now
  exact ⟨state.ctx, _, by simp only [CoAPWrapper.timeOut, returned, ok_bind, pure_eq_ok],
    timerDelay_wellTimed _ waiting⟩

section
variable (services : Services)

theorem setWrapper_wrapper (service other : Service) (wrapper : CoAPWrapper) :
    (services.setWrapper service wrapper).wrapper other =
      if other = service then some wrapper else services.wrapper other := by
  simp only [Services.setWrapper, Function.update_apply]

@[simp] theorem schedule_wrapper (service : Service) (delay : Timeval) :
    (services.schedule service delay).wrapper = services.wrapper := rfl

@[simp] theorem pending_setWrapper (service other : Service) (wrapper : CoAPWrapper) :
    pending (services.setWrapper service wrapper) other = pending services other := rfl

theorem pending_schedule (service other : Service) (delay : Timeval) :
    (pending (services.schedule service delay) other).length =
      (pending services other).length + if service = other then 1 else 0 := by
  simp only [pending, Services.schedule, NetService.scheduleTimer, List.filter_append, List.length_append,
    List.filter_singleton]
  by_cases same : service = other <;> simp [same]

theorem pending_expire {index : Nat} {timer : Service × Timeval} (there : services.net.timers[index]? = some timer)
    (other : Service) : (pending { services with net := services.net.expire index } other).length +
      (if timer.1 = other then 1 else 0) = (pending services other).length := by
  obtain ⟨inside, rfl⟩ := List.getElem?_eq_some_iff.mp there
  have counted := ((List.getElem_cons_eraseIdx_perm inside).filter (·.1 = other)).length_eq
  simp only [pending, NetService.expire, ← counted, List.filter_cons, decide_eq_true_eq]
  split <;> simp

end

theorem handleInput_live {services : Services} (live : Live services) (service : Service) (ctx : CoapContextT) :
    Live (services.handleInput service ctx) := by
  obtain ⟨old, wrapped⟩ := live.context service
  simp only [Services.handleInput, wrapped, CoAPWrapper.handleEvent]
  refine ⟨?_, live.once⟩
  intro other
  rw [setWrapper_wrapper]
  split
  · exact ⟨ctx, rfl⟩
  · exact live.context other

theorem handleTimeout_live {services : Services}
    (context : ∀ service, ∃ ctx, services.wrapper service = some { coapCtx := some ctx }) (service : Service)
    (once : ∀ other, (pending services other).length + (if service = other then 1 else 0) = 1)
    (libcoap : Libcoap) (now : UInt32) : ∃ delay next,
      services.handleTimeout libcoap service now = .ok (delay, next) ∧ WellTimed delay ∧ Live next := by
  obtain ⟨ctx, wrapped⟩ := context service
  obtain ⟨after, delay, called, wellTimed⟩ := wrapper_timeOut libcoap ctx now fiveSeconds
  refine ⟨delay, (services.setWrapper service { coapCtx := some after }).schedule service delay, ?_, wellTimed, ?_, ?_⟩
  · simp only [Services.handleTimeout, wrapped, called, ok_bind, pure_eq_ok]
  · intro other
    rw [schedule_wrapper, setWrapper_wrapper]
    split
    · exact ⟨after, rfl⟩
    · exact context other
  · intro other
    rw [pending_schedule, pending_setWrapper]
    exact once other

theorem reactorStep_live {services : Services} (live : Live services) (event : ReactorEvent) : ∃ armed next,
    reactorStep services event = .ok (armed, next) ∧ Live next ∧
      ∀ service delay, armed = some (service, delay) → WellTimed delay := by
  cases event with
  | input service ctx => exact ⟨none, _, rfl, handleInput_live live service ctx, by simp⟩
  | expire index now libcoap =>
    simp only [reactorStep]
    cases there : services.net.timers[index]? with
    | none => exact ⟨none, services, rfl, live, by simp⟩
    | some timer =>
      have context : ∀ service, ∃ ctx, ({ services with net := services.net.expire index } : Services).wrapper service =
          some { coapCtx := some ctx } := live.context
      have once : ∀ other, (pending { services with net := services.net.expire index } other).length +
          (if timer.1 = other then 1 else 0) = 1 := by
        intro other
        rw [pending_expire services there, live.once]
      obtain ⟨delay, next, called, wellTimed, kept⟩ := handleTimeout_live context timer.1 once libcoap now
      refine ⟨some (timer.1, delay), next, by simp only [called, ok_bind, pure_eq_ok], kept, ?_⟩
      intro service armed same
      cases same
      exact wellTimed

theorem reactorStep_preserves : Histories.Preserves reactorStep Live := by
  intro services event live
  obtain ⟨armed, next, answered, kept, _⟩ := reactorStep_live live event
  exact ⟨armed, next, answered, kept⟩

def initialised (services : Services) (service : Service) (ctx : CoapContextT) : Services :=
  ((services.setWrapper service { coapCtx := some ctx }).register service).schedule service fiveSeconds

theorem rdInit_zero {services after : Services} {found : RDInit} (started : services.rdInit found = (0, after)) :
    ∃ ctx, after = initialised services .rd ctx := by
  obtain ⟨wrapper, context, rdResource, rdCreated, lookupResource, lookupCreated⟩ := found
  cases context with
  | none => cases wrapper <;> simp [Services.rdInit, CoAPWrapper.create] at started
  | some ctx =>
    refine ⟨ctx, ?_⟩
    cases wrapper <;> cases rdResource <;> cases rdCreated <;> cases lookupResource <;> cases lookupCreated <;>
      simp [Services.rdInit, CoAPWrapper.create] at started
    exact started.symm

theorem proxyInit_zero {services after : Services} {found : ProxyInit}
    (started : services.proxyInit found = (0, after)) : ∃ ctx, after = initialised services .proxy ctx := by
  obtain ⟨wrapper, context⟩ := found
  cases context with
  | none => cases wrapper <;> simp [Services.proxyInit, CoAPWrapper.create] at started
  | some ctx =>
    refine ⟨ctx, ?_⟩
    cases wrapper <;> simp [Services.proxyInit, CoAPWrapper.create] at started
    exact started.symm

theorem live_of_init {afterRd start : Services} {rdFound : RDInit} {proxyFound : ProxyInit}
    (rd : Services.rdInit {} rdFound = (0, afterRd)) (proxy : afterRd.proxyInit proxyFound = (0, start)) :
    Live start := by
  obtain ⟨rdCtx, rfl⟩ := rdInit_zero rd
  obtain ⟨proxyCtx, rfl⟩ := proxyInit_zero proxy
  constructor
  · intro service
    cases service with
    | rd => exact ⟨rdCtx, rfl⟩
    | proxy => exact ⟨proxyCtx, rfl⟩
  · intro service
    cases service <;> rfl

/-- After both `Init`s, whatever the reactor does: each service has one pending
timer between callbacks, every armed delay is well timed, and every callback
returns. -/
theorem one_live_timer {afterRd start services : Services} {rdFound : RDInit} {proxyFound : ProxyInit}
    (rd : Services.rdInit {} rdFound = (0, afterRd)) (proxy : afterRd.proxyInit proxyFound = (0, start))
    {history : List (ReactorEvent × Option (Service × Timeval))}
    (run : Histories.Run reactorStep start history services) :
    (∀ service, (pending services service).length = 1) ∧
    (∀ event service delay, (event, some (service, delay)) ∈ history → WellTimed delay) ∧
    ∀ event, ∃ armed next, reactorStep services event = .ok (armed, next) := by
  have initial := live_of_init rd proxy
  have live := run.invariant reactorStep_preserves initial
  refine ⟨live.once, ?_, ?_⟩
  · intro event service delay member
    obtain ⟨before, after, held, answered⟩ := run.answered reactorStep_preserves initial member
    obtain ⟨armed, next, same, _, wellTimed⟩ := reactorStep_live held event
    obtain ⟨rfl, rfl⟩ := Prod.mk.inj (Except.ok.inj (answered.symm.trans same))
    exact wellTimed service delay rfl
  · intro event
    obtain ⟨armed, next, answered, _⟩ := reactorStep_live live event
    exact ⟨armed, next, answered⟩

def rdFound : RDInit where
  wrapper := true
  context := some waiting
  rdResource := true
  rdCreated := true
  lookupResource := true
  lookupCreated := true

def proxyFound : ProxyInit := { wrapper := true, context := some { sendqueueBasetime := 0, sendqueue := [] } }

def afterRd : Services := (Services.rdInit {} rdFound).2

def started : Services := (afterRd.proxyInit proxyFound).2

/-- libcoap's own `coap_retransmit`, while every send fails. -/
def libcoap : Libcoap where
  retransmit := coapRetransmit backoff fun _ => -1
  law := retransmits_coapRetransmit _ _

theorem one_live_timer_started : ∃ history services, Histories.Run reactorStep started history services ∧
    history.map Prod.fst = [.expire 1 4294967295 libcoap, .input .rd waiting, .expire 0 99 libcoap] ∧
    (∀ service, (pending services service).length = 1) ∧
    (∀ event service delay, (event, some (service, delay)) ∈ history → WellTimed delay) ∧
    ∀ event, ∃ armed next, reactorStep services event = .ok (armed, next) := by
  have rd : Services.rdInit {} rdFound = (0, afterRd) := rfl
  have proxy : afterRd.proxyInit proxyFound = (0, started) := rfl
  obtain ⟨history, services, run, same⟩ := Histories.Run.exists reactorStep_preserves (live_of_init rd proxy)
    [.expire 1 4294967295 libcoap, .input .rd waiting, .expire 0 99 libcoap]
  exact ⟨history, services, run, same, one_live_timer rd proxy run⟩

end IoTGateway.Proofs.Timers
