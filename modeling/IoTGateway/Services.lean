import Mathlib.Logic.Function.Basic
import IoTGateway.SendQueue

/-! The two services on the reactor of the net service: their `Init`, and the
callbacks the reactor makes to them. All callbacks run on the net thread, one
after the other. -/

namespace IoTGateway

inductive Service where
  | rd
  | proxy
  deriving Repr, DecidableEq

/-- `CoAPWrapper`; its context is null until `Create`. -/
structure CoAPWrapper where
  coapCtx : Option CoapContextT := none
  deriving Repr, DecidableEq

/-- What the reactor of the net service holds: the handlers registered for
input, and the one-shot timers that have not fired. -/
structure NetService where
  handlers : List Service := []
  timers : List (Service × Timeval) := []
  deriving Repr, DecidableEq

def NetService.regHandler (net : NetService) (eventHandler : Service) : NetService :=
  { net with handlers := net.handlers ++ [eventHandler] }

def NetService.scheduleTimer (net : NetService) (eventHandler : Service) (delay : Timeval) : NetService :=
  { net with timers := net.timers ++ [(eventHandler, delay)] }

def NetService.expire (net : NetService) (index : Nat) : NetService := { net with timers := net.timers.eraseIdx index }

structure Services where
  net : NetService := {}
  wrapper : Service → Option CoAPWrapper := fun _ => none

def Services.setWrapper (services : Services) (service : Service) (wrapper : CoAPWrapper) : Services :=
  { services with wrapper := Function.update services.wrapper service (some wrapper) }

def Services.register (services : Services) (service : Service) : Services :=
  { services with net := services.net.regHandler service }

def Services.schedule (services : Services) (service : Service) (delay : Timeval) : Services :=
  { services with net := services.net.scheduleTimer service delay }

/-- `ACE_Time_Value timeout; timeout.sec(5);` -/
def fiveSeconds : Timeval := { tvSec := 5, tvUsec := 0 }

/-- `CoAPWrapper::Create`, by what `get_context` found. -/
def CoAPWrapper.create (wrapper : CoAPWrapper) (context : Option CoapContextT) : Int × CoAPWrapper :=
  match context with
  | none => (-1, { wrapper with coapCtx := none })
  | some ctx => (0, { wrapper with coapCtx := some ctx })

structure RDInit where
  wrapper : Bool
  context : Option CoapContextT
  rdResource : Bool
  rdCreated : Bool
  lookupResource : Bool
  lookupCreated : Bool

def Services.rdInit (services : Services) (found : RDInit) : Int × Services :=
  if !found.wrapper then (-1, services)
  else
    let (code, wrapper) := CoAPWrapper.create {} found.context
    let services := services.setWrapper .rd wrapper
    if code < 0 then (-1, services)
    else if !found.rdResource then (-1, services)
    else if !found.rdCreated then (-1, services)
    else if !found.lookupResource then (-1, services)
    else if !found.lookupCreated then (-1, services)
    else (0, (services.register .rd).schedule .rd fiveSeconds)

structure ProxyInit where
  wrapper : Bool
  context : Option CoapContextT

def Services.proxyInit (services : Services) (found : ProxyInit) : Int × Services :=
  if !found.wrapper then (-1, services)
  else
    let (code, wrapper) := CoAPWrapper.create {} found.context
    let services := services.setWrapper .proxy wrapper
    if code < 0 then (-1, services)
    else (0, (services.register .proxy).schedule .proxy fiveSeconds)

/-- libcoap as one callback meets it. -/
structure Libcoap where
  retransmit : CoapContextT → CoapQueueT → CoapContextT
  law : Retransmits retransmit

/-- `CoAPWrapper::handle_event`: `ctx` is what `coap_read` and `coap_dispatch`
make of the context. -/
def CoAPWrapper.handleEvent (wrapper : CoAPWrapper) (ctx : CoapContextT) : CoAPWrapper :=
  match wrapper.coapCtx with
  | none => wrapper
  | some _ => { wrapper with coapCtx := some ctx }

/-- `CoAPWrapper::time_out`; without a context the caller's value stays. -/
def CoAPWrapper.timeOut (libcoap : Libcoap) (wrapper : CoAPWrapper) (now : UInt32) (tm : Timeval) :
    Checked (CoAPWrapper × Timeval) :=
  match wrapper.coapCtx with
  | none => .ok (wrapper, tm)
  | some ctx => do
    let (state, timeout) ← timeOutWith libcoap.retransmit ctx now
    return ({ wrapper with coapCtx := some state.ctx }, timeout)

/-- `handle_input`, the same in both services. -/
def Services.handleInput (services : Services) (service : Service) (ctx : CoapContextT) : Services :=
  match services.wrapper service with
  | none => services
  | some wrapper => services.setWrapper service (wrapper.handleEvent ctx)

/-- `handle_timeout`, the same in both services; the wrapper is used unchecked. -/
def Services.handleTimeout (libcoap : Libcoap) (services : Services) (service : Service) (now : UInt32) :
    Checked (Timeval × Services) :=
  match services.wrapper service with
  | none => .error .nullPointer
  | some wrapper => do
    let (wrapper, timeout) ← wrapper.timeOut libcoap now fiveSeconds
    return (timeout, (services.setWrapper service wrapper).schedule service timeout)

/-- What the reactor does next: report input for a service, or let one of the
pending timers fire. -/
inductive ReactorEvent where
  | input (service : Service) (ctx : CoapContextT)
  | expire (index : Nat) (now : UInt32) (libcoap : Libcoap)

/-- One event and the callback for it. A timer is gone before its handler runs;
the answer says which service was armed again, and for how long. -/
def reactorStep (services : Services) : ReactorEvent → Checked (Option (Service × Timeval) × Services)
  | .input service ctx => .ok (none, services.handleInput service ctx)
  | .expire index now libcoap =>
    match services.net.timers[index]? with
    | none => .ok (none, services)
    | some timer => do
      let fired := { services with net := services.net.expire index }
      let (delay, services) ← fired.handleTimeout libcoap timer.1 now
      return (some (timer.1, delay), services)

end IoTGateway
