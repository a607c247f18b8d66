import IoTGateway.Services

/-! `Gateway::Stop` on the main thread beside the loop of `NetService::svc` on the
net thread. A step of either is atomic; every interleaving is possible. -/

namespace IoTGateway

inductive Callback where
  | handleInput
  | handleTimeout
  deriving Repr, DecidableEq

inductive Object where
  | coapWrapper (service : Service)
  | coapMutex (service : Service)
  | coapCtx (service : Service)
  | rdResource
  | lookupResource
  | conf
  | service (service : Service)
  | svcNet
  | svcConf
  deriving Repr, DecidableEq

/-- The constructor of `CoAPWrapper` and its `Create`. -/
def coapWrapperCreate (service : Service) : List Object := [.coapWrapper service, .coapMutex service, .coapCtx service]

def rdServiceInit : List Object := coapWrapperCreate .rd ++ [.rdResource, .lookupResource]

def cfgServiceInit : List Object := [.conf]

def fwProxyServiceInit : List Object := coapWrapperCreate .proxy

/-- What a successful `Init` creates, in order. The reactor is the net service's
own, the resources below `rd-lookup` the lookup resource's. -/
def gatewayInit : List Object :=
  [.svcConf, .svcNet] ++ cfgServiceInit ++ [.service .rd] ++ rdServiceInit ++ [.service .proxy] ++ fwProxyServiceInit

inductive Action where
  /-- `if (coap_wrapper_) delete coap_wrapper_;` -/
  | deleteWrapper (service : Service)
  | delete (object : Object)
  | setBreakFlag
  | endReactorEventLoop
  | closeReactor
  | wait
  deriving Repr, DecidableEq

def rdServiceClose : List Action := [.deleteWrapper .rd, .delete .rdResource, .delete .lookupResource]

def netServiceClose : List Action := [.setBreakFlag, .endReactorEventLoop, .closeReactor, .wait]

def cfgServiceClose : List Action := [.delete .conf]

def fwProxyServiceClose : List Action := [.deleteWrapper .proxy]

def gatewayClose : List Action := [.delete (.service .proxy), .delete (.service .rd), .delete .svcNet, .delete .svcConf]

def gatewayStop : List Action :=
  rdServiceClose ++ netServiceClose ++ cfgServiceClose ++ fwProxyServiceClose ++ gatewayClose

/-- Where the net thread stands in `NetService::svc`. -/
inductive NetThread where
  | handleEvents
  /-- a callback was delivered and has not looked at the wrapper yet -/
  | called (service : Service) (callback : Callback)
  /-- in `handle_event` or `time_out` of the wrapper -/
  | inWrapper (service : Service) (callback : Callback) (wrapper : Object)
  | scheduleTimer (service : Service)
  | checkFlag
  | exited
  deriving Repr, DecidableEq

structure Gateway where
  todo : List Action
  thread : NetThread
  breakNetsvcThreadFlag : Bool := false
  coapWrapper : Service → Option Object
  deleted : List Object := []

/-- `Stop` is called after a successful `Init`, with the net thread running. -/
def Gateway.running : Gateway where
  todo := gatewayStop
  thread := .handleEvents
  coapWrapper service := some (.coapWrapper service)

/-- One action of the main thread. The pointer to a deleted wrapper is kept, and
`wait` returns once the net thread has. Ending the event loop and closing the
reactor prevent nothing here, so that more may be delivered than really is. -/
def Gateway.perform (gateway : Gateway) : Action → Option Gateway
  | .deleteWrapper service =>
    match gateway.coapWrapper service with
    | none => some gateway
    | some wrapper => some { gateway with deleted := wrapper :: gateway.deleted }
  | .delete object => some { gateway with deleted := object :: gateway.deleted }
  | .setBreakFlag => some { gateway with breakNetsvcThreadFlag := true }
  | .endReactorEventLoop => some gateway
  | .closeReactor => some gateway
  | .wait => if gateway.thread = .exited then some gateway else none

/-- The net thread goes on by one step: `handle_events` returns, a callback comes
to its next use of an object, or the loop looks at its flag. -/
def Gateway.proceed (gateway : Gateway) : Option Gateway :=
  match gateway.thread with
  | .handleEvents => some { gateway with thread := .checkFlag }
  | .called service callback =>
    match gateway.coapWrapper service, callback with
    | some wrapper, _ => some { gateway with thread := .inWrapper service callback wrapper }
    | none, .handleInput => some { gateway with thread := .handleEvents }
    | none, .handleTimeout => none
  | .inWrapper _ .handleInput _ => some { gateway with thread := .handleEvents }
  | .inWrapper service .handleTimeout _ => some { gateway with thread := .scheduleTimer service }
  | .scheduleTimer _ => some { gateway with thread := .handleEvents }
  | .checkFlag =>
    if gateway.breakNetsvcThreadFlag then some { gateway with thread := .exited }
    else some { gateway with thread := .handleEvents }
  | .exited => none

/-- Who moves: the main thread, the reactor with a callback for a service, or
the net thread where it stands. -/
inductive Move where
  | main
  | deliver (service : Service) (callback : Callback)
  | net
  deriving Repr, DecidableEq

def Gateway.step (gateway : Gateway) : Move → Option Gateway
  | .main =>
    match gateway.todo with
    | [] => none
    | action :: rest => (gateway.perform action).map fun next => { next with todo := rest }
  | .deliver service callback =>
    if gateway.thread = .handleEvents then some { gateway with thread := .called service callback } else none
  | .net => gateway.proceed

/-- `main` after a successful `Init`. `Run` returns once the net thread that it
activated has, and `main` calls `Stop` whatever `Start` returned. -/
def Gateway.main (activated : Bool) : Gateway :=
  if activated then { Gateway.running with todo := .wait :: gatewayStop } else { Gateway.running with thread := .exited }

end IoTGateway
