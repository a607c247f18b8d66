import Std.Data.ExtTreeMap
import IoTGateway.Address
import IoTGateway.Query

/-! `CoAPResource`: its attributes, the comparison with a requested endpoint and
the update from the query of a request. -/

namespace IoTGateway

/-- `CoAP_Attr`, a `std::map` from names to values. -/
abbrev CoAPAttr := Std.ExtTreeMap Bytes Bytes

structure CoAPResource where
  uri : Bytes
  payload : Bytes := []
  attr : CoAPAttr := ∅
  /-- the `coap_resource_t` that `CreateResource` returned, null if it failed -/
  coapResource : Option Nat := none

/-- `(*attr_.find(key)).second`. -/
def CoAPResource.find (r : CoAPResource) (key : Bytes) : Checked Bytes :=
  match r.attr[key]? with
  | some value => .ok value
  | none => .error .endIterator

/-- `compare`: both attributes are dereferenced before either is compared. -/
def CoAPResource.compare (r : CoAPResource) (domain ep : Bytes) : Checked Bool := do
  let epSelf ← r.find (ascii "ep")
  let domainSelf ← r.find (ascii "d")
  return epSelf == ep && domainSelf == domain

/-- `update_lifetime`; `%d` of an `int` always fits the 20 byte buffer. -/
def CoAPResource.updateLifetime (r : CoAPResource) (lt : Int32) : CoAPResource :=
  { r with attr := r.attr.insert (ascii "lt") (formatInt (if lt < 60 then 60 else lt)) }

def CoAPResource.updateEt (r : CoAPResource) (et : Bytes) : CoAPResource :=
  if et.isEmpty then r else { r with attr := r.attr.insert (ascii "et") et }

def CoAPResource.updateContext (r : CoAPResource) (con : Bytes) : CoAPResource :=
  if con.isEmpty then r else { r with attr := r.attr.insert (ascii "con") con }

/-- What a handler is given: the request, its sender and the response that it
fills in. -/
structure CoAPCallback where
  request : CoapPdu
  peer : CoapAddress
  response : CoapPdu := {}

/-- `update`, from the query of the request and the address of the peer. -/
def CoAPResource.update (os : Platform) (r : CoAPResource) (callback : CoAPCallback) : Checked CoAPResource := do
  let lifetime ← getQueryValueInt os callback.request (ascii "lt") 0
  let et ← getQueryValue callback.request (ascii "et") []
  let context ← getQueryValue callback.request (ascii "con") []
  let context ← if context.isEmpty then getDefaultCon os callback.peer else pure context
  return ((r.updateLifetime lifetime).updateContext context).updateEt et

end IoTGateway
