import IoTGateway.Resource

/-! The resource directory: `CoAP_RD_Resource::handler_post`, the cache of
registered endpoints and the resource table of the CoAP context. -/

namespace IoTGateway

/-- The objects a `coap_resource_t` can point back to: the fixed ones of the
service, and the registered nodes by their address. -/
inductive ObjectRef where
  | rd
  | lookUp
  | lookUpDomain
  | lookUpEp
  | lookUpRes
  | node (address : Nat)
  deriving Repr, DecidableEq

structure CoapResourceT where
  uri : Bytes
  linkAttr : List (Bytes × Bytes)
  appContex : ObjectRef
  deriving Repr, DecidableEq

/-- The resources of the CoAP context in the order they were added, the node
objects by address, and `ep_cache_`. -/
structure RDService where
  resources : List CoapResourceT := []
  heap : List CoAPResource := []
  epCache : List Nat := []

def coapAddAttr (linkAttr : List (Bytes × Bytes)) (pair : Bytes × Bytes) : List (Bytes × Bytes) := pair :: linkAttr

/-- `CreateResource`; `initOk` tells whether `coap_resource_init` found memory.
`coap_add_attr`, whose result nobody looks at, always finds some here. -/
def createResource (service : RDService) (uri : Bytes) (attr : CoAPAttr) (appContext : ObjectRef) (initOk : Bool) :
    Option Nat × RDService :=
  if initOk then
    let r : CoapResourceT := { uri, linkAttr := attr.toList.foldl coapAddAttr [], appContex := appContext }
    (some service.resources.length, { service with resources := service.resources ++ [r] })
  else (none, service)

def RDService.deref (service : RDService) (r : Nat) : Checked CoAPResource :=
  match service.heap[r]? with
  | some node => .ok node
  | none => .error .nullPointer

def RDService.store (service : RDService) (r : Nat) (node : CoAPResource) : RDService :=
  { service with heap := service.heap.set r node }

/-- The search from some place in the list on. -/
def findFrom (service : RDService) (domain ep : Bytes) : List Nat → Checked (Option Nat)
  | [] => .ok none
  | e :: rest => do
    let node ← service.deref e
    if ← node.compare domain ep then return some e else findFrom service domain ep rest

def findResourceFromCacheByEp (service : RDService) (domain ep : Bytes) : Checked (Option Nat) :=
  findFrom service domain ep service.epCache

def addNodeToCache (service : RDService) (r : Nat) : RDService := { service with epCache := service.epCache ++ [r] }

def locsize : Nat := 68
def slash : UInt8 := 47

/-- `create_node_uri`: the generator is seeded from the clock on every call. -/
def createNodeUri (os : Platform) (now : Nat) (base : Bytes) : Checked Bytes := do
  let loc := List.replicate locsize 0
  let number := os.rand (UInt32.ofNat now)
  let (locSize, loc) ← snprintf loc 0 (locsize - 1) (hexadecimal number)
  let loc ← writeBytes loc locSize [0]
  return base ++ slash :: (← cString loc)

def rdUri : Bytes := ascii "rd"

/-- `create_node_resource`: both names go through `c_str()`. The result is null
when `new` is, which standard C++ excludes. -/
def createNodeResource (os : Platform) (now : Nat) (domain ep : Bytes) : Checked (Option CoAPResource) := do
  let uri ← createNodeUri os now rdUri
  let attr : CoAPAttr := (Std.ExtTreeMap.insertIfNew ∅ (ascii "d") (cStr domain)).insertIfNew (ascii "ep") (cStr ep)
  return some { uri, attr }

def coapSplitPath (path : Bytes) : List Bytes := path.splitOn slash

def responseOk (node : CoAPResource) (response : CoapPdu) : CoapPdu :=
  (coapSplitPath node.uri).foldl (coapAddOption · coapOptionLocationPath ·)
    { response with code := coapResponseCode 201 }

@[simp] theorem responseOk_code (node : CoAPResource) (response : CoapPdu) :
    (responseOk node response).code = coapResponseCode 201 := by
  have kept (segments : List Bytes) (pdu : CoapPdu) :
      (segments.foldl (coapAddOption · coapOptionLocationPath ·) pdu).code = pdu.code := by
    induction segments generalizing pdu with
    | nil => rfl
    | cons segment segments ih => simp [ih]
  exact kept _ _

/-- `CoAP_RD_Resource::handler_post`, at the second `now` of the clock. -/
def handlerPost (os : Platform) (service : RDService) (callback : CoAPCallback) (now : Nat) (initOk : Bool) :
    Checked (CoapPdu × RDService) := do
  let (epDomain, epIdentifier) ← getDomainAndEndpointIdentifier callback.request (ascii "hisilicion") []
  if epIdentifier.isEmpty then return (badRequest callback.response, service)
  else
    match ← findResourceFromCacheByEp service epDomain epIdentifier with
    | some r =>
      let node ← service.deref r
      let node ← node.update os callback
      return (changedRequest callback.response, service.store r node)
    | none =>
      match ← createNodeResource os now epDomain epIdentifier with
      | none => return (internalErrRequest callback.response, service)
      | some node =>
        let r := service.heap.length
        let service := addNodeToCache { service with heap := service.heap ++ [node] } r
        let node ← node.update os callback
        let (rd, service) := createResource (service.store r node) node.uri node.attr (.node r) initOk
        let node := { node with coapResource := rd, payload := getPayload callback.request }
        return (responseOk node callback.response, service.store r node)

/-- The attributes a fixed resource inserts in its `Create()`. -/
def fixedAttr (rt : String) : CoAPAttr :=
  ((Std.ExtTreeMap.insertIfNew ∅ (ascii "ct") (ascii "40")).insertIfNew (ascii "rt") (ascii rt)).insertIfNew
    (ascii "ins") (ascii "\"default\"")

def createFixed (service : RDService) (uri rt : String) (self : ObjectRef) : RDService :=
  (createResource service (ascii uri) (fixedAttr rt) self true).2

/-- `RDService::Init`: the `rd` resource and the look-up resources. -/
def RDService.init : RDService :=
  let service := createFixed {} "rd" "\"core.rd\"" .rd
  let service := createFixed service "rd-lookup" "\"core.rd-lookup\"" .lookUp
  let service := createFixed service "rd-lookup/d" "\"core.rd-lookup.d\"" .lookUpDomain
  let service := createFixed service "rd-lookup/ep" "\"core.rd-lookup.ep\"" .lookUpEp
  createFixed service "rd-lookup/res" "\"core.rd-lookup.res\"" .lookUpRes

/-- A POST to `rd`: what arrives, when, and whether libcoap will find memory. -/
structure Post where
  request : CoapPdu
  peer : CoapAddress
  now : Nat
  initOk : Bool := true

def Post.callback (posted : Post) : CoAPCallback := { request := posted.request, peer := posted.peer }

def post (os : Platform) (service : RDService) (posted : Post) : Checked (CoapPdu × RDService) :=
  handlerPost os service posted.callback posted.now posted.initOk

inductive Method where
  | get
  | post
  | put
  | delete
  deriving Repr, DecidableEq

structure Request extends Post where
  method : Method
  path : Bytes

/-- The `method_handler_*` functions and the virtual call behind them: only
`CoAP_RD_Resource` overrides a handler, and only the one for POST. -/
def methodHandler (os : Platform) (service : RDService) (appContex : ObjectRef) (request : Request) :
    Checked (CoapPdu × RDService) :=
  match appContex, request.method with
  | .rd, .post => post os service request.toPost
  | _, _ => .ok (defaultHandleRequest {}, service)

/-- libcoap's own answer when no resource has the path. Its listing under
`.well-known/core`, which changes nothing either, is in `IndexedService.dispatch`. -/
def unknownResource : Method → CoapPdu
  | .get => { code := coapResponseCode 404 }
  | _ => { code := coapResponseCode 405 }

/-- `handle_request`, with the paths themselves in place of their keys: of several
resources under one path the newest answers. -/
def handleRequest (os : Platform) (service : RDService) (request : Request) : Checked (CoapPdu × RDService) :=
  match service.resources.reverse.find? (·.uri == request.path) with
  | some resource => methodHandler os service resource.appContex request
  | none => .ok (unknownResource request.method, service)

end IoTGateway
