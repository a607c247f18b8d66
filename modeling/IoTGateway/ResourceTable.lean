import IoTGateway.Directory
import IoTGateway.HashTable

/-! The directory as libcoap keeps it: the resources of the context are in a hash
table under the keys of their paths, and a request is answered by the resource
that the table finds. -/

namespace IoTGateway

/-- `coap_key_t` -/
structure CoapKey where
  h0 : UInt8 := 0
  h1 : UInt8 := 0
  h2 : UInt8 := 0
  h3 : UInt8 := 0
  deriving Repr, DecidableEq

/-- A round of `coap_hash_impl`, which mixes every byte with the one before it. -/
def coapHashByte (h : CoapKey) (s : UInt8) : CoapKey where
  h0 := (h.h0 <<< 7) + h.h0 + s
  h1 := ((h.h1 <<< 7) ||| (h.h0 >>> 1)) + h.h1
  h2 := ((h.h2 <<< 7) ||| (h.h1 >>> 1)) + h.h2
  h3 := ((h.h3 <<< 7) ||| (h.h2 >>> 1)) + h.h3

def coapHash (h : CoapKey) (s : Bytes) : CoapKey := s.foldl coapHashByte h

/-- `coap_hash_path` and `coap_hash_request_uri`, segment by segment. No resource
has a path with a query or a fragment, where the first of them would stop. -/
def coapHashPath (path : Bytes) : CoapKey := (coapSplitPath path).foldl coapHash {}

def wellKnownCore : Bytes := ascii ".well-known/core"

/-- Slashes do not count: a path with the segments `r` and `d` has the key of `rd`. -/
theorem coapHashPath_eq (path : Bytes) : coapHashPath path = coapHash {} (path.filter (· ≠ slash)) := by
  have joined : path.filter (· ≠ slash) = (coapSplitPath path).flatten := by
    rw [coapSplitPath]
    induction path with
    | nil => rfl
    | cons byte path ih =>
      rw [List.splitOn_cons_eq_if_modifyHead, List.filter_cons, ih]
      by_cases separates : byte = slash
      · simp [separates]
      · obtain ⟨first, rest, split⟩ := List.exists_cons_of_ne_nil (List.splitOn_ne_nil slash path)
        simp [separates, split]
  rw [joined, coapHashPath, coapHash, List.foldl_flatten]
  rfl

example : coapHashPath (ascii "r/d") = coapHashPath rdUri := by decide

/-- `COAP_DEFAULT_WKC_HASHKEY` -/
example : coapHashPath wellKnownCore = ⟨229, 88, 100, 165⟩ := by decide

/-- An element of the table is the place of the resource in the list of all. -/
structure IndexedService (κ : Type) where
  service : RDService
  resources : UTHash κ

section
variable {κ : Type} [DecidableEq κ] (hashFcn : κ → UInt32) (hashPath : Bytes → κ)

/-- `coap_add_resource` for resources with their places. -/
def coapAddResources (table : UTHash κ) (added : List (CoapResourceT × Nat)) : Checked (UTHash κ) :=
  added.foldlM (fun table resource => table.hashAdd hashFcn (hashPath resource.1.uri) resource.2) table

def IndexedService.init (handles : Nat → UTHashHandle κ) : Checked (IndexedService κ) := do
  let resources ← coapAddResources hashFcn hashPath { handles } RDService.init.resources.zipIdx
  return { service := RDService.init, resources }

/-- `handle_request` with `coap_get_resource_from_key`, and `coap_add_resource`
for what the handler creates. -/
def IndexedService.handleRequest (os : Platform) (indexed : IndexedService κ) (request : Request) :
    Checked (CoapPdu × IndexedService κ) := do
  let (response, service) ← match ← indexed.resources.hashFind hashFcn (hashPath request.path) with
    | some place =>
      match indexed.service.resources[place]? with
      | some resource => methodHandler os indexed.service resource.appContex request
      | none => .error .nullPointer
    | none => .ok (unknownResource request.method, indexed.service)
  let resources ← coapAddResources hashFcn hashPath indexed.resources
    (service.resources.zipIdx.drop indexed.service.resources.length)
  return (response, { service, resources })

/-- All of `handle_request`. Where no resource has the key of `.well-known/core`,
libcoap gives a list of the resources itself. -/
def IndexedService.dispatch (wellknownResponse : List CoapResourceT → Request → CoapPdu) (os : Platform)
    (indexed : IndexedService κ) (request : Request) : Checked (CoapPdu × IndexedService κ) := do
  let resource ← indexed.resources.hashFind hashFcn (hashPath request.path)
  if resource = none ∧ request.method = .get ∧ hashPath request.path = hashPath wellKnownCore then
    return (wellknownResponse indexed.service.resources request, indexed)
  else indexed.handleRequest hashFcn hashPath os request

end

end IoTGateway
