import IoTGateway.Lib.History
import IoTGateway.Proofs.Attributes

/-! What one request can do to the directory. The cache lists the nodes in the
order they were made, and every node has both names, so a search never runs
into `end()` and every handler returns. -/

namespace IoTGateway.Proofs.DirectoryStep
open QueryOptions Attributes

abbrev Key := Bytes × Bytes

/-- The pair `get_domain_and_endpointIdentifier` extracts from a POST. -/
def asked (posted : Post) : Key :=
  (queried (ascii "d") (ascii "hisilicion") (uriQuery posted.request), queried (ascii "ep") [] (uriQuery posted.request))

/-- A registration without an endpoint name is refused. -/
def registers (posted : Post) : Bool := (asked posted).2 ≠ []

/-- What is left of a pair on its way through `c_str()`. -/
def truncated (key : Key) : Key := (cStr key.1, cStr key.2)

def nodeKey (node : CoAPResource) : Key :=
  (node.attr[ascii "d"]?.getD [], node.attr[ascii "ep"]?.getD [])

/-- A node that `compare` may dereference. -/
structure Named (node : CoAPResource) : Prop where
  domain : node.attr[ascii "d"]? = some (nodeKey node).1
  ep : node.attr[ascii "ep"]? = some (nodeKey node).2

structure Inv (service : RDService) : Prop where
  cache : service.epCache = List.range service.heap.length
  named : ∀ node ∈ service.heap, Named node
  fixed : ∃ added, service.resources = RDService.init.resources ++ added ∧
    ∀ resource ∈ added, ∃ rest, resource.uri = rdUri ++ slash :: rest

theorem Inv.initial : Inv RDService.init where
  cache := rfl
  named := by simp [RDService.init, createFixed, createResource]
  fixed := ⟨[], by simp, by simp⟩

theorem Inv.mem_cache {service : RDService} (inv : Inv service) {r : Nat} :
    r ∈ service.epCache ↔ r < service.heap.length := by
  rw [inv.cache, List.mem_range]

theorem compare_named {node : CoAPResource} (named : Named node) (domain ep : Bytes) :
    node.compare domain ep = .ok (nodeKey node = (domain, ep)) := by
  simp only [CoAPResource.compare, CoAPResource.find, named.ep, named.domain, ok_bind, pure_eq_ok, Except.ok.injEq]
  rw [Bool.eq_iff_iff]
  simp [Prod.ext_iff, and_comm]

/-- The address of the first cached node with the key. -/
def locate (service : RDService) (key : Key) : Option Nat :=
  service.epCache.find? fun r => (service.heap[r]?).any (nodeKey · = key)

private theorem findFrom_eq {service : RDService} (named : ∀ node ∈ service.heap, Named node) (key : Key)
    {cache : List Nat} (inside : ∀ r ∈ cache, r < service.heap.length) : findFrom service key.1 key.2 cache =
      .ok (cache.find? fun r => (service.heap[r]?).any (nodeKey · = key)) := by
  induction cache with
  | nil => rfl
  | cons r rest ih =>
    obtain ⟨node, present⟩ : ∃ node, service.heap[r]? = some node :=
      ⟨_, List.getElem?_eq_getElem (inside r List.mem_cons_self)⟩
    have later := ih fun other member => inside other (List.mem_cons_of_mem _ member)
    have compared := compare_named (named node (List.mem_of_getElem? present)) key.1 key.2
    simp only [findFrom, RDService.deref, present, ok_bind, compared, later, List.find?_cons, Option.any_some]
    by_cases same : nodeKey node = key <;> simp [same]

theorem Inv.findResource {service : RDService} (inv : Inv service) (key : Key) :
    findResourceFromCacheByEp service key.1 key.2 = .ok (locate service key) :=
  findFrom_eq inv.named key fun _ member => inv.mem_cache.mp member

theorem Inv.locate_some {service : RDService} (inv : Inv service) {key : Key} {r : Nat} :
    locate service key = some r ↔ (∃ node, service.heap[r]? = some node ∧ nodeKey node = key) ∧
      ∀ earlier < r, ∀ node, service.heap[earlier]? = some node → nodeKey node ≠ key := by
  simp only [locate, inv.cache, List.find?_range_eq_some, List.mem_range, Option.any_eq_true, decide_eq_true_eq,
    Bool.not_eq_true', Option.any_eq_false, decide_eq_false_iff_not]
  constructor
  · intro found
    obtain ⟨⟨node, present, same⟩, _, first⟩ := found
    exact ⟨⟨node, present, same⟩, first⟩
  · intro found
    obtain ⟨⟨node, present, same⟩, first⟩ := found
    exact ⟨⟨node, present, same⟩, (List.getElem?_eq_some_iff.mp present).1, first⟩

theorem Inv.locate_none {service : RDService} (inv : Inv service) {key : Key} :
    locate service key = none ↔ ∀ node ∈ service.heap, nodeKey node ≠ key := by
  simp only [locate, inv.cache, List.find?_eq_none, List.mem_range, Option.any_eq_true, decide_eq_true_eq, not_exists,
    not_and]
  constructor
  · intro absent node member
    obtain ⟨r, present⟩ := List.mem_iff_getElem?.mp member
    exact absent r (List.getElem?_eq_some_iff.mp present).1 node present
  · exact fun absent r _ node present => absent node (List.mem_of_getElem? present)

def renewed (os : Platform) (posted : Post) (node : CoAPResource) : CoAPResource :=
  { node with attr := updatedAttr node.attr (requested os posted.callback) }

def firstAttr (os : Platform) (posted : Post) : CoAPAttr :=
  updatedAttr (createdAttr (asked posted).1 (asked posted).2) (requested os posted.callback)

def newNode (os : Platform) (service : RDService) (posted : Post) : CoAPResource where
  uri := nodeUri os posted.now
  payload := getPayload posted.request
  attr := firstAttr os posted
  coapResource := if posted.initOk then some service.resources.length else none

/-- The resource of the node at an address, with its attributes of that time. -/
def newResource (os : Platform) (posted : Post) (address : Nat) : CoapResourceT where
  uri := nodeUri os posted.now
  linkAttr := (firstAttr os posted).toList.foldl coapAddAttr []
  appContex := .node address

def grown (os : Platform) (service : RDService) (posted : Post) : RDService where
  resources := if posted.initOk then service.resources ++ [newResource os posted service.heap.length]
    else service.resources
  heap := service.heap ++ [newNode os service posted]
  epCache := service.epCache ++ [service.heap.length]

theorem grown_heap {os : Platform} {service : RDService} {posted : Post} {r : Nat} {node : CoAPResource}
    (present : (grown os service posted).heap[r]? = some node) :
    service.heap[r]? = some node ∨ (r = service.heap.length ∧ node = newNode os service posted) := by
  simp only [grown, List.getElem?_append] at present
  split at present
  · exact Or.inl present
  next behind =>
    obtain ⟨inside, same⟩ := List.getElem?_eq_some_iff.mp present
    rw [List.length_singleton] at inside
    exact Or.inr ⟨by omega, by simpa using same.symm⟩

inductive Answered (os : Platform) (service : RDService) (posted : Post) : CoapPdu → RDService → Prop where
  | rejected (nameless : registers posted = false) : Answered os service posted (badRequest {}) service
  | updated {r node} (named : registers posted = true) (found : locate service (asked posted) = some r)
      (present : service.heap[r]? = some node) :
      Answered os service posted (changedRequest {}) (service.store r (renewed os posted node))
  | created (named : registers posted = true) (absent : locate service (asked posted) = none) :
      Answered os service posted (responseOk (newNode os service posted) {}) (grown os service posted)

private theorem createResource_eq (service : RDService) (uri : Bytes) (attr : CoAPAttr) (appContext : ObjectRef)
    (initOk : Bool) : createResource service uri attr appContext initOk =
      (if initOk then some service.resources.length else none,
        { service with resources := if initOk then service.resources ++
            [{ uri, linkAttr := attr.toList.foldl coapAddAttr [], appContex := appContext }]
          else service.resources }) := by
  cases initOk <;> rfl

private theorem asked_extracted (posted : Post) :
    getDomainAndEndpointIdentifier posted.callback.request (ascii "hisilicion") [] = .ok (asked posted) := by
  simp only [getDomainAndEndpointIdentifier, findDomainEpFromQuery, queryValue_name isName_d,
    queryValue_name isName_ep, ok_bind, pure_eq_ok]
  rfl

theorem post_answered (os : Platform) {service : RDService} (inv : Inv service) (posted : Post) :
    ∃ response next, post os service posted = .ok (response, next) ∧ Answered os service posted response next := by
  simp only [post, handlerPost, asked_extracted, ok_bind]
  by_cases nameless : (asked posted).2 = []
  · exact ⟨_, _, by simp [nameless, Post.callback], .rejected (by simp [registers, nameless])⟩
  have named : registers posted = true := by simp [registers, nameless]
  simp only [List.isEmpty_iff, nameless, ite_false, inv.findResource, ok_bind]
  cases search : locate service (asked posted) with
  | some r =>
    obtain ⟨⟨node, present, _⟩, _⟩ := inv.locate_some.mp search
    refine ⟨_, _, ?_, .updated named search present⟩
    simp only [RDService.deref, present, ok_bind, update_eq, pure_eq_ok]
    rfl
  | none =>
    refine ⟨_, _, ?_, .created named search⟩
    simp only [createNodeResource_eq, ok_bind, update_eq, addNodeToCache, RDService.store, createResource_eq, pure_eq_ok]
    simp [grown, newNode, newResource, firstAttr, Post.callback]

theorem answered_of_post {os : Platform} {service : RDService} (inv : Inv service) {posted : Post} {response next}
    (answered : post os service posted = .ok (response, next)) : Answered os service posted response next := by
  obtain ⟨reply, state, same, how⟩ := post_answered os inv posted
  obtain ⟨rfl, rfl⟩ := Prod.mk.inj (Except.ok.inj (answered.symm.trans same))
  exact how

theorem attr_renewed (os : Platform) (posted : Post) (node : CoAPResource) {key : Bytes}
    (other : ascii "lt" ≠ key ∧ ascii "con" ≠ key ∧ ascii "et" ≠ key) :
    (renewed os posted node).attr[key]? = node.attr[key]? := updatedAttr_other node.attr _ other

@[simp] theorem nodeKey_renewed (os : Platform) (posted : Post) (node : CoAPResource) :
    nodeKey (renewed os posted node) = nodeKey node := by
  have domain : (renewed os posted node).attr[ascii "d"]? = node.attr[ascii "d"]? :=
    attr_renewed os posted node (by decide)
  have ep : (renewed os posted node).attr[ascii "ep"]? = node.attr[ascii "ep"]? :=
    attr_renewed os posted node (by decide)
  simp only [nodeKey, domain, ep]

theorem Named.renewed {os : Platform} {posted : Post} {node : CoAPResource} (named : Named node) :
    Named (renewed os posted node) where
  domain := by rw [attr_renewed os posted node (by decide), nodeKey_renewed, named.domain]
  ep := by rw [attr_renewed os posted node (by decide), nodeKey_renewed, named.ep]

private theorem firstAttr_domain (os : Platform) (posted : Post) :
    (firstAttr os posted)[ascii "d"]? = some (cStr (asked posted).1) :=
  (updatedAttr_other _ _ (by decide)).trans (createdAttr_domain _ _)

private theorem firstAttr_ep (os : Platform) (posted : Post) :
    (firstAttr os posted)[ascii "ep"]? = some (cStr (asked posted).2) :=
  (updatedAttr_other _ _ (by decide)).trans (createdAttr_ep _ _)

@[simp] theorem nodeKey_newNode (os : Platform) (service : RDService) (posted : Post) :
    nodeKey (newNode os service posted) = truncated (asked posted) := by
  simp [nodeKey, newNode, firstAttr_domain, firstAttr_ep, truncated]

private theorem newNode_named (os : Platform) (service : RDService) (posted : Post) :
    Named (newNode os service posted) where
  domain := by rw [nodeKey_newNode]; exact firstAttr_domain os posted
  ep := by rw [nodeKey_newNode]; exact firstAttr_ep os posted

theorem Answered.inv {os : Platform} {service : RDService} {posted : Post} {response next}
    (answered : Answered os service posted response next) (inv : Inv service) : Inv next := by
  cases answered with
  | rejected => exact inv
  | updated named found present =>
    refine ⟨by simp [RDService.store, inv.cache], ?_, inv.fixed⟩
    intro node member
    rcases List.mem_or_eq_of_mem_set member with old | rfl
    · exact inv.named node old
    · exact (inv.named _ (List.mem_of_getElem? present)).renewed
  | created named absent =>
    refine ⟨by simp [grown, inv.cache, List.range_succ], ?_, ?_⟩
    · intro node member
      rcases List.mem_append.mp member with old | new
      · exact inv.named node old
      · rw [List.mem_singleton.mp new]
        exact newNode_named os service posted
    · obtain ⟨added, table, paths⟩ := inv.fixed
      simp only [grown]
      split
      · refine ⟨added ++ [newResource os posted service.heap.length], by rw [table, List.append_assoc], ?_⟩
        intro resource member
        rcases List.mem_append.mp member with old | new
        · exact paths resource old
        · rw [List.mem_singleton.mp new]
          exact ⟨_, rfl⟩
      · exact ⟨added, table, paths⟩

theorem post_preserves (os : Platform) : Histories.Preserves (post os) Inv := by
  intro service posted inv
  obtain ⟨response, next, answered, how⟩ := post_answered os inv posted
  exact ⟨response, next, answered, how.inv inv⟩

/-- The answers that come from somewhere else than `rd` are errors and change
nothing. -/
theorem handleRequest_cases (os : Platform) (service : RDService) (request : Request) :
    handleRequest os service request = post os service request.toPost ∨
      ∃ response, handleRequest os service request = .ok (response, service) ∧
        (coapResponseClass response.code = 4 ∨ coapResponseClass response.code = 5) := by
  unfold handleRequest
  split
  · unfold methodHandler
    split
    · exact Or.inl rfl
    · exact Or.inr ⟨_, rfl, Or.inr (by simp [defaultHandleRequest]; decide)⟩
  · refine Or.inr ⟨_, rfl, Or.inl ?_⟩
    cases request.method <;> decide

theorem handleRequest_rd (os : Platform) {service : RDService} (inv : Inv service) (request : Request)
    (path : request.path = rdUri) (method : request.method = .post) :
    handleRequest os service request = post os service request.toPost := by
  obtain ⟨added, table, paths⟩ := inv.fixed
  have elsewhere : added.reverse.find? (·.uri == request.path) = none := by
    apply List.find?_eq_none.mpr
    intro resource member
    obtain ⟨rest, uri⟩ := paths resource (List.mem_reverse.mp member)
    simp [uri, path]
  have own : RDService.init.resources.reverse.find? (·.uri == rdUri) =
      some { uri := rdUri, linkAttr := (fixedAttr "\"core.rd\"").toList.foldl coapAddAttr [], appContex := .rd } := by
    decide
  simp only [handleRequest, table, List.reverse_append, List.find?_append, elsewhere, Option.none_or]
  rw [path, own]
  simp only [methodHandler, method]

theorem handleRequest_preserves (os : Platform) : Histories.Preserves (handleRequest os) Inv := by
  intro service request inv
  rcases handleRequest_cases os service request with same | ⟨response, answered, _⟩
  · rw [same]
    exact post_preserves os service request.toPost inv
  · exact ⟨response, service, answered, inv⟩

end IoTGateway.Proofs.DirectoryStep
