import Mathlib.Data.List.Forall2
import IoTGateway.Lib.Isolation
import IoTGateway.Proofs.FailedRegistration
import IoTGateway.Proofs.Publication
import IoTGateway.Proofs.Refresh
import IoTGateway.Proofs.ResourceTable

/-! The directory as a registry of endpoints: what a request may do to it and
how it is answered, without nodes, caches and resources. The code implements
the registry, and an endpoint is registered in isolation from the others. -/

namespace IoTGateway.Proofs.EndpointRegistry
open DirectoryStep DirectoryStability DirectoryTrace Attributes FailedRegistration ResourceTable

/-- What a registry knows of an endpoint beside its names. -/
structure Endpoint where
  lifetime : Nat
  context : Bytes
  kind : Option Bytes
  links : Bytes
  path : Bytes
  minute : 60 ≤ lifetime
  somewhere : context ≠ []

namespace Endpoint

def attr (endpoint : Endpoint) (key : Key) (name : Bytes) : Option Bytes :=
  if ascii "et" = name then endpoint.kind
  else if ascii "con" = name then some endpoint.context
  else if ascii "lt" = name then some (decimal endpoint.lifetime)
  else if ascii "ep" = name then some key.2
  else if ascii "d" = name then some key.1
  else none

variable (os : Platform) (posted : Post)

def requestedKind : Option Bytes :=
  let et := (requested os posted.callback).et
  if et = [] then none else some et

def first : Endpoint where
  lifetime := (max 60 (requested os posted.callback).lt.toInt).toNat
  context := (requested os posted.callback).con
  kind := requestedKind os posted
  links := getPayload posted.request
  path := nodeUri os posted.now
  minute := by omega
  somewhere := requested_con_ne_nil os posted.callback

/-- A registration that is not the first leaves links and path as they are. -/
def renew (endpoint : Endpoint) : Endpoint where
  lifetime := (max 60 (requested os posted.callback).lt.toInt).toNat
  context := (requested os posted.callback).con
  kind := (requestedKind os posted).or endpoint.kind
  links := endpoint.links
  path := endpoint.path
  minute := by omega
  somewhere := requested_con_ne_nil os posted.callback

end Endpoint

/-- The endpoints by their names, and the links that discovery shows: they are
made once, from the first registration. -/
structure Registry where
  endpoints : Key → Option Endpoint
  published : List (Key × Endpoint)
  normal : ∀ key endpoint, endpoints key = some endpoint → truncated key = key

structure Published (resource : CoapResourceT) (link : Key × Endpoint) : Prop where
  path : resource.uri = link.2.path
  attr : ∀ name value, (name, value) ∈ resource.linkAttr ↔ link.2.attr link.1 name = some value

/-- The resources that discovery lists: those of `Init`, then the links. -/
def Discovered (resources : List CoapResourceT) (links : List (Key × Endpoint)) : Prop :=
  ∃ added, resources = RDService.init.resources ++ added ∧ List.Forall₂ Published added links

namespace Registry

def empty : Registry := ⟨fun _ => none, [], by simp⟩

def enter (registry : Registry) (key : Key) (endpoint : Endpoint) (normal : truncated key = key) : Registry where
  endpoints := Function.update registry.endpoints key (some endpoint)
  published := registry.published
  normal := by
    intro other known present
    by_cases same : other = key
    · rw [same, normal]
    · exact registry.normal other known (by rwa [Function.update_of_ne same] at present)

theorem enter_endpoints (registry : Registry) {key : Key} (endpoint : Endpoint) (normal : truncated key = key)
    (other : Key) : (registry.enter key endpoint normal).endpoints other =
      if other = key then some endpoint else registry.endpoints other :=
  Function.update_apply ..

theorem endpoints_agree {registry other : Registry} {asked : Key}
    (same : registry.endpoints (truncated asked) = other.endpoints (truncated asked)) :
    registry.endpoints asked = other.endpoints asked := by
  by_cases normal : truncated asked = asked
  · rwa [normal] at same
  · have unknown (any : Registry) : any.endpoints asked = none :=
      Option.eq_none_iff_forall_ne_some.mpr fun endpoint known => normal (any.normal asked endpoint known)
    rw [unknown, unknown]

variable (os : Platform) (posted : Post)

/-- The endpoint is entered under what `c_str()` leaves of its names, where it
stays behind one that is there already. -/
def register (registry : Registry) : Registry :=
  let key := truncated (asked posted)
  let endpoint := (registry.endpoints key).getD (Endpoint.first os posted)
  { registry.enter key endpoint (truncated_idempotent _) with
    published := registry.published ++ if posted.initOk then [(key, Endpoint.first os posted)] else [] }

theorem register_endpoints (registry : Registry) (key : Key) : (registry.register os posted).endpoints key =
    (registry.endpoints key).or (if truncated (asked posted) = key then some (Endpoint.first os posted) else none) := by
  rw [register, enter_endpoints]
  by_cases same : key = truncated (asked posted)
  · rw [if_pos same, if_pos same.symm, same]
    cases registry.endpoints (truncated (asked posted)) <;> rfl
  · rw [if_neg same, if_neg (Ne.symm same), Option.or_none]

def announcement (endpoint : Endpoint) : CoapPdu where
  code := coapResponseCode 201
  options := (endpoint.path.splitOn slash).map (coapOptionLocationPath, ·)

/-- What a request may do, and the answers it may get. -/
inductive Allows (wellknownResponse : List CoapResourceT → Request → CoapPdu) (os : Platform) (registry : Registry)
    (request : Request) : CoapPdu → Registry → Prop where
  | listed {resources} (core : asksForCore request = true) (discovered : Discovered resources registry.published) :
      Allows wellknownResponse os registry request (wellknownResponse resources request) registry
  | elsewhere {response} (core : asksForCore request = false) (other : reachesRd request = false)
      (error : coapResponseClass response.code = 4 ∨ coapResponseClass response.code = 5) :
      Allows wellknownResponse os registry request response registry
  | nameless (reaches : reachesRd request = true) (nameless : registers request.toPost = false) :
      Allows wellknownResponse os registry request (badRequest {}) registry
  | renewed {endpoint} (reaches : reachesRd request = true) (named : registers request.toPost = true)
      (known : registry.endpoints (asked request.toPost) = some endpoint) :
      Allows wellknownResponse os registry request (changedRequest {}) (registry.enter (asked request.toPost)
        (endpoint.renew os request.toPost) (registry.normal _ endpoint known))
  | registered (reaches : reachesRd request = true) (named : registers request.toPost = true)
      (unknown : registry.endpoints (asked request.toPost) = none) :
      Allows wellknownResponse os registry request (announcement (Endpoint.first os request.toPost))
        (registry.register os request.toPost)

end Registry

structure Stored (key : Key) (endpoint : Endpoint) (node : CoAPResource) : Prop where
  attr : ∀ name, node.attr[name]? = endpoint.attr key name
  links : node.payload = endpoint.links
  path : node.uri = endpoint.path

def entry (service : RDService) (key : Key) : Option CoAPResource :=
  (locate service key).bind (service.heap[·]?)

structure Shows (service : RDService) (registry : Registry) : Prop where
  inv : Inv service
  one : OneDirectory service
  entries : ∀ key, Option.Rel (fun node endpoint => Stored key endpoint node) (entry service key) (registry.endpoints key)
  links : Discovered service.resources registry.published

theorem stored_first (os : Platform) (service : RDService) (posted : Post) :
    Stored (truncated (asked posted)) (Endpoint.first os posted) (newNode os service posted) := by
  refine ⟨?_, rfl, rfl⟩
  intro name
  simp only [newNode, firstAttr, updatedAttr_get, createdAttr_get, Endpoint.attr, Endpoint.first,
    Endpoint.requestedKind, lifetimeText, truncated]
  have apart : ascii "con" ≠ ascii "et" ∧ ascii "lt" ≠ ascii "et" ∧ ascii "ep" ≠ ascii "et" ∧ ascii "d" ≠ ascii "et" := by
    decide
  by_cases kind : ascii "et" = name
  · subst kind
    by_cases untyped : (requested os posted.callback).et = []
    · simp only [untyped, ne_eq, not_true_eq_false, and_false, ite_false, ite_true, apart]
    · simp [untyped]
  · simp [kind]

theorem Stored.renew {key : Key} {endpoint : Endpoint} {node : CoAPResource} (stored : Stored key endpoint node)
    (os : Platform) (posted : Post) : Stored key (endpoint.renew os posted) (renewed os posted node) := by
  refine ⟨?_, stored.links, stored.path⟩
  intro name
  simp only [renewed, updatedAttr_get, stored.attr, Endpoint.attr, Endpoint.renew, Endpoint.requestedKind, lifetimeText]
  have apart : ascii "con" ≠ ascii "et" ∧ ascii "lt" ≠ ascii "et" ∧ ascii "ep" ≠ ascii "et" ∧ ascii "d" ≠ ascii "et" := by
    decide
  by_cases kind : ascii "et" = name
  · subst kind
    by_cases untyped : (requested os posted.callback).et = []
    · simp only [untyped, ne_eq, not_true_eq_false, and_false, ite_false, ite_true, apart, Option.none_or]
    · simp [untyped]
  · simp only [kind, false_and, ite_false]
    split
    next => rfl
    next =>
      split <;> rfl

private theorem published_first (os : Platform) (posted : Post) (address : Nat) :
    Published (newResource os posted address) (truncated (asked posted), Endpoint.first os posted) := by
  refine ⟨rfl, ?_⟩
  intro name value
  rw [Refresh.mem_linkAttr]
  have stored := stored_first os {} posted
  rw [← stored.attr]
  rfl

private theorem coapAddOption_last {pdu : CoapPdu} {number : Nat} (last : ∀ option ∈ pdu.options, option.1 ≤ number)
    (value : Bytes) : coapAddOption pdu number value =
      { pdu with data := none, options := pdu.options ++ [(number, value)] } := by
  unfold coapAddOption
  rw [if_neg]
  cases ending : pdu.options.getLast? with
  | none => simp
  | some option => simpa using last option (List.mem_of_getLast? ending)

private theorem responseOk_announcement {node : CoAPResource} {endpoint : Endpoint} (path : node.uri = endpoint.path) :
    responseOk node {} = Registry.announcement endpoint := by
  have added (segments : List Bytes) (options : List (Nat × Bytes))
      (last : ∀ option ∈ options, option.1 ≤ coapOptionLocationPath) :
      segments.foldl (coapAddOption · coapOptionLocationPath ·) { code := coapResponseCode 201, options } =
        { code := coapResponseCode 201, options := options ++ segments.map (coapOptionLocationPath, ·) } := by
    induction segments generalizing options with
    | nil => simp
    | cons segment segments ih =>
      rw [List.foldl_cons, coapAddOption_last last, ih, List.map_cons, List.append_assoc, List.singleton_append]
      intro option member
      rcases List.mem_append.mp member with old | new
      · exact last option old
      · rw [List.mem_singleton.mp new]
  rw [responseOk, path, coapSplitPath, added _ [] (by simp)]
  rfl

private theorem locate_store {service : RDService} {r : Nat} {node other : CoAPResource}
    (present : service.heap[r]? = some node)
    (same : nodeKey other = nodeKey node) (key : Key) : locate (service.store r other) key = locate service key := by
  simp only [locate, RDService.store]
  congr 1
  funext address
  by_cases here : r = address
  · subst here
    obtain ⟨inside, rfl⟩ := List.getElem?_eq_some_iff.mp present
    simp [same, inside]
  · rw [List.getElem?_set_ne here]

private theorem entry_store {service : RDService} (inv : Inv service) {r : Nat} {node : CoAPResource} {key : Key}
    (found : locate service key = some r) (present : service.heap[r]? = some node) (os : Platform) (posted : Post)
    (other : Key) : entry (service.store r (renewed os posted node)) other =
      if other = key then some (renewed os posted node) else entry service other := by
  have inside := (List.getElem?_eq_some_iff.mp present).1
  rw [entry, locate_store present (nodeKey_renewed os posted node)]
  split
  next same =>
    rw [same, found]
    simp [RDService.store, inside]
  next different =>
    rw [entry]
    cases search : locate service other with
    | none => rfl
    | some place =>
      have apart : r ≠ place := by
        intro same
        subst same
        obtain ⟨⟨first, there, itsKey⟩, _⟩ := inv.locate_some.mp search
        obtain ⟨⟨second, here, otherKey⟩, _⟩ := inv.locate_some.mp found
        obtain rfl : first = second := Option.some.inj (there.symm.trans here)
        exact different (itsKey.symm.trans otherKey)
      simp [RDService.store, apart]

private theorem entry_eq {service : RDService} (inv : Inv service) (key : Key) :
    entry service key = service.heap.find? (nodeKey · = key) := by
  cases search : locate service key with
  | none =>
    have absent := inv.locate_none.mp search
    rw [entry, search, Option.bind_none, eq_comm, List.find?_eq_none]
    intro node member
    simpa using absent node member
  | some r =>
    obtain ⟨⟨node, present, same⟩, first⟩ := inv.locate_some.mp search
    obtain ⟨inside, here⟩ := List.getElem?_eq_some_iff.mp present
    rw [entry, search, Option.bind_some, present, eq_comm, List.find?_eq_some_iff_getElem]
    refine ⟨by simpa using same, r, inside, here, ?_⟩
    intro earlier before
    have other := first earlier before _ (List.getElem?_eq_getElem (before.trans inside))
    simpa using other

private theorem entry_grown {os : Platform} {service : RDService} {posted : Post} {response : CoapPdu}
    (inv : Inv service) (answered : Answered os service posted response (grown os service posted)) (key : Key) :
    entry (grown os service posted) key = (entry service key).or
      (if truncated (asked posted) = key then some (newNode os service posted) else none) := by
  rw [entry_eq (answered.inv inv), entry_eq inv, grown, List.find?_append, List.find?_singleton, nodeKey_newNode]
  simp

theorem shows_initial : Shows RDService.init Registry.empty where
  inv := .initial
  one := .initial
  entries _ := .none
  links := ⟨[], by simp, .nil⟩

theorem Shows.unknown {service : RDService} {registry : Registry} (shown : Shows service registry) {key : Key}
    (absent : locate service key = none) : registry.endpoints key = none := by
  have related := shown.entries key
  rw [entry, absent] at related
  cases unknown : registry.endpoints key with
  | none => rfl
  | some endpoint =>
    rw [unknown] at related
    cases related

theorem Shows.known {service : RDService} {registry : Registry} (shown : Shows service registry) {key : Key} {r : Nat}
    {node : CoAPResource} (found : locate service key = some r) (present : service.heap[r]? = some node) :
    ∃ endpoint, registry.endpoints key = some endpoint ∧ Stored key endpoint node := by
  have related := shown.entries key
  rw [entry, found, Option.bind_some, present] at related
  cases known : registry.endpoints key with
  | none =>
    rw [known] at related
    cases related
  | some endpoint =>
    rw [known] at related
    cases related with
    | some stored => exact ⟨endpoint, rfl, stored⟩

variable {wellknownResponse : List CoapResourceT → Request → CoapPdu}

theorem answered_allowed {os : Platform} {service : RDService} {registry : Registry} (shown : Shows service registry)
    {request : Request} (reaches : reachesRd request = true) {response next}
    (answered : Answered os service request.toPost response next) :
    ∃ after, Registry.Allows wellknownResponse os registry request response after ∧ Shows next after := by
  have inv := answered.inv shown.inv
  have one := oneDirectory_answered answered shown.one
  cases answered with
  | rejected nameless => exact ⟨registry, .nameless reaches nameless, shown⟩
  | @updated r node named found present =>
    obtain ⟨endpoint, known, stored⟩ := shown.known found present
    refine ⟨_, .renewed reaches named known, inv, one, ?_, shown.links⟩
    intro key
    rw [entry_store shown.inv found present, Registry.enter_endpoints]
    split
    next same => exact same ▸ .some (stored.renew os request.toPost)
    next => exact shown.entries key
  | created named absent =>
    have answered : Answered os service request.toPost _ _ := .created named absent
    refine ⟨registry.register os request.toPost, ?_, inv, one, ?_, ?_⟩
    · rw [responseOk_announcement (stored_first os service request.toPost).path]
      exact .registered reaches named (shown.unknown absent)
    · intro key
      rw [entry_grown shown.inv answered, Registry.register_endpoints]
      have related := shown.entries key
      revert related
      generalize entry service key = entered
      generalize registry.endpoints key = endpoint
      intro related
      cases related with
      | some stored => exact .some stored
      | none =>
        rw [Option.none_or, Option.none_or]
        split
        next same => exact same ▸ .some (stored_first os service request.toPost)
        next => exact .none
    · obtain ⟨added, table, links⟩ := shown.links
      cases success : request.toPost.initOk with
      | false =>
        refine ⟨added, by simp [grown, success, table], ?_⟩
        simpa [Registry.register, Registry.enter, success] using links
      | true =>
        refine ⟨added ++ [newResource os request.toPost service.heap.length], by simp [grown, success, table], ?_⟩
        have link := published_first os request.toPost service.heap.length
        simpa [Registry.register, Registry.enter, success] using List.rel_append links (.cons link .nil)

theorem elsewhere_refused (os : Platform) {service : RDService} (one : OneDirectory service) {request : Request}
    (elsewhere : reachesRd request = false) : ∃ response, handleRequest os service request = .ok (response, service) ∧
      (coapResponseClass response.code = 4 ∨ coapResponseClass response.code = 5) := by
  unfold handleRequest
  split
  next resource found =>
    unfold methodHandler
    split
    next own method =>
      have uri := one resource (by simpa using List.mem_of_find?_eq_some found) own
      have path : resource.uri = request.path := by simpa using List.find?_some found
      simp [reachesRd, ← path, uri, method] at elsewhere
    next => exact ⟨_, rfl, Or.inr (by simp [defaultHandleRequest]; decide)⟩
  next =>
    refine ⟨_, rfl, Or.inl ?_⟩
    cases request.method <;> decide

/-- One request that is not for discovery. -/
theorem handled_allowed {os : Platform} {service next : RDService} {registry : Registry} (shown : Shows service registry)
    {request : Request} {response : CoapPdu} (core : asksForCore request = false)
    (answered : handleRequest os service request = .ok (response, next)) :
    ∃ after, Registry.Allows wellknownResponse os registry request response after ∧ Shows next after := by
  cases reaches : reachesRd request with
  | true =>
    obtain ⟨path, method⟩ := reachesRd_iff.mp reaches
    rw [handleRequest_rd os shown.inv request path method] at answered
    exact answered_allowed shown reaches (answered_of_post shown.inv answered)
  | false =>
    obtain ⟨reply, refused, error⟩ := elsewhere_refused os shown.one reaches
    cases refused.symm.trans answered
    exact ⟨registry, .elsewhere core reaches error, shown⟩

section
variable {κ : Type} [DecidableEq κ] {hashFcn : κ → UInt32} {hashPath : Bytes → κ} {handles : Nat → UTHashHandle κ}

theorem dispatch_allowed {os : Platform} {indexed next : IndexedService κ} {registry : Registry}
    (sound : Sound hashFcn hashPath indexed) (shown : Shows indexed.service registry) {request : Request}
    (clear : Clear hashPath indexed.service.resources request) {response : CoapPdu}
    (answered : indexed.dispatch hashFcn hashPath wellknownResponse os request = .ok (response, next)) :
    Sound hashFcn hashPath next ∧ ∃ after, Registry.Allows wellknownResponse os registry request response after ∧
      Shows next.service after := by
  obtain ⟨reply, after, same, kept, outcome⟩ := dispatch_answered sound clear
  cases answered.symm.trans same
  refine ⟨kept, ?_⟩
  split at outcome
  next core =>
    obtain ⟨rfl, rfl⟩ := outcome
    exact ⟨registry, .listed core shown.links, shown⟩
  next other => exact handled_allowed shown (Bool.eq_false_iff.mpr other) outcome

theorem dispatch_inv {os : Platform} {start indexed : IndexedService κ} {history : List (Request × CoapPdu)}
    (made : IndexedService.init hashFcn hashPath handles = .ok start)
    (run : Histories.Run (IndexedService.dispatch hashFcn hashPath wellknownResponse os) start history indexed) :
    Inv indexed.service := by
  induction run with
  | start => exact (sound_initial made).1.inv
  | step run answered ih => exact (dispatch_grown ih answered).1

theorem dispatch_preserves (os : Platform) (injective : Function.Injective hashPath) :
    Histories.Preserves (IndexedService.dispatch hashFcn hashPath wellknownResponse os) (Sound hashFcn hashPath) := by
  intro indexed request sound
  obtain ⟨response, next, answered, kept, _⟩ := dispatch_answered sound fun _ _ same => injective same
  exact ⟨response, next, answered, kept⟩

theorem run_allowed {os : Platform} {start indexed : IndexedService κ} {history : List (Request × CoapPdu)}
    (made : IndexedService.init hashFcn hashPath handles = .ok start)
    (run : Histories.Run (IndexedService.dispatch hashFcn hashPath wellknownResponse os) start history indexed)
    (clear : ∀ answer ∈ history, Clear hashPath indexed.service.resources answer.1) :
    Sound hashFcn hashPath indexed ∧ ∃ registry,
      Refinements.Trace (Registry.Allows wellknownResponse os) Registry.empty history registry ∧
        Shows indexed.service registry := by
  induction run with
  | start =>
    obtain ⟨sound, initial⟩ := sound_initial made
    exact ⟨sound, Registry.empty, .start, initial ▸ shows_initial⟩
  | @step history before request response next run answered ih =>
    -- a path that collides with no resource now collided with none earlier
    obtain ⟨_, added, grown⟩ := dispatch_grown (dispatch_inv made run) answered
    obtain ⟨sound, registry, trace, shown⟩ := ih fun answer member =>
      (clear answer (List.mem_append_left _ member)).earlier grown
    have now := clear (request, response) (List.mem_append_right _ (List.mem_singleton_self _))
    obtain ⟨sound, after, allowed, shown⟩ := dispatch_allowed sound shown (now.earlier grown) answered
    exact ⟨sound, after, trace.step allowed, shown⟩

/-- Every run of the directory in which no path collides with another is a trace
of the registry with the same answers, the directory shows the registry it leads
to, and any further request is answered. -/
theorem directory_refines_registry {os : Platform} {start indexed : IndexedService κ}
    {history : List (Request × CoapPdu)} (made : IndexedService.init hashFcn hashPath handles = .ok start)
    (run : Histories.Run (IndexedService.dispatch hashFcn hashPath wellknownResponse os) start history indexed)
    (clear : ∀ answer ∈ history, Clear hashPath indexed.service.resources answer.1) :
    (∃ registry, Refinements.Trace (Registry.Allows wellknownResponse os) Registry.empty history registry ∧
      Shows indexed.service registry) ∧
    ∀ request, Clear hashPath indexed.service.resources request → ∃ response next,
      indexed.dispatch hashFcn hashPath wellknownResponse os request = .ok (response, next) := by
  obtain ⟨sound, traced⟩ := run_allowed made run clear
  refine ⟨traced, ?_⟩
  intro request clear
  obtain ⟨response, next, answered, _⟩ := dispatch_answered sound clear
  exact ⟨response, next, answered⟩

end

/-- `wellknown_response` without a query, where the links fit into a datagram. -/
def linkListing (resources : List CoapResourceT) (_ : Request) : CoapPdu where
  code := coapResponseCode 205
  options := [(coapOptionContentType, [coapMediatypeApplicationLinkFormat.toUInt8])]
  data := some ((ascii ",").intercalate (resources.map Publication.coapPrintLink))

def discovering : Request := { registering with method := .get, path := wellKnownCore }

theorem directory_refines_registry_twice : ∃ start history indexed,
    IndexedService.init (fun _ => 0) coapHashPath (fun _ => ⟨none, none, none, none, {}, 0⟩) = .ok start ∧
    Histories.Run (IndexedService.dispatch (fun _ => 0) coapHashPath linkListing .reference) start history indexed ∧
    history.map Prod.fst = [registering, discovering] ∧
    (∃ registry, Refinements.Trace (Registry.Allows linkListing .reference) Registry.empty history registry ∧
      Shows indexed.service registry) ∧
    ∃ response next, indexed.dispatch (fun _ => 0) coapHashPath linkListing .reference registering =
      .ok (response, next) := by
  have apart : ∀ request ∈ [registering, discovering],
      Clear coapHashPath (RDService.init.resources ++ [newResource .reference registering.toPost 0]) request := by
    unfold Clear
    decide
  obtain ⟨start, made, _⟩ := @indexed_initial _ (fun _ => 0) coapHashPath _ fun _ => ⟨none, none, none, none, {}, 0⟩
  obtain ⟨sound, initial⟩ := sound_initial made
  obtain ⟨created, next, answered, kept, handled⟩ := @dispatch_answered _ _ _ _ linkListing .reference _ sound registering
    (initial ▸ (apart registering (by simp)).earlier rfl)
  rw [if_neg (by decide), initial] at handled
  obtain ⟨more, known⟩ : ∃ more, RDService.init.resources ++ [newResource .reference registering.toPost 0] =
      next.service.resources ++ more := by
    rcases step_resources .initial handled with same | grown
    · exact ⟨_, by rw [same]⟩
    · exact ⟨[], by rw [grown, List.append_nil]; rfl⟩
  obtain ⟨listed, last, discovered, _, _, rfl⟩ := @dispatch_answered _ _ _ _ linkListing .reference _ kept discovering
    ((apart discovering (by simp)).earlier known)
  have run := (Histories.Run.start.step answered).step discovered
  have clear : ∀ request ∈ [registering, discovering], Clear coapHashPath last.service.resources request :=
    fun request asked => (apart request asked).earlier known
  obtain ⟨refined, further⟩ := directory_refines_registry made run (by simpa using clear)
  exact ⟨start, _, last, made, run, rfl, refined, further registering (clear registering (by simp))⟩

def concerns (key : Key) (request : Request) : Bool := reachesRd request ∧ truncated (asked request.toPost) = key

theorem concerns_iff {key : Key} {request : Request} :
    concerns key request = true ↔ reachesRd request = true ∧ truncated (asked request.toPost) = key := by
  simp [concerns]

/-- How a registration is answered and what is held of its names in the end, by
what is known of them as they came and as `c_str()` leaves them. -/
def outcome (os : Platform) (posted : Post) (known held : Option Endpoint) : CoapPdu × Option Endpoint :=
  if registers posted then
    match known with
    | some endpoint => (changedRequest {}, some (endpoint.renew os posted))
    | none => (Registry.announcement (Endpoint.first os posted), held.or (some (Endpoint.first os posted)))
  else (badRequest {}, held)

theorem allowed_outcome {os : Platform} {registry next : Registry} {request : Request} {response : CoapPdu}
    (reaches : reachesRd request = true) (allowed : Registry.Allows wellknownResponse os registry request response next) :
    (response, next.endpoints (truncated (asked request.toPost))) = outcome os request.toPost
      (registry.endpoints (asked request.toPost)) (registry.endpoints (truncated (asked request.toPost))) := by
  obtain ⟨_, method⟩ := reachesRd_iff.mp reaches
  cases allowed with
  | listed core => simp [asksForCore, method] at core
  | elsewhere _ foreign => simp [reaches] at foreign
  | nameless _ nameless => simp [outcome, nameless]
  | @renewed endpoint _ named known =>
    have normal := registry.normal _ endpoint known
    simp [outcome, named, known, normal, Registry.enter_endpoints]
  | registered _ named unknown => simp [outcome, named, unknown, Registry.register_endpoints]

theorem registry_isolated (os : Platform) (key : Key) :
    Isolations.Isolated (Registry.Allows wellknownResponse os) (concerns key) (Registry.endpoints · key) := by
  constructor
  · intro registry request response next foreign allowed
    have apart (reaches : reachesRd request = true) : truncated (asked request.toPost) ≠ key := by
      intro same
      rw [concerns_iff.mpr ⟨reaches, same⟩] at foreign
      cases foreign
    cases allowed with
    | listed => rfl
    | elsewhere => rfl
    | nameless => rfl
    | renewed reaches named known =>
      have different := apart reaches
      rw [registry.normal _ _ known] at different
      exact (Registry.enter_endpoints ..).trans (if_neg (Ne.symm different))
    | registered reaches =>
      show (registry.register os request.toPost).endpoints key = registry.endpoints key
      rw [Registry.register_endpoints, if_neg (apart reaches), Option.or_none]
  · intro registry request response next other reply after concerned allowed also same
    obtain ⟨reaches, rfl⟩ := concerns_iff.mp concerned
    have answered := allowed_outcome reaches allowed
    have mirrored := allowed_outcome reaches also
    rw [Registry.endpoints_agree same, same, ← mirrored] at answered
    exact Prod.mk.inj answered

def content (service : RDService) (key : Key) : Option (CoAPAttr × Bytes × Bytes) :=
  (entry service key).map fun node => (node.attr, node.payload, node.uri)

theorem Stored.content_eq {key : Key} {endpoint : Endpoint} {node twin : CoAPResource}
    (stored : Stored key endpoint node) (also : Stored key endpoint twin) :
    (node.attr, node.payload, node.uri) = (twin.attr, twin.payload, twin.uri) := by
  have attr : node.attr = twin.attr :=
    Std.ExtTreeMap.ext_getElem? fun name => (stored.attr name).trans (also.attr name).symm
  rw [attr, stored.links, stored.path, also.links, also.path]

theorem content_eq {service other : RDService} {registry mirror : Registry} (shown : Shows service registry)
    (also : Shows other mirror) {key : Key} (same : registry.endpoints key = mirror.endpoints key) :
    content service key = content other key := by
  have related := shown.entries key
  have alike := also.entries key
  rw [same] at related
  revert related alike
  unfold content
  generalize entry service key = held
  generalize entry other key = twin
  generalize mirror.endpoints key = endpoint
  intro related alike
  cases related with
  | none =>
    cases alike
    rfl
  | some stored =>
    cases alike with
    | some mirrored => exact congrArg some (stored.content_eq mirrored)

/-- Two runs without collisions, in which the same is registered under the names
of an endpoint: all these requests are answered the same and the directory holds
the same of the endpoint in the end, whatever other clients do in either run. -/
theorem endpoint_isolated {κ : Type} [DecidableEq κ] {hashFcn : κ → UInt32} {hashPath : Bytes → κ}
    {handles : Nat → UTHashHandle κ} {os : Platform} {start indexed other : IndexedService κ}
    {first second : List (Request × CoapPdu)} (made : IndexedService.init hashFcn hashPath handles = .ok start)
    (run : Histories.Run (IndexedService.dispatch hashFcn hashPath wellknownResponse os) start first indexed)
    (clear : ∀ answer ∈ first, Clear hashPath indexed.service.resources answer.1)
    (another : Histories.Run (IndexedService.dispatch hashFcn hashPath wellknownResponse os) start second other)
    (apart : ∀ answer ∈ second, Clear hashPath other.service.resources answer.1) (key : Key)
    (same : (Isolations.share (concerns key) first).map Prod.fst = (Isolations.share (concerns key) second).map Prod.fst) :
    Isolations.share (concerns key) first = Isolations.share (concerns key) second ∧
      content indexed.service key = content other.service key := by
  obtain ⟨_, registry, trace, shown⟩ := run_allowed made run clear
  obtain ⟨_, mirror, mirrored, also⟩ := run_allowed made another apart
  obtain ⟨answers, endpoints⟩ := (registry_isolated os key).agree trace mirrored same
  exact ⟨answers, content_eq shown also endpoints⟩

/-- Another client, that names its endpoint with a byte more. -/
def neighbour : Request := { registering with request := { options := [(coapOptionUriQuery, ascii "ep=n12")] } }

theorem endpoint_isolated_neighbour : ∃ start first second indexed other,
    IndexedService.init (fun _ => 0) id (fun _ => ⟨none, none, none, none, [], 0⟩) = .ok start ∧
    Histories.Run (IndexedService.dispatch (fun _ => 0) id linkListing .reference) start first indexed ∧
    Histories.Run (IndexedService.dispatch (fun _ => 0) id linkListing .reference) start second other ∧
    first.map Prod.fst = [registering, registering] ∧
    second.map Prod.fst = [neighbour, registering, discovering, neighbour, registering] ∧
    Isolations.share (concerns (asked registering.toPost)) first =
      Isolations.share (concerns (asked registering.toPost)) second ∧
    content indexed.service (asked registering.toPost) = content other.service (asked registering.toPost) := by
  obtain ⟨start, made, _⟩ := @indexed_initial _ (fun _ => 0) id _ fun _ => ⟨none, none, none, none, [], 0⟩
  have sound := (sound_initial made).1
  have preserves := @dispatch_preserves linkListing _ _ (fun _ => 0) id .reference Function.injective_id
  obtain ⟨first, indexed, run, requests⟩ := Histories.Run.exists preserves sound [registering, registering]
  obtain ⟨second, other, another, more⟩ := Histories.Run.exists preserves sound
    [neighbour, registering, discovering, neighbour, registering]
  have same : (Isolations.share (concerns (asked registering.toPost)) first).map Prod.fst =
      (Isolations.share (concerns (asked registering.toPost)) second).map Prod.fst := by
    rw [Isolations.share_events, Isolations.share_events, requests, more]
    rfl
  obtain ⟨answers, contents⟩ := endpoint_isolated made run (fun _ _ _ _ same => same) another
    (fun _ _ _ _ same => same) _ same
  exact ⟨start, first, second, indexed, other, made, run, another, requests, more, answers, contents⟩

end IoTGateway.Proofs.EndpointRegistry
