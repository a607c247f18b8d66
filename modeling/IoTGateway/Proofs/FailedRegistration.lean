import IoTGateway.Proofs.DirectoryStability
import IoTGateway.Proofs.DirectoryTrace

/-! Registrations whose resource libcoap has no memory for. The node is cached
before the resource is created, and the result of the creation is only stored,
so such a request is announced like any other. -/

namespace IoTGateway.Proofs.FailedRegistration
open DirectoryStep DirectoryStability DirectoryTrace

def reachesRd (request : Request) : Bool := request.path = rdUri ∧ request.method = .post

def postsOf (requests : List Request) : List Post := (requests.filter reachesRd).map Request.toPost

theorem reachesRd_iff {request : Request} :
    reachesRd request = true ↔ request.path = rdUri ∧ request.method = .post := by
  simp [reachesRd]

private theorem postsOf_append (requests : List Request) (request : Request) : postsOf (requests ++ [request]) =
    if reachesRd request then postsOf requests ++ [request.toPost] else postsOf requests := by
  split <;> simp [postsOf, List.filter_append, *]

def OneDirectory (service : RDService) : Prop :=
  ∀ resource ∈ service.resources, resource.appContex = .rd → resource.uri = rdUri

theorem OneDirectory.initial : OneDirectory RDService.init := by
  unfold OneDirectory
  decide

theorem oneDirectory_answered {os : Platform} {service : RDService} {posted : Post} {response next}
    (answered : Answered os service posted response next) (one : OneDirectory service) : OneDirectory next := by
  cases answered with
  | rejected => exact one
  | updated => exact one
  | created =>
    intro resource member own
    simp only [grown] at member
    split at member
    · rcases List.mem_append.mp member with old | new
      · exact one resource old own
      · rw [List.mem_singleton.mp new] at own
        cases own
    · exact one resource member own

theorem handleRequest_elsewhere {os : Platform} {service : RDService} (one : OneDirectory service) {request : Request}
    (elsewhere : reachesRd request = false) {response next}
    (answered : handleRequest os service request = .ok (response, next)) :
    next = service ∧ response.code ≠ coapResponseCode 201 := by
  have plain : ∀ reply, handleRequest os service request = .ok (reply, service) →
      reply.code ≠ coapResponseCode 201 → next = service ∧ response.code ≠ coapResponseCode 201 := by
    intro reply same code
    cases same.symm.trans answered
    exact ⟨rfl, code⟩
  unfold handleRequest at plain
  split at plain
  next resource found =>
    unfold methodHandler at plain
    split at plain
    next own method =>
      have uri := one resource (by simpa using List.mem_of_find?_eq_some found) own
      have path : resource.uri = request.path := by simpa using List.find?_some found
      simp [reachesRd, ← path, uri, method] at elsewhere
    next => exact plain _ rfl (by simp [defaultHandleRequest]; decide)
  next => exact plain _ rfl (by cases request.method <;> decide)

structure Traced (os : Platform) (requests : List Request) (service : RDService) : Prop where
  tracks : Tracks os (postsOf requests) service
  one : OneDirectory service

section
variable {os : Platform} {history : List (Request × CoapPdu)} {service : RDService}

theorem traced_of_run (run : Histories.Run (handleRequest os) RDService.init history service) :
    Traced os (history.map Prod.fst) service := by
  induction run with
  | start => exact ⟨.initial os, .initial⟩
  | @step history service request response next run answered ih =>
    rw [List.map_append, List.map_singleton]
    have posts := postsOf_append (history.map Prod.fst) request
    cases reaches : reachesRd request with
    | true =>
      rw [reaches, if_pos rfl] at posts
      obtain ⟨path, method⟩ := reachesRd_iff.mp reaches
      rw [handleRequest_rd os ih.tracks.inv request path method] at answered
      have how := answered_of_post ih.tracks.inv answered
      exact ⟨posts ▸ ih.tracks.step how, oneDirectory_answered how ih.one⟩
    | false =>
      rw [reaches, if_neg Bool.false_ne_true] at posts
      obtain ⟨rfl, _⟩ := handleRequest_elsewhere ih.one reaches answered
      exact ⟨posts ▸ ih.tracks, ih.one⟩

end

def HasResource (service : RDService) (r : Nat) : Prop := ∃ resource ∈ service.resources, resource.appContex = .node r

/-- The run passed from `before` to `after` when it answered a request 2.01. -/
def Announces (os : Platform) (history : List (Request × CoapPdu)) (before after service : RDService) : Prop :=
  ∃ earlier request response later, history = earlier ++ (request, response) :: later ∧
    Histories.Run (handleRequest os) RDService.init earlier before ∧
    handleRequest os before request = .ok (response, after) ∧ response.code = coapResponseCode 201 ∧
    Histories.Run (handleRequest os) after later service

/-- Every cached node, and every node that a 2.01 announced, has a resource. -/
structure Backed (os : Platform) (history : List (Request × CoapPdu)) (service : RDService) : Prop where
  cached : ∀ r ∈ service.epCache, HasResource service r
  announced : ∀ before after, Announces os history before after service →
    ∀ r ∈ after.epCache, r ∉ before.epCache → HasResource service r

/-- A registration of a new pair for which `CreateResource` returns null. -/
structure Fails (service : RDService) (request : Request) : Prop where
  reaches : reachesRd request = true
  named : registers request.toPost = true
  absent : locate service (asked request.toPost) = none
  failure : request.initOk = false

section
variable {os : Platform} {history : List (Request × CoapPdu)} {service : RDService}

theorem hasResource_iff {posted : List Post} (tracks : Tracks os posted service) (r : Nat) :
    HasResource service r ↔ ∃ origin, (creators posted)[r]? = some origin ∧ origin.initOk = true := by
  have fixed : ∀ resource ∈ RDService.init.resources, resource.appContex ≠ .node r := by
    intro resource member
    have kinds : ∀ resource ∈ RDService.init.resources,
        resource.appContex ∈ [ObjectRef.rd, .lookUp, .lookUpDomain, .lookUpEp, .lookUpRes] := by decide
    intro same
    have among := kinds resource member
    simp [same] at among
  rw [HasResource, tracks.table]
  constructor
  · intro found
    obtain ⟨resource, member, leads⟩ := found
    rcases List.mem_append.mp member with own | added
    · exact absurd leads (fixed resource own)
    · obtain ⟨entry, among, rfl⟩ := List.mem_map.mp added
      obtain ⟨there, success⟩ := List.mem_filter.mp among
      obtain rfl : entry.2 = r := by simpa [newResource] using leads
      exact ⟨entry.1, List.mem_zipIdx_iff_getElem?.mp there, success⟩
  · intro made
    obtain ⟨origin, there, success⟩ := made
    have among : (origin, r) ∈ (creators posted).zipIdx.filter (·.1.initOk) :=
      List.mem_filter.mpr ⟨List.mem_zipIdx_iff_getElem?.mpr there, success⟩
    exact ⟨newResource os origin r, List.mem_append_right _ (List.mem_map.mpr ⟨_, among, rfl⟩), rfl⟩

private theorem cached_iff {posted : List Post} (tracks : Tracks os posted service) :
    (∀ r ∈ service.epCache, HasResource service r) ↔ ∀ creator ∈ creators posted, creator.initOk = true := by
  simp only [tracks.inv.mem_cache, tracks.length, hasResource_iff tracks]
  constructor
  · intro backed creator member
    obtain ⟨r, there⟩ := List.mem_iff_getElem?.mp member
    obtain ⟨origin, same, success⟩ := backed r (List.getElem?_eq_some_iff.mp there).1
    rwa [← Option.some.inj (there.symm.trans same)] at success
  · intro success r inside
    exact ⟨_, List.getElem?_eq_getElem inside, success _ (List.getElem_mem inside)⟩

private theorem announced_cached {before after : RDService} (announces : Announces os history before after service)
    {r : Nat} (member : r ∈ after.epCache) : r ∈ service.epCache := by
  obtain ⟨earlier, request, response, later, _, first, answered, _, rest⟩ := announces
  have reached := first.step answered
  exact (rest.related (handleRequest_preserves os) (run_inv reached) .refl .trans step_extends).cache.subset member

private theorem backed_iff (run : Histories.Run (handleRequest os) RDService.init history service) :
    Backed os history service ↔
      ∀ creator ∈ creators (postsOf (history.map Prod.fst)), creator.initOk = true := by
  rw [← cached_iff (traced_of_run run).tracks]
  constructor
  · exact Backed.cached
  · intro cached
    exact ⟨cached, fun before after announces r member _ => cached r (announced_cached announces member)⟩

variable (os) in
theorem failed_announced {request : Request} (inv : Inv service) (fails : Fails service request) :
    ∃ response next, handleRequest os service request = .ok (response, next) ∧
      response.code = coapResponseCode 201 ∧ next.epCache = service.epCache ++ [service.heap.length] := by
  obtain ⟨path, method⟩ := reachesRd_iff.mp fails.reaches
  obtain ⟨response, next, answered, how⟩ := post_answered os inv request.toPost
  rw [← handleRequest_rd os inv request path method] at answered
  refine ⟨response, next, answered, ?_⟩
  cases how with
  | rejected nameless => exact absurd fails.named (by simp [nameless])
  | updated named found => exact absurd fails.absent (by simp [found])
  | created named absent => exact ⟨responseOk_code _ _, rfl⟩

/-- In a reachable directory every cached and every announced node has a resource
exactly when no request that made a node failed, and a request that fails is
announced and cached. -/
theorem failed_registration_iff (run : Histories.Run (handleRequest os) RDService.init history service) :
    (Backed os history service ↔
      ∀ creator ∈ creators (postsOf (history.map Prod.fst)), creator.initOk = true) ∧
    ∀ request, Fails service request → ∃ response next, handleRequest os service request = .ok (response, next) ∧
      coapResponseClass response.code = 2 ∧ next.epCache ≠ service.epCache := by
  refine ⟨backed_iff run, ?_⟩
  intro request fails
  obtain ⟨response, next, answered, code, cache⟩ := failed_announced os (run_inv run) fails
  exact ⟨response, next, answered, by rw [code]; decide, by simp [cache]⟩

end

/-- A registration at a moment without memory, and the same one again. -/
def starved : Request := { registering with initOk := false }

theorem failed_registration_renewed : ∃ history service,
    Histories.Run (handleRequest .reference) RDService.init history service ∧
    history.map Prod.fst = [registering, registering] ∧
    (Backed .reference history service ↔
      ∀ creator ∈ creators (postsOf (history.map Prod.fst)), creator.initOk = true) ∧
    ∀ request, Fails service request → ∃ response next,
      handleRequest .reference service request = .ok (response, next) ∧
      coapResponseClass response.code = 2 ∧ next.epCache ≠ service.epCache := by
  obtain ⟨history, service, run, same⟩ :=
    Histories.Run.exists (handleRequest_preserves .reference) Inv.initial [registering, registering]
  exact ⟨history, service, run, same, failed_registration_iff run⟩

/-- The failed registration is answered 2.01, the node stays without a resource,
and the next attempt finds the node and creates none either. -/
theorem half_made_node : ∃ history service,
    Histories.Run (handleRequest .reference) RDService.init history service ∧
    history.map Prod.fst = [starved, registering] ∧
    history.map (fun answer => answer.2.code) = [coapResponseCode 201, coapResponseCode 200] ∧
    service.epCache = [0] ∧ service.resources = RDService.init.resources ∧ ¬ HasResource service 0 := by
  have fails : Fails RDService.init starved := ⟨by decide, by decide, by decide, rfl⟩
  obtain ⟨first, middle, made, created, _⟩ := failed_announced .reference Inv.initial fails
  have begun := Histories.Run.start.step made
  have tracks : Tracks .reference (postsOf [starved]) middle := (traced_of_run begun).tracks
  obtain ⟨second, service, answered, how⟩ := post_answered .reference tracks.inv registering.toPost
  have changed : second.code = coapResponseCode 200 := by
    cases how with
    | rejected nameless => exact absurd nameless (by decide)
    | updated => simp [changedRequest]
    | created _ absent => exact absurd (tracks.locate_none.mp absent) (by decide)
  rw [← handleRequest_rd .reference tracks.inv registering rfl rfl] at answered
  have run := begun.step answered
  have final : Tracks .reference (postsOf [starved, registering]) service := (traced_of_run run).tracks
  have length : service.heap.length = 1 := final.length.trans (by decide)
  have made : (creators (postsOf [starved, registering])).map Post.initOk = [false] := by decide
  refine ⟨_, service, run, rfl, by simp [created, changed], ?_, final.table.trans (by decide), ?_⟩
  · simp [final.inv.cache, length, List.range, List.range.loop]
  · rw [hasResource_iff final]
    intro backed
    obtain ⟨origin, there, success⟩ := backed
    have mapped := congrArg (·[0]?) made
    simp [there, success] at mapped

end IoTGateway.Proofs.FailedRegistration
