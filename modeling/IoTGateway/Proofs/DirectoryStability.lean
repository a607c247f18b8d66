import IoTGateway.Proofs.DirectoryStep

/-! Requests of all methods to all resources, in any order: the cache only
grows, errors leave no trace, and no search ever dereferences `end()`. -/

namespace IoTGateway.Proofs.DirectoryStability
open DirectoryStep

/-- A later state of the directory: the cache has grown at its end, and the
nodes that were there kept their path and their names. -/
structure Extends (before after : RDService) : Prop where
  cache : before.epCache <+: after.epCache
  nodes : ∀ (r : Nat) (node : CoAPResource), before.heap[r]? = some node →
    ∃ later : CoAPResource, after.heap[r]? = some later ∧ later.uri = node.uri ∧
    later.attr[ascii "d"]? = node.attr[ascii "d"]? ∧ later.attr[ascii "ep"]? = node.attr[ascii "ep"]?

theorem Extends.refl (service : RDService) : Extends service service :=
  ⟨List.prefix_refl _, fun _ node present => ⟨node, present, rfl, rfl, rfl⟩⟩

theorem Extends.trans {a b c : RDService} (first : Extends a b) (second : Extends b c) : Extends a c := by
  refine ⟨first.cache.trans second.cache, ?_⟩
  intro r node present
  obtain ⟨middle, there, uri, domain, ep⟩ := first.nodes r node present
  obtain ⟨last, here, uriKept, domainKept, epKept⟩ := second.nodes r middle there
  exact ⟨last, here, uriKept.trans uri, domainKept.trans domain, epKept.trans ep⟩

theorem answered_extends {os : Platform} {service : RDService} {posted : Post} {response next}
    (answered : Answered os service posted response next) : Extends service next := by
  cases answered with
  | rejected => exact .refl service
  | @updated r node named found present =>
    refine ⟨List.prefix_refl _, ?_⟩
    intro other old there
    have inside := (List.getElem?_eq_some_iff.mp there).1
    by_cases same : r = other
    · subst same
      obtain rfl : node = old := Option.some.inj (present.symm.trans there)
      exact ⟨renewed os posted node, by simp [RDService.store, inside], rfl, attr_renewed os posted node (by decide),
        attr_renewed os posted node (by decide)⟩
    · exact ⟨old, by simp [RDService.store, same, there], rfl, rfl, rfl⟩
  | created =>
    refine ⟨List.prefix_append _ _, ?_⟩
    intro r old there
    refine ⟨old, ?_, rfl, rfl, rfl⟩
    simp only [grown]
    rw [List.getElem?_append_left (List.getElem?_eq_some_iff.mp there).1, there]

theorem answered_code {os : Platform} {service : RDService} {posted : Post} {response next}
    (answered : Answered os service posted response next) :
    ((coapResponseClass response.code = 4 ∨ coapResponseClass response.code = 5) → next = service) ∧
    next.epCache.length = service.epCache.length + if response.code = coapResponseCode 201 then 1 else 0 := by
  cases answered with
  | rejected => exact ⟨fun _ => rfl, by simp [badRequest]; decide⟩
  | updated =>
    have quiet : ¬ (coapResponseClass (coapResponseCode 200) = 4 ∨ coapResponseClass (coapResponseCode 200) = 5) := by
      decide
    exact ⟨fun error => absurd error (by simpa [changedRequest] using quiet),
      by simp [changedRequest, RDService.store]; decide⟩
  | created =>
    have quiet : ¬ (coapResponseClass (coapResponseCode 201) = 4 ∨ coapResponseClass (coapResponseCode 201) = 5) := by
      decide
    exact ⟨fun error => absurd error (by simpa using quiet), by simp [grown]⟩

section
variable {os : Platform} {history : List (Request × CoapPdu)} {service : RDService}

theorem step_extends {request : Request} {response next} (inv : Inv service)
    (answered : handleRequest os service request = .ok (response, next)) : Extends service next := by
  rcases handleRequest_cases os service request with same | ⟨reply, same, _⟩
  · exact answered_extends (answered_of_post inv (same ▸ answered))
  · cases same.symm.trans answered
    exact .refl service

theorem step_code {request : Request} {response next} (inv : Inv service)
    (answered : handleRequest os service request = .ok (response, next)) :
    ((coapResponseClass response.code = 4 ∨ coapResponseClass response.code = 5) → next = service) ∧
    next.epCache.length = service.epCache.length + if response.code = coapResponseCode 201 then 1 else 0 := by
  rcases handleRequest_cases os service request with same | ⟨reply, same, error⟩
  · exact answered_code (answered_of_post inv (same ▸ answered))
  · cases same.symm.trans answered
    refine ⟨fun _ => rfl, ?_⟩
    rw [if_neg, Nat.add_zero]
    intro created
    rw [created] at error
    exact absurd error (by decide)

theorem run_inv (run : Histories.Run (handleRequest os) RDService.init history service) : Inv service :=
  run.invariant (handleRequest_preserves os) Inv.initial

theorem run_length (run : Histories.Run (handleRequest os) RDService.init history service) :
    service.epCache.length = history.countP fun answer => answer.2.code = coapResponseCode 201 := by
  induction run with
  | start => rfl
  | step run answered ih =>
    rw [(step_code (run_inv run) answered).2, ih, List.countP_append, List.countP_singleton]
    simp

end

/-- What holds of a state reached by `earlier`, and of a later state: the cache
is as long as the number of 2.01 answers and only grows, every further request
is answered without a fault and without effect if it is an error, and every
cached node can be compared. -/
structure Stable (os : Platform) (earlier : List (Request × CoapPdu)) (service after : RDService) : Prop where
  grows : Extends service after
  counted : service.epCache.length = earlier.countP fun answer => answer.2.code = coapResponseCode 201
  answers : ∀ request, ∃ response next, handleRequest os service request = .ok (response, next) ∧
    (coapResponseClass response.code = 4 ∨ coapResponseClass response.code = 5 → next = service)
  comparable : ∀ r ∈ service.epCache, ∃ node d ep, service.heap[r]? = some node ∧ node.attr[ascii "d"]? = some d ∧
    node.attr[ascii "ep"]? = some ep ∧ ∀ domain name, ∃ same, node.compare domain name = .ok same

/-- All this holds in every run of requests to any resources. -/
theorem directory_stable {os : Platform} {earlier later : List (Request × CoapPdu)} {service after : RDService}
    (run : Histories.Run (handleRequest os) RDService.init earlier service)
    (rest : Histories.Run (handleRequest os) service later after) : Stable os earlier service after := by
  have inv := run_inv run
  refine ⟨rest.related (handleRequest_preserves os) inv Extends.refl Extends.trans step_extends, run_length run,
    ?_, ?_⟩
  · intro request
    obtain ⟨response, next, answered, _⟩ := handleRequest_preserves os service request inv
    exact ⟨response, next, answered, (step_code inv answered).1⟩
  · intro r member
    have inside : r < service.heap.length := inv.mem_cache.mp member
    have named := inv.named _ (List.getElem_mem inside)
    exact ⟨_, _, _, List.getElem?_eq_getElem inside, named.domain, named.ep,
      fun domain name => ⟨_, compare_named named domain name⟩⟩

def registering : Request where
  request := { options := [(coapOptionUriQuery, ascii "ep=n1")] }
  peer := .ip (.inet 0x7f000001) 5683
  now := 1000
  method := .post
  path := rdUri

def looking : Request := { registering with method := .get, path := ascii "rd-lookup" }

theorem directory_stable_registration : ∃ earlier later service after,
    Histories.Run (handleRequest .reference) RDService.init earlier service ∧
    Histories.Run (handleRequest .reference) service later after ∧
    earlier.map Prod.fst = [registering] ∧ later.map Prod.fst = [looking] ∧ Stable .reference earlier service after := by
  obtain ⟨earlier, service, run, same⟩ :=
    Histories.Run.exists (handleRequest_preserves .reference) Inv.initial [registering]
  obtain ⟨later, after, rest, sameLater⟩ :=
    Histories.Run.exists (handleRequest_preserves .reference) (run_inv run) [looking]
  exact ⟨earlier, later, service, after, run, rest, same, sameLater, directory_stable run rest⟩

end IoTGateway.Proofs.DirectoryStability
