import IoTGateway.Proofs.DirectoryTrace

/-! What a second registration leaves behind: the update branch renews the
attributes of the node, but neither its payload nor the link attributes that
libcoap publishes. -/

namespace IoTGateway.Proofs.Refresh
open DirectoryStep DirectoryTrace Attributes

section
variable {os : Platform} {history : List (Post × CoapPdu)} {service : RDService}

private theorem success_iff (run : Histories.Run (post os) RDService.init history service) {answer : Post × CoapPdu}
    (member : answer ∈ history) : coapResponseClass answer.2.code = 2 ↔ registers answer.1 = true := by
  induction run with
  | start => exact absurd member List.not_mem_nil
  | step run answered ih =>
    rcases List.mem_append.mp member with earlier | now
    · exact ih earlier
    · rw [List.mem_singleton.mp now]
      have how := answered_of_post (tracks_of_run run).inv answered
      cases how with
      | rejected nameless => exact iff_of_false (by simp [badRequest]; decide) (by simp [nameless])
      | updated named => exact iff_of_true (by simp [changedRequest]; decide) named
      | created named => exact iff_of_true (by simp; decide) named

def successes (key : Key) (history : List (Post × CoapPdu)) : List (Post × CoapPdu) :=
  history.filter fun answer => asked answer.1 = key ∧ coapResponseClass answer.2.code = 2

private theorem successes_posts (run : Histories.Run (post os) RDService.init history service) (key : Key) :
    (successes key history).map Prod.fst = (registrations (history.map Prod.fst)).filter (asked · = key) := by
  have same : successes key history =
      history.filter ((fun posted => asked posted = key ∧ registers posted = true) ∘ Prod.fst) := by
    refine List.filter_congr fun answer member => ?_
    simp [success_iff run member]
  rw [same, ← List.filter_map, registrations, List.filter_filter]
  exact List.filter_congr fun posted _ => by simp

private theorem first_registration {posted : List Post} (clean : ∀ other ∈ registrations posted, ZeroFree other)
    (key : Key) :
    (registrations posted).find? (fun other => truncated (asked other) = key) =
      ((registrations posted).filter (asked · = key)).head? := by
  rw [← List.head?_filter]
  congr 1
  refine List.filter_congr fun other member => ?_
  rw [truncated_eq_self.mpr (clean other member)]

private theorem latest_success (run : Histories.Run (post os) RDService.init history service) {key : Key}
    {last : Post} :
    ((registrations (history.map Prod.fst)).filter (asked · = key)).getLast? = some last ↔
      ∃ response, (successes key history).getLast? = some (last, response) := by
  rw [← successes_posts run key, List.getLast?_map]
  simp

/-- The search for a pair ends at a node with the first registered payload. -/
theorem located_payload {posted : List Post} (tracks : Tracks os posted service)
    (clean : ∀ other ∈ registrations posted, ZeroFree other) {key : Key} {r : Nat}
    (found : locate service key = some r) :
    ∃ node first, service.heap[r]? = some node ∧ ((registrations posted).filter (asked · = key)).head? = some first ∧
      node.payload = getPayload first.request := by
  obtain ⟨node, origin, present, _, _, isFirst, made⟩ := tracks.located found
  rw [first_registration clean] at isFirst
  exact ⟨node, origin, present, isFirst, made.payload⟩

/-- The stored payload is that of the latest successful POST, for every pair,
exactly when the names are free of zero bytes and the latest registration of
each endpoint repeats the payload of the first. -/
theorem latest_payload_iff (run : Histories.Run (post os) RDService.init history service) :
    (∀ key posted response, (successes key history).getLast? = some (posted, response) →
      ∃ r node, findResourceFromCacheByEp service key.1 key.2 = .ok (some r) ∧ service.heap[r]? = some node ∧
        node.payload = getPayload posted.request) ↔
    (∀ posted ∈ registrations (history.map Prod.fst), ZeroFree posted) ∧
      ∀ key first last, ((registrations (history.map Prod.fst)).filter (asked · = key)).head? = some first →
        ((registrations (history.map Prod.fst)).filter (asked · = key)).getLast? = some last →
          getPayload first.request = getPayload last.request := by
  have tracks := tracks_of_run run
  have covered := Registers.covered_iff_normal asked truncated_idempotent (registrations (history.map Prod.fst))
  constructor
  · intro latest
    have located {key : Key} {last : Post}
        (isLast : ((registrations (history.map Prod.fst)).filter (asked · = key)).getLast? = some last) :
        ∃ r node, locate service key = some r ∧ service.heap[r]? = some node ∧
          node.payload = getPayload last.request := by
      obtain ⟨response, success⟩ := (latest_success run).mp isLast
      obtain ⟨r, node, search, present, payload⟩ := latest key last response success
      rw [tracks.inv.findResource, Except.ok.injEq] at search
      exact ⟨r, node, search, present, payload⟩
    have clean : ∀ posted ∈ registrations (history.map Prod.fst), ZeroFree posted := by
      intro posted member
      apply truncated_eq_self.mp
      refine covered.mp ?_ posted member
      intro other among
      have some : (registrations (history.map Prod.fst)).filter (asked · = asked other) ≠ [] :=
        List.ne_nil_of_mem (List.mem_filter.mpr ⟨among, by simp⟩)
      obtain ⟨r, _, found, _⟩ := located (List.getLast?_eq_some_getLast some)
      exact tracks.stored found
    refine ⟨clean, ?_⟩
    intro key first last isFirst isLast
    obtain ⟨r, node, found, present, payload⟩ := located isLast
    obtain ⟨same, origin, there, origin_first, stored⟩ := located_payload tracks clean found
    obtain rfl : node = same := Option.some.inj (present.symm.trans there)
    obtain rfl : first = origin := Option.some.inj (isFirst.symm.trans origin_first)
    exact stored.symm.trans payload
  · intro condition key posted response success
    obtain ⟨clean, same⟩ := condition
    have isLast := (latest_success run).mpr ⟨response, success⟩
    obtain ⟨among, asks⟩ := List.mem_filter.mp (List.mem_of_getLast? isLast)
    obtain rfl : asked posted = key := by simpa using asks
    have normal : ∀ other ∈ registrations (history.map Prod.fst), truncated (asked other) = asked other :=
      fun other inside => truncated_eq_self.mpr (clean other inside)
    obtain ⟨r, found⟩ := tracks.locate_some (covered.mpr normal posted among)
    obtain ⟨node, first, present, isFirst, payload⟩ := located_payload tracks clean found
    exact ⟨r, node, by rw [tracks.inv.findResource, found], present, payload.trans (same _ first posted isFirst isLast)⟩

end

theorem latest_payload_repeated : ∃ history service, Histories.Run (post .reference) RDService.init history service ∧
    history.map Prod.fst = [registration "ep=n1" "</a>" 1000, registration "ep=n1" "</a>" 1001] ∧
    ((∀ key posted response, (successes key history).getLast? = some (posted, response) →
      ∃ r node, findResourceFromCacheByEp service key.1 key.2 = .ok (some r) ∧ service.heap[r]? = some node ∧
        node.payload = getPayload posted.request) ↔
    (∀ posted ∈ registrations (history.map Prod.fst), ZeroFree posted) ∧
      ∀ key first last, ((registrations (history.map Prod.fst)).filter (asked · = key)).head? = some first →
        ((registrations (history.map Prod.fst)).filter (asked · = key)).getLast? = some last →
          getPayload first.request = getPayload last.request) := by
  obtain ⟨history, service, run, same⟩ :=
    run_exists .reference [registration "ep=n1" "</a>" 1000, registration "ep=n1" "</a>" 1001]
  exact ⟨history, service, run, same, latest_payload_iff run⟩

theorem new_links_dropped : ∃ history service r node,
    Histories.Run (post .reference) RDService.init history service ∧
    history.map Prod.fst = [registration "ep=n1" "</a>" 1000, registration "ep=n1" "</b>" 1001] ∧
    ((successes (ascii "hisilicion", ascii "n1") history).getLast?.map Prod.fst) =
      some (registration "ep=n1" "</b>" 1001) ∧
    findResourceFromCacheByEp service (ascii "hisilicion") (ascii "n1") = .ok (some r) ∧
    service.heap[r]? = some node ∧ node.payload = ascii "</a>" := by
  obtain ⟨history, service, run, same⟩ :=
    run_exists .reference [registration "ep=n1" "</a>" 1000, registration "ep=n1" "</b>" 1001]
  have tracks := same ▸ tracks_of_run run
  obtain ⟨r, found⟩ : ∃ r, locate service (ascii "hisilicion", ascii "n1") = some r := tracks.locate_some (by decide)
  obtain ⟨node, origin, present, _, _, isFirst, made⟩ := tracks.located found
  have search := tracks.inv.findResource (ascii "hisilicion", ascii "n1")
  rw [found] at search
  refine ⟨history, service, r, node, run, same, ?_, search, present, ?_⟩
  · rw [← List.getLast?_map, successes_posts run, same]
    rfl
  · obtain rfl : registration "ep=n1" "</a>" 1000 = origin := Option.some.inj (isFirst.symm.trans rfl).symm
    exact made.payload

/-- The link attributes of every cached node's resource are its own. -/
def LinksAgree (service : RDService) : Prop :=
  ∀ r ∈ service.epCache, ∃ (node : CoAPResource) (index : Nat) (resource : CoapResourceT),
    service.heap[r]? = some node ∧ node.coapResource = some index ∧ service.resources[index]? = some resource ∧
      ∀ key value, (key, value) ∈ resource.linkAttr ↔ node.attr[key]? = some value

/-- A registration asks for what the one that made the node asked for; it may
leave out the endpoint type. -/
structure Agrees (os : Platform) (origin posted : Post) : Prop where
  lt : lifetimeText (requested os posted.callback).lt = lifetimeText (requested os origin.callback).lt
  con : (requested os posted.callback).con = (requested os origin.callback).con
  et : (requested os posted.callback).et = [] ∨ (requested os posted.callback).et = (requested os origin.callback).et

theorem foldl_coapAddAttr (pairs linkAttr : List (Bytes × Bytes)) :
    pairs.foldl coapAddAttr linkAttr = pairs.reverse ++ linkAttr := by
  induction pairs generalizing linkAttr with
  | nil => rfl
  | cons pair pairs ih => simp [ih, coapAddAttr]

theorem mem_linkAttr (os : Platform) (posted : Post) (address : Nat) (key value : Bytes) :
    (key, value) ∈ (newResource os posted address).linkAttr ↔ (firstAttr os posted)[key]? = some value := by
  simp [newResource, foldl_coapAddAttr, Std.ExtTreeMap.mem_toList_iff_getElem?_eq_some]

private theorem firstAttr_et (os : Platform) (posted : Post) : (firstAttr os posted)[ascii "et"]? =
    if (requested os posted.callback).et = [] then none else some (requested os posted.callback).et := by
  rw [firstAttr, updatedAttr_et, createdAttr_et]

private theorem agrees_iff (os : Platform) (origin posted : Post) :
    updatedAttr (firstAttr os origin) (requested os posted.callback) = firstAttr os origin ↔ Agrees os origin posted := by
  constructor
  · intro same
    have lt := congrArg (·[ascii "lt"]?) same
    have con := congrArg (·[ascii "con"]?) same
    have et := congrArg (·[ascii "et"]?) same
    simp only [updatedAttr_lt, updatedAttr_con, firstAttr, Option.some.injEq] at lt con
    refine ⟨lt, con, or_iff_not_imp_left.mpr fun given => ?_⟩
    simp only [updatedAttr_et, if_neg given, firstAttr_et] at et
    split at et
    · simp at et
    · exact Option.some.inj et
  · intro agrees
    refine Std.ExtTreeMap.ext_getElem? fun key => ?_
    rw [updatedAttr_get]
    split
    next given =>
      obtain ⟨rfl, given⟩ := given
      rw [firstAttr_et, ← agrees.et.resolve_left given, if_neg given]
    next =>
      split
      next same => rw [← same, firstAttr, updatedAttr_con, agrees.con]
      next =>
        split
        next same => rw [← same, firstAttr, updatedAttr_lt, agrees.lt]
        next => rfl

def Unmoved (os : Platform) (posted : List Post) (service : RDService) : Prop :=
  ∀ (r : Nat) (node : CoAPResource) (origin : Post), service.heap[r]? = some node →
    (creators posted)[r]? = some origin → node.attr = firstAttr os origin

theorem Unmoved.initial (os : Platform) : Unmoved os [] RDService.init := by
  intro r node origin present
  simp [RDService.init, createFixed, createResource] at present

theorem linksAgree_iff {os : Platform} {posted : List Post} {service : RDService} (tracks : Tracks os posted service)
    (success : ∀ other ∈ posted, other.initOk = true) : LinksAgree service ↔ Unmoved os posted service := by
  have made {r : Nat} {node : CoAPResource} (present : service.heap[r]? = some node) : ∃ origin index,
      (creators posted)[r]? = some origin ∧ node.coapResource = some index ∧
        service.resources[index]? = some (newResource os origin r) := by
    obtain ⟨origin, there, made⟩ := tracks.nodes r node present
    obtain ⟨index, held, linked⟩ := made.linked (success origin (mem_of_creators (List.mem_of_getElem? there)))
    exact ⟨origin, index, there, held, linked⟩
  constructor
  · intro agree r node origin present there
    have cached := tracks.inv.mem_cache.mpr (List.getElem?_eq_some_iff.mp present).1
    obtain ⟨cachedNode, index, resource, itsNode, held, linked, same⟩ := agree r cached
    obtain rfl : node = cachedNode := Option.some.inj (present.symm.trans itsNode)
    obtain ⟨itsOrigin, itsIndex, itsPlace, itsHeld, itsLinked⟩ := made present
    obtain rfl : origin = itsOrigin := Option.some.inj (there.symm.trans itsPlace)
    obtain rfl : index = itsIndex := Option.some.inj (held.symm.trans itsHeld)
    obtain rfl : resource = newResource os origin r := Option.some.inj (linked.symm.trans itsLinked)
    apply Std.ExtTreeMap.ext_getElem?
    intro key
    apply Option.ext
    intro value
    rw [← same, mem_linkAttr]
  · intro unmoved r cached
    have present := List.getElem?_eq_getElem (tracks.inv.mem_cache.mp cached)
    obtain ⟨origin, index, there, held, linked⟩ := made present
    refine ⟨_, index, _, present, held, linked, ?_⟩
    intro key value
    rw [mem_linkAttr, unmoved r _ origin present there]

/-- The registration that made the node a pair is found at. -/
def maker (earlier : List Post) (key : Key) : Option Post :=
  (registrations earlier).find? fun other => truncated (asked other) = key

/-- One POST keeps all nodes at their first attributes exactly when it agrees
with the maker of the node it updates, if it updates one. -/
theorem unmoved_step {os : Platform} {earlier : List Post} {service : RDService} {posted : Post} {response next}
    (tracks : Tracks os earlier service) (unmoved : Unmoved os earlier service)
    (answered : Answered os service posted response next) : Unmoved os (earlier ++ [posted]) next ↔
      (registers posted = true → ∀ origin, maker earlier (asked posted) = some origin → Agrees os origin posted) := by
  cases answered with
  | rejected nameless =>
    refine iff_of_true ?_ fun named => by simp [nameless] at named
    rwa [Unmoved, creators_rejected nameless]
  | @updated r node named found present =>
    obtain ⟨cachedNode, origin, itsPlace, _, there, isFirst, _⟩ := tracks.located found
    obtain rfl : node = cachedNode := Option.some.inj (present.symm.trans itsPlace)
    have inside := (List.getElem?_eq_some_iff.mp present).1
    have attr : (renewed os posted node).attr = updatedAttr (firstAttr os origin) (requested os posted.callback) := by
      rw [renewed, unmoved r node origin present there]
    simp only [Unmoved, creators_known named (tracks.stored found), maker, isFirst, Option.some.injEq, forall_eq',
      named, forall_const, ← agrees_iff, ← attr]
    constructor
    · exact fun all => all r _ origin (by simp [RDService.store, inside]) there
    · intro same other old itsOrigin here itsMaker
      by_cases touched : r = other
      · subst touched
        obtain rfl : renewed os posted node = old := by simpa [RDService.store, inside] using here
        obtain rfl : origin = itsOrigin := Option.some.inj (there.symm.trans itsMaker)
        exact same
      · exact unmoved other old itsOrigin (by simpa [RDService.store, touched] using here) itsMaker
  | created named absent =>
    have fresh := tracks.locate_none.mp absent
    have none : maker earlier (asked posted) = none := by
      rw [maker, ← Registers.find_made asked truncated_idempotent, List.find?_eq_none]
      exact fun other member same => fresh (List.mem_map.mpr ⟨other, member, by simpa using same⟩)
    refine iff_of_true ?_ (by simp [none])
    intro r node origin present there
    rw [creators_fresh named fresh] at there
    rcases grown_heap present with old | ⟨rfl, rfl⟩
    · have inside : r < (creators earlier).length := tracks.length ▸ (List.getElem?_eq_some_iff.mp old).1
      rw [List.getElem?_append_left inside] at there
      exact unmoved r node origin old there
    · obtain rfl : posted = origin := by simpa [tracks.length] using there
      rfl

/-- Over a whole run in which every resource is created, the published
attributes keep up with the nodes exactly when every registration of a node
that exists agrees with the one that made it. -/
theorem link_attributes_agree_iff {os : Platform} {history : List (Post × CoapPdu)} {service : RDService}
    (run : Histories.Run (post os) RDService.init history service)
    (success : ∀ posted ∈ history.map Prod.fst, posted.initOk = true) :
    (∀ earlier later state, history = earlier ++ later → Histories.Run (post os) RDService.init earlier state →
      LinksAgree state) ↔
    ∀ earlier posted later, history.map Prod.fst = earlier ++ posted :: later → registers posted = true →
      ∀ origin, maker earlier (asked posted) = some origin → Agrees os origin posted := by
  have settled {earlier later : List (Post × CoapPdu)} {state : RDService} (split : history = earlier ++ later)
      (first : Histories.Run (post os) RDService.init earlier state) :
      LinksAgree state ↔ Unmoved os (earlier.map Prod.fst) state :=
    linksAgree_iff (tracks_of_run first) fun posted member => success posted (by simp [split, member])
  constructor
  · intro agree earlier posted later split
    obtain ⟨before, rest, rfl, rfl, cut⟩ := List.map_eq_append_iff.mp split
    obtain ⟨⟨posted, response⟩, after, rfl, rfl, rfl⟩ := List.map_eq_cons_iff.mp cut
    have regroup : before ++ (posted, response) :: after = (before ++ [(posted, response)]) ++ after := by simp
    obtain ⟨next, both, _⟩ := Histories.Run.cut (regroup ▸ run)
    obtain ⟨state, first, answered⟩ := both.last
    have tracks := tracks_of_run first
    have unmoved := (settled rfl first).mp (agree _ _ state rfl first)
    have kept := (settled regroup both).mp (agree _ _ next regroup both)
    rw [List.map_append] at kept
    exact (unmoved_step tracks unmoved (answered_of_post tracks.inv answered)).mp kept
  · intro agree earlier later state split first
    refine (settled split first).mpr ?_
    clear run success settled
    induction first generalizing later with
    | start => exact Unmoved.initial os
    | @step before state posted response next first answered ih =>
      have tracks := tracks_of_run first
      have unmoved := ih ((posted, response) :: later) (by simp [split])
      rw [List.map_append]
      exact (unmoved_step tracks unmoved (answered_of_post tracks.inv answered)).mpr
        (agree _ posted (later.map Prod.fst) (by simp [split]))

theorem link_attributes_repeated : ∃ history service, Histories.Run (post .reference) RDService.init history service ∧
    history.map Prod.fst = [registration "ep=n1" "" 1000, registration "ep=n1" "" 1001] ∧
    ((∀ earlier later state, history = earlier ++ later →
      Histories.Run (post .reference) RDService.init earlier state → LinksAgree state) ↔
    ∀ earlier posted later, history.map Prod.fst = earlier ++ posted :: later → registers posted = true →
      ∀ origin, maker earlier (asked posted) = some origin → Agrees .reference origin posted) := by
  obtain ⟨history, service, run, same⟩ :=
    run_exists .reference [registration "ep=n1" "" 1000, registration "ep=n1" "" 1001]
  exact ⟨history, service, run, same, link_attributes_agree_iff run (by rw [same]; decide)⟩

/-- A longer lifetime is recorded in the node and not published. -/
theorem longer_lifetime_unpublished : ∃ first second created service,
    post .reference RDService.init (registration "ep=n1" "" 1000) = .ok (first, created) ∧
    post .reference created (registration "ep=n1&lt=90" "" 1001) = .ok (second, service) ∧
    LinksAgree created ∧ ¬ LinksAgree service := by
  obtain ⟨first, created, answered, how⟩ := post_answered .reference Inv.initial (registration "ep=n1" "" 1000)
  obtain ⟨second, service, answeredAgain, howAgain⟩ :=
    post_answered .reference (how.inv Inv.initial) (registration "ep=n1&lt=90" "" 1001)
  have tracks := (Tracks.initial .reference).step how
  have unmoved := (unmoved_step (Tracks.initial .reference) (Unmoved.initial .reference) how).mpr
    fun _ origin none => absurd none (by simp [maker, registrations])
  have moved := mt (unmoved_step tracks unmoved howAgain).mp fun agree =>
    absurd (agree (by decide) (registration "ep=n1" "" 1000) rfl).lt (by decide)
  exact ⟨first, second, created, service, answered, answeredAgain, (linksAgree_iff tracks (by decide)).mpr unmoved,
    fun agree => moved ((linksAgree_iff (tracks.step howAgain) (by decide)).mp agree)⟩

end IoTGateway.Proofs.Refresh
