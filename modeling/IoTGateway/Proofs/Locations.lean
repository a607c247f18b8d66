import IoTGateway.Proofs.DirectoryTrace

/-! The Location of a new node. Its path carries one number of a generator that
is reseeded from the clock, so two paths are told apart exactly when the clock
gave the generator different first numbers. -/

namespace IoTGateway.Proofs.Locations
open DirectoryStep DirectoryTrace Attributes

/-- The Location-Path segments of a response, joined again. -/
def location (response : CoapPdu) : Bytes := [slash].intercalate (coapOptions response coapOptionLocationPath)

def pathOf (number : Fin 2147483648) : Bytes := rdUri ++ slash :: hexadecimal number

private theorem pathOf_injective : Function.Injective pathOf := by
  intro first second same
  simp only [pathOf, List.append_cancel_left_eq, List.cons.injEq, true_and] at same
  exact Fin.ext (Numerals.text_injective (by decide) (by decide) same)

private theorem coapOptions_add (pdu : CoapPdu) (number : Nat) (segments : List Bytes)
    (last : ∀ option ∈ pdu.options, option.1 ≤ number) :
    coapOptions (segments.foldl (coapAddOption · number ·) pdu) number = coapOptions pdu number ++ segments := by
  induction segments generalizing pdu with
  | nil => simp
  | cons segment segments ih =>
    have added : coapAddOption pdu number segment =
        { pdu with data := none, options := pdu.options ++ [(number, segment)] } := by
      unfold coapAddOption
      rw [if_neg]
      cases ending : pdu.options.getLast? with
      | none => simp
      | some option => simpa using last option (List.mem_of_getLast? ending)
    rw [List.foldl_cons, added, ih]
    · simp [coapOptions]
    · intro option member
      rcases List.mem_append.mp member with old | new
      · exact last option old
      · rw [List.mem_singleton.mp new]

theorem location_responseOk (node : CoAPResource) : location (responseOk node {}) = node.uri := by
  have segments := coapOptions_add { code := coapResponseCode 201 } coapOptionLocationPath (coapSplitPath node.uri)
    (by simp)
  rw [location, responseOk, segments, coapSplitPath]
  exact List.intercalate_splitOn slash

private theorem fixed_ne_nodeUri (os : Platform) (now : Nat) :
    ∀ resource ∈ RDService.init.resources, resource.uri ≠ nodeUri os now := by
  have heads : ∀ resource ∈ RDService.init.resources, resource.uri.take 3 ≠ [114, 100, 47] := by decide
  intro resource member same
  exact heads resource member (by rw [same]; rfl)

private theorem filter_unique {α : Type u} {β : Type v} [DecidableEq β] (f : α → β) {items : List α} {item : α}
    (distinct : (items.map f).Nodup) (member : item ∈ items) : items.filter (f · = f item) = [item] := by
  obtain ⟨front, back, rfl⟩ := List.append_of_mem member
  simp only [List.map_append, List.map_cons, List.nodup_append, List.nodup_cons, List.mem_map, List.mem_cons] at distinct
  obtain ⟨_, ⟨behind, _⟩, before⟩ := distinct
  have front_none : front.filter (f · = f item) = [] :=
    List.filter_eq_nil_iff.mpr fun other among => by simpa using before _ ⟨other, among, rfl⟩ _ (Or.inl rfl)
  have back_none : back.filter (f · = f item) = [] :=
    List.filter_eq_nil_iff.mpr fun other among => by simpa using fun same => behind ⟨other, among, same⟩
  simp [front_none, back_none]

def DistinctPaths (service : RDService) : Prop :=
  ∀ r ∈ service.epCache, ∀ other ∈ service.epCache, ∀ node twin : CoAPResource, service.heap[r]? = some node →
    service.heap[other]? = some twin → node.uri = twin.uri → r = other

/-- Each new node was announced under the path of one resource in the context,
and this resource leads to the node. -/
def Announced (os : Platform) (history : List (Post × CoapPdu)) (service : RDService) : Prop :=
  ∀ earlier posted response later, history = earlier ++ (posted, response) :: later →
    response.code = coapResponseCode 201 →
    ∃ r before after resource, Histories.Run (post os) RDService.init earlier before ∧
      post os before posted = .ok (response, after) ∧ after.epCache = before.epCache ++ [r] ∧
      (after.heap[r]?.map nodeKey) = some (truncated (asked posted)) ∧
      service.resources.filter (·.uri = location response) = [resource] ∧ resource.appContex = .node r

/-- The first numbers the generator gives at the seconds the nodes are made. -/
def numbers (os : Platform) (posted : List Post) : List (Fin 2147483648) :=
  (creators posted).map fun creator => os.rand (UInt32.ofNat creator.now)

section
variable {os : Platform} {posted : List Post} {service : RDService} (tracks : Tracks os posted service)
include tracks

theorem paths : service.heap.map CoAPResource.uri = (creators posted).map fun creator => nodeUri os creator.now :=
  tracks.heap_map MadeBy.uri

private theorem paths_nodup : (service.heap.map CoAPResource.uri).Nodup ↔ (numbers os posted).Nodup := by
  have mapped : service.heap.map CoAPResource.uri = (numbers os posted).map pathOf := by
    rw [paths tracks, numbers, List.map_map]
    rfl
  rw [mapped, List.nodup_map_iff pathOf_injective]

theorem distinctPaths_iff : DistinctPaths service ↔ (numbers os posted).Nodup := by
  rw [← paths_nodup tracks]
  constructor
  · intro distinct
    apply List.nodup_iff_getElem?_ne_getElem?.mpr
    intro r other before inside same
    rw [List.length_map] at inside
    have uri : service.heap[r].uri = service.heap[other].uri := by
      simpa [inside, before.trans inside] using same
    have := distinct r (tracks.inv.mem_cache.mpr (before.trans inside)) other (tracks.inv.mem_cache.mpr inside) _ _
      (List.getElem?_eq_getElem (before.trans inside)) (List.getElem?_eq_getElem inside) uri
    omega
  · intro nodup r cached other _ node twin present stored same
    have inside : r < (service.heap.map CoAPResource.uri).length := by simpa [tracks.inv.cache] using cached
    exact (List.getElem?_inj inside nodup).mp (by simp [present, stored, same])

private theorem table_entry (success : ∀ other ∈ posted, other.initOk = true) (distinct : (numbers os posted).Nodup)
    {r : Nat} {origin : Post} (there : (creators posted)[r]? = some origin) :
    service.resources.filter (·.uri = nodeUri os origin.now) = [newResource os origin r] := by
  have all : (creators posted).zipIdx.filter (·.1.initOk) = (creators posted).zipIdx := by
    apply List.filter_eq_self.mpr
    intro entry member
    exact success _ (mem_of_creators (List.fst_mem_of_mem_zipIdx member))
  have fixed : RDService.init.resources.filter (·.uri = nodeUri os origin.now) = [] :=
    List.filter_eq_nil_iff.mpr fun resource member => by simpa using fixed_ne_nodeUri os origin.now resource member
  have member : (origin, r) ∈ (creators posted).zipIdx := List.mem_zipIdx_iff_getElem?.mpr there
  have unrepeated :
      (((creators posted).zipIdx.map fun entry => newResource os entry.1 entry.2).map CoapResourceT.uri).Nodup := by
    have mapped : ((creators posted).zipIdx.map fun entry => newResource os entry.1 entry.2).map CoapResourceT.uri =
        (numbers os posted).map pathOf := by
      rw [numbers, ← List.zipIdx_map_fst 0 (creators posted), List.map_map, List.map_map, List.map_map,
        List.zipIdx_map_fst]
      rfl
    rw [mapped]
    exact distinct.map pathOf_injective
  rw [tracks.table, all, List.filter_append, fixed, List.nil_append]
  have made : newResource os origin r ∈ (creators posted).zipIdx.map fun entry => newResource os entry.1 entry.2 :=
    List.mem_map.mpr ⟨_, member, rfl⟩
  exact filter_unique CoapResourceT.uri unrepeated made

end

theorem created_of_code {os : Platform} {service : RDService} {posted : Post} {response next}
    (answered : Answered os service posted response next) (code : response.code = coapResponseCode 201) :
    registers posted = true ∧ locate service (asked posted) = none ∧
      response = responseOk (newNode os service posted) {} ∧ next = grown os service posted := by
  cases answered with
  | rejected => exact absurd code (by simp [badRequest]; decide)
  | updated => exact absurd code (by simp [changedRequest]; decide)
  | created named absent => exact ⟨named, absent, rfl, rfl⟩

private theorem announced_of_distinct {os : Platform} {history : List (Post × CoapPdu)} {service : RDService}
    (run : Histories.Run (post os) RDService.init history service)
    (success : ∀ posted ∈ history.map Prod.fst, posted.initOk = true)
    (distinct : (numbers os (history.map Prod.fst)).Nodup) : Announced os history service := by
  intro earlier posted response later split code
  subst split
  have regroup : earlier ++ (posted, response) :: later = (earlier ++ [(posted, response)]) ++ later := by simp
  obtain ⟨after, both, _⟩ := Histories.Run.cut (regroup ▸ run)
  obtain ⟨before, first, answered⟩ := both.last
  have tracks := tracks_of_run first
  obtain ⟨named, absent, rfl, rfl⟩ := created_of_code (answered_of_post tracks.inv answered) code
  have there : (creators ((earlier ++ (posted, responseOk (newNode os before posted) {}) :: later).map
      Prod.fst))[before.heap.length]? = some posted := by
    obtain ⟨more, whole⟩ := creators_prefix (earlier.map Prod.fst ++ [posted]) (later.map Prod.fst)
    rw [creators_fresh named (tracks.locate_none.mp absent)] at whole
    simp only [List.map_append, List.map_cons, ← List.append_cons] at whole ⊢
    rw [← whole]
    simp [tracks.length]
  refine ⟨before.heap.length, before, _, newResource os posted before.heap.length, first, answered, rfl, ?_, ?_, rfl⟩
  · simp [grown]
  · rw [location_responseOk]
    exact table_entry (tracks_of_run run) success distinct there

/-- The paths are pairwise different and every Location leads to its own node
exactly when the generator gave pairwise different first numbers at the
seconds the nodes were made. -/
theorem locations_distinct_iff {os : Platform} {history : List (Post × CoapPdu)} {service : RDService}
    (run : Histories.Run (post os) RDService.init history service)
    (success : ∀ posted ∈ history.map Prod.fst, posted.initOk = true) :
    DistinctPaths service ∧ Announced os history service ↔ (numbers os (history.map Prod.fst)).Nodup := by
  rw [distinctPaths_iff (tracks_of_run run)]
  exact and_iff_left_of_imp (announced_of_distinct run success)

theorem locations_two_seconds : ∃ history service, Histories.Run (post .reference) RDService.init history service ∧
    history.map Prod.fst = [registration "ep=n1" "" 1000, registration "ep=n2" "" 1001] ∧
    (DistinctPaths service ∧ Announced .reference history service ↔
      (numbers .reference (history.map Prod.fst)).Nodup) := by
  obtain ⟨history, service, run, same⟩ :=
    run_exists .reference [registration "ep=n1" "" 1000, registration "ep=n2" "" 1001]
  exact ⟨history, service, run, same, locations_distinct_iff run (by rw [same]; decide)⟩

/-- Two endpoints that register within one second share one path, and two
resources are added under it. -/
theorem same_second_same_path : ∃ history service, Histories.Run (post .reference) RDService.init history service ∧
    history.map Prod.fst = [registration "ep=n1" "" 1000, registration "ep=n2" "" 1000] ∧ service.epCache = [0, 1] ∧
    service.heap.map CoAPResource.uri = [nodeUri .reference 1000, nodeUri .reference 1000] ∧
    (service.resources.filter (·.uri = nodeUri .reference 1000)).length = 2 ∧ ¬ DistinctPaths service := by
  obtain ⟨history, service, run, same⟩ :=
    run_exists .reference [registration "ep=n1" "" 1000, registration "ep=n2" "" 1000]
  have tracks := same ▸ tracks_of_run run
  have length : service.heap.length = 2 := tracks.length.trans (by decide)
  refine ⟨history, service, run, same, by simp [tracks.inv.cache, length, List.range, List.range.loop],
    (paths tracks).trans (by decide), ?_, ?_⟩
  · rw [tracks.table]
    decide
  · rw [distinctPaths_iff tracks]
    decide

end IoTGateway.Proofs.Locations
