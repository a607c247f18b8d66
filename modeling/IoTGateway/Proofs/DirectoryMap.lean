import IoTGateway.Proofs.DirectoryTrace

/-! The directory as a finite map from endpoints to nodes. What is stored is
what was searched for as long as no name holds a zero byte; the payload of a
node is the one it was created with. -/

namespace IoTGateway.Proofs.DirectoryMap
open DirectoryStep DirectoryTrace

def HasNames (service : RDService) (r : Nat) (key : Key) : Prop :=
  ∃ node, service.heap[r]? = some node ∧ node.attr[ascii "d"]? = some key.1 ∧ node.attr[ascii "ep"]? = some key.2

theorem hasNames_iff {service : RDService} (inv : Inv service) {r : Nat} {key : Key} :
    HasNames service r key ↔ (service.heap.map nodeKey)[r]? = some key := by
  simp only [List.getElem?_map, Option.map_eq_some_iff]
  constructor
  · intro names
    obtain ⟨node, present, domain, ep⟩ := names
    exact ⟨node, present, by simp [nodeKey, domain, ep]⟩
  · intro stored
    obtain ⟨node, present, rfl⟩ := stored
    have named := inv.named node (List.mem_of_getElem? present)
    exact ⟨node, present, named.domain, named.ep⟩

private theorem hasNames_cached {service : RDService} (inv : Inv service) {r : Nat} {key : Key}
    (names : HasNames service r key) : r ∈ service.epCache := by
  obtain ⟨node, present, _⟩ := names
  exact inv.mem_cache.mpr (List.getElem?_eq_some_iff.mp present).1

theorem hasNames_of_locate {service : RDService} (inv : Inv service) {r : Nat} {key : Key}
    (found : locate service key = some r) : HasNames service r key := by
  obtain ⟨⟨node, present, same⟩, _⟩ := inv.locate_some.mp found
  exact (hasNames_iff inv).mpr (by simp [present, same])

/-- The cache holds one node for each key and no other, the search finds it, a
POST for a key that is there changes that node alone and adds none, and a POST
for any other key leaves it as it is. -/
structure IsMap (os : Platform) (keys : List Key) (service : RDService) : Prop where
  nodup : service.epCache.Nodup
  one : ∀ key ∈ keys, ∃! r, r ∈ service.epCache ∧ HasNames service r key
  found : ∀ key ∈ keys, ∃ r, findResourceFromCacheByEp service key.1 key.2 = .ok (some r) ∧ HasNames service r key
  only : ∀ r ∈ service.epCache, ∃ key ∈ keys, HasNames service r key
  again : ∀ posted, registers posted = true → asked posted ∈ keys →
    ∃ next, post os service posted = .ok (changedRequest {}, next) ∧ next.epCache = service.epCache
  others : ∀ posted, ∃ response next, post os service posted = .ok (response, next) ∧
    ∀ r key, HasNames service r key → key ≠ asked posted → next.heap[r]? = service.heap[r]?

theorem answered_others {os : Platform} {service : RDService} {posted : Post} {response next} (inv : Inv service)
    (answered : Answered os service posted response next) {r : Nat} {key : Key} (names : HasNames service r key)
    (different : key ≠ asked posted) : next.heap[r]? = service.heap[r]? := by
  cases answered with
  | rejected => rfl
  | @updated other found named search there =>
    have itsNames := (hasNames_iff inv).mp (hasNames_of_locate inv search)
    have apart : other ≠ r := by
      intro same
      subst same
      apply different
      exact Option.some.inj (((hasNames_iff inv).mp names).symm.trans itsNames)
    simp [RDService.store, apart]
  | created =>
    obtain ⟨node, present, _⟩ := names
    simp only [grown]
    rw [List.getElem?_append_left (List.getElem?_eq_some_iff.mp present).1]

def keys (posted : List Post) : List Key := (registrations posted).map asked

section
variable {os : Platform} {posted : List Post} {service : RDService} (tracks : Tracks os posted service)
include tracks

private theorem mem_stored {key : Key} :
    key ∈ Registers.stored asked truncated (registrations posted) ↔ ∃ r, HasNames service r key := by
  rw [← tracks.keys, List.mem_iff_getElem?]
  simp only [hasNames_iff tracks.inv]

private theorem hasNames_unique (clean : ∀ other ∈ registrations posted, ZeroFree other) {r other : Nat} {key : Key}
    (first : HasNames service r key) (second : HasNames service other key) : r = other := by
  have distinct := Registers.stored_nodup asked truncated fun registered member =>
    truncated_eq_self.mpr (clean registered member)
  rw [← tracks.keys] at distinct
  rw [hasNames_iff tracks.inv] at first second
  exact (List.getElem?_inj (List.getElem?_eq_some_iff.mp first).1 distinct).mp (first.trans second.symm)

/-- The directory is a map exactly when every name came through `c_str()` whole. -/
theorem isMap_iff : IsMap os (keys posted) service ↔ ∀ other ∈ registrations posted, ZeroFree other := by
  have covered := Registers.covered_iff_normal asked truncated_idempotent (registrations posted)
  constructor
  · intro isMap other member
    have all := covered.mp fun registered among => by
      obtain ⟨r, _, names⟩ := isMap.found (asked registered) (List.mem_map_of_mem among)
      exact (mem_stored tracks).mpr ⟨r, names⟩
    exact truncated_eq_self.mp (all other member)
  · intro clean
    have normal : ∀ other ∈ registrations posted, truncated (asked other) = asked other := fun other member =>
      truncated_eq_self.mpr (clean other member)
    have search {key : Key} (member : key ∈ keys posted) : ∃ r, locate service key = some r := by
      obtain ⟨other, among, rfl⟩ := List.mem_map.mp member
      exact tracks.locate_some (covered.mpr normal other among)
    refine ⟨tracks.inv.cache ▸ List.nodup_range, ?_, ?_, ?_, ?_, ?_⟩
    · intro key member
      obtain ⟨r, found⟩ := search member
      have names := hasNames_of_locate tracks.inv found
      exact ⟨r, ⟨hasNames_cached tracks.inv names, names⟩, fun other held => hasNames_unique tracks clean held.2 names⟩
    · intro key member
      obtain ⟨r, found⟩ := search member
      exact ⟨r, found ▸ tracks.inv.findResource key, hasNames_of_locate tracks.inv found⟩
    · intro r cached
      have inside : r < service.heap.length := tracks.inv.mem_cache.mp cached
      have names : HasNames service r (nodeKey service.heap[r]) := (hasNames_iff tracks.inv).mpr (by simp [inside])
      obtain ⟨other, among, same⟩ := Registers.stored_origin asked truncated ((mem_stored tracks).mpr ⟨r, names⟩)
      exact ⟨asked other, List.mem_map_of_mem among, (normal other among).symm.trans same ▸ names⟩
    · intro repeated named member
      obtain ⟨response, next, answered, how⟩ := post_answered os tracks.inv repeated
      obtain ⟨r, found⟩ := search member
      cases how with
      | rejected nameless => simp [named] at nameless
      | updated => exact ⟨_, answered, rfl⟩
      | created _ absent => simp [found] at absent
    · intro next
      obtain ⟨response, state, answered, how⟩ := post_answered os tracks.inv next
      exact ⟨response, state, answered, fun r key names different => answered_others tracks.inv how names different⟩

end

/-- After any POSTs to `rd`, the directory is the finite map of the endpoints
they named if and only if none of these names holds a zero byte. -/
theorem directory_is_map_iff {os : Platform} {history : List (Post × CoapPdu)} {service : RDService}
    (run : Histories.Run (post os) RDService.init history service) :
    IsMap os (keys (history.map Prod.fst)) service ↔ ∀ posted ∈ registrations (history.map Prod.fst), ZeroFree posted :=
  isMap_iff (tracks_of_run run)

theorem directory_is_map_repeated : ∃ history service, Histories.Run (post .reference) RDService.init history service ∧
    history.map Prod.fst = [registration "ep=n1" "</t>" 1000, registration "ep=n1" "</t>" 1001] ∧
    (IsMap .reference (keys (history.map Prod.fst)) service ↔
      ∀ posted ∈ registrations (history.map Prod.fst), ZeroFree posted) := by
  obtain ⟨history, service, run, same⟩ :=
    run_exists .reference [registration "ep=n1" "</t>" 1000, registration "ep=n1" "</t>" 1001]
  exact ⟨history, service, run, same, directory_is_map_iff run⟩

def zeroByte : Post :=
  { request := { options := [(coapOptionUriQuery, ascii "ep=a" ++ 0 :: ascii "b")] }, peer := .ip (.inet 0x7f000001) 5683,
    now := 1000 }

/-- The second registration of `a\0b` is not recognised and adds a second node,
and neither is ever found. -/
theorem zero_byte_registered_twice : ∃ history service,
    Histories.Run (post .reference) RDService.init history service ∧ history.map Prod.fst = [zeroByte, zeroByte] ∧
    asked zeroByte = (ascii "hisilicion", ascii "a" ++ 0 :: ascii "b") ∧ service.epCache = [0, 1] ∧
    HasNames service 0 (ascii "hisilicion", ascii "a") ∧ HasNames service 1 (ascii "hisilicion", ascii "a") ∧
    findResourceFromCacheByEp service (asked zeroByte).1 (asked zeroByte).2 = .ok none ∧
    ¬ IsMap .reference (keys (history.map Prod.fst)) service := by
  obtain ⟨history, service, run, same⟩ := run_exists .reference [zeroByte, zeroByte]
  have tracks := same ▸ tracks_of_run run
  have stored : service.heap.map nodeKey = [(ascii "hisilicion", ascii "a"), (ascii "hisilicion", ascii "a")] :=
    tracks.keys.trans (by decide)
  have length : service.heap.length = 2 := by simpa using congrArg List.length stored
  refine ⟨history, service, run, same, by decide, by simp [tracks.inv.cache, length, List.range, List.range.loop],
    (hasNames_iff tracks.inv).mpr (by simp [stored]), (hasNames_iff tracks.inv).mpr (by simp [stored]), ?_, ?_⟩
  · rw [tracks.inv.findResource, tracks.locate_none.mpr (by decide)]
  · rw [same, isMap_iff tracks]
    intro clean
    have registered : zeroByte ∈ registrations [zeroByte, zeroByte] :=
      List.mem_filter.mpr ⟨List.mem_cons_self, by decide⟩
    exact (clean zeroByte registered).2 (by decide)

end IoTGateway.Proofs.DirectoryMap
