import IoTGateway.Lib.Register
import IoTGateway.Proofs.DirectoryStep

/-! Every node is traced to the POST that made it. Which POSTs make nodes is
known from the requests alone: those whose pair, as extracted, is not among the
truncated pairs stored before. -/

namespace IoTGateway.Proofs.DirectoryTrace
open DirectoryStep Attributes

def registrations (posted : List Post) : List Post := posted.filter registers

def creators (posted : List Post) : List Post := Registers.made asked truncated (registrations posted)

private theorem registrations_append {posted : Post} (named : registers posted = true) (earlier : List Post) :
    registrations (earlier ++ [posted]) = registrations earlier ++ [posted] := by
  simp [registrations, named]

private theorem registrations_rejected {posted : Post} (nameless : registers posted = false) (earlier : List Post) :
    registrations (earlier ++ [posted]) = registrations earlier := by
  simp [registrations, nameless]

theorem creators_known {posted : Post} {earlier : List Post} (named : registers posted = true)
    (stored : asked posted ∈ Registers.stored asked truncated (registrations earlier)) :
    creators (earlier ++ [posted]) = creators earlier := by
  rw [creators, registrations_append named, Registers.made_append, if_pos stored, creators]

theorem creators_fresh {posted : Post} {earlier : List Post} (named : registers posted = true)
    (fresh : asked posted ∉ Registers.stored asked truncated (registrations earlier)) :
    creators (earlier ++ [posted]) = creators earlier ++ [posted] := by
  rw [creators, registrations_append named, Registers.made_append, if_neg fresh, creators]

theorem creators_rejected {posted : Post} (nameless : registers posted = false) (earlier : List Post) :
    creators (earlier ++ [posted]) = creators earlier := by
  rw [creators, registrations_rejected nameless, creators]

theorem mem_of_creators {posted : List Post} {origin : Post} (member : origin ∈ creators posted) : origin ∈ posted := by
  have registered := (Registers.made_sublist asked truncated (registrations posted)).subset member
  exact (List.mem_filter.mp registered).1

theorem creators_prefix (earlier later : List Post) : creators earlier <+: creators (earlier ++ later) := by
  rw [creators, creators, registrations, registrations, List.filter_append]
  exact Registers.made_prefix asked truncated _ _

private theorem cStr_eq_self {text : Bytes} : cStr text = text ↔ 0 ∉ text := by
  rw [cStr, List.takeWhile_eq_self_iff]
  constructor
  · intro clean member
    simpa using clean 0 member
  · intro clean byte member
    have different : byte ≠ 0 := fun same => clean (same ▸ member)
    simpa using different

private theorem zero_not_mem_cStr (text : Bytes) : 0 ∉ cStr text := fun member => by
  simpa using List.mem_takeWhile_imp member

theorem truncated_eq_self {key : Key} : truncated key = key ↔ 0 ∉ key.1 ∧ 0 ∉ key.2 := by
  simp [truncated, Prod.ext_iff, cStr_eq_self]

theorem truncated_idempotent (key : Key) : truncated (truncated key) = truncated key :=
  truncated_eq_self.mpr ⟨zero_not_mem_cStr _, zero_not_mem_cStr _⟩

def ZeroFree (posted : Post) : Prop := 0 ∉ (asked posted).1 ∧ 0 ∉ (asked posted).2

/-- The node at an address is the work of one POST, and keeps the names, the
payload, the path and the resource that this POST gave it. -/
structure MadeBy (os : Platform) (resources : List CoapResourceT) (address : Nat) (node : CoAPResource) (origin : Post) :
    Prop where
  key : nodeKey node = truncated (asked origin)
  payload : node.payload = getPayload origin.request
  uri : node.uri = nodeUri os origin.now
  linked : origin.initOk = true → ∃ index, node.coapResource = some index ∧
    resources[index]? = some (newResource os origin address)
  unlinked : origin.initOk = false → node.coapResource = none

structure Tracks (os : Platform) (posted : List Post) (service : RDService) : Prop where
  inv : Inv service
  length : service.heap.length = (creators posted).length
  nodes : ∀ (r : Nat) (node : CoAPResource), service.heap[r]? = some node →
    ∃ origin, (creators posted)[r]? = some origin ∧ MadeBy os service.resources r node origin
  table : service.resources = RDService.init.resources ++
    ((creators posted).zipIdx.filter (·.1.initOk)).map fun origin => newResource os origin.1 origin.2

theorem MadeBy.grow {os : Platform} {resources : List CoapResourceT} {r : Nat} {node : CoAPResource} {origin : Post}
    (made : MadeBy os resources r node origin) (added : List CoapResourceT) :
    MadeBy os (resources ++ added) r node origin := by
  refine { made with linked := ?_ }
  intro success
  obtain ⟨index, held, present⟩ := made.linked success
  exact ⟨index, held, by rw [List.getElem?_append_left (List.getElem?_eq_some_iff.mp present).1, present]⟩

theorem MadeBy.renewed {os : Platform} {resources : List CoapResourceT} {r : Nat} {node : CoAPResource} {origin : Post}
    (made : MadeBy os resources r node origin) (posted : Post) :
    MadeBy os resources r (renewed os posted node) origin :=
  ⟨(nodeKey_renewed os posted node).trans made.key, made.payload, made.uri, made.linked, made.unlinked⟩

private theorem madeBy_newNode (os : Platform) (service : RDService) (posted : Post) :
    MadeBy os (grown os service posted).resources service.heap.length (newNode os service posted) posted := by
  refine ⟨nodeKey_newNode os service posted, rfl, rfl, ?_, fun failure => by simp [newNode, failure]⟩
  intro success
  exact ⟨service.resources.length, by simp [newNode, success], by simp [grown, success]⟩

theorem Tracks.initial (os : Platform) : Tracks os [] RDService.init where
  inv := Inv.initial
  length := rfl
  nodes := by simp [RDService.init, createFixed, createResource]
  table := by simp [creators, registrations]

section
variable {os : Platform} {earlier : List Post} {service : RDService} (tracks : Tracks os earlier service)
include tracks

/-- What each node has from its maker, the whole heap has from the makers. -/
theorem Tracks.heap_map {β : Type} {ofNode : CoAPResource → β} {ofMaker : Post → β}
    (same : ∀ {r node origin}, MadeBy os service.resources r node origin → ofNode node = ofMaker origin) :
    service.heap.map ofNode = (creators earlier).map ofMaker := by
  apply List.ext_getElem?
  intro r
  simp only [List.getElem?_map]
  cases present : service.heap[r]? with
  | some node =>
    obtain ⟨origin, there, made⟩ := tracks.nodes r node present
    simp [there, same made]
  | none =>
    have beyond := List.getElem?_eq_none_iff.mp present
    simp [List.getElem?_eq_none_iff.mpr (tracks.length ▸ beyond)]

theorem Tracks.keys : service.heap.map nodeKey = Registers.stored asked truncated (registrations earlier) :=
  tracks.heap_map MadeBy.key

theorem Tracks.locate_none {key : Key} :
    locate service key = none ↔ key ∉ Registers.stored asked truncated (registrations earlier) := by
  rw [tracks.inv.locate_none, ← tracks.keys]
  simp

theorem Tracks.locate_some {key : Key} (stored : key ∈ Registers.stored asked truncated (registrations earlier)) :
    ∃ r, locate service key = some r :=
  Option.ne_none_iff_exists'.mp fun absent => tracks.locate_none.mp absent stored

theorem Tracks.stored {key : Key} {r : Nat} (found : locate service key = some r) :
    key ∈ Registers.stored asked truncated (registrations earlier) := by
  by_contra absent
  simp [tracks.locate_none.mpr absent] at found

/-- Where the search for a key ends: at the node of the first registration with
that truncated key. -/
theorem Tracks.located {key : Key} {r : Nat} (found : locate service key = some r) :
    ∃ node origin, service.heap[r]? = some node ∧ nodeKey node = key ∧ (creators earlier)[r]? = some origin ∧
      (registrations earlier).find? (fun posted => truncated (asked posted) = key) = some origin ∧
      MadeBy os service.resources r node origin := by
  obtain ⟨⟨node, present, same⟩, first⟩ := tracks.inv.locate_some.mp found
  obtain ⟨origin, there, made⟩ := tracks.nodes r node present
  refine ⟨node, origin, present, same, there, ?_, made⟩
  rw [← Registers.find_made asked truncated_idempotent, List.find?_eq_some_iff_getElem]
  have inside := (List.getElem?_eq_some_iff.mp there).1
  refine ⟨by simp [← made.key, same], r, inside, (List.getElem?_eq_some_iff.mp there).2, ?_⟩
  intro index before
  have left : index < service.heap.length := by
    rw [tracks.length]
    exact before.trans inside
  obtain ⟨maker, here, madeFirst⟩ := tracks.nodes index _ (List.getElem?_eq_getElem left)
  have different := first index before _ (List.getElem?_eq_getElem left)
  rw [madeFirst.key] at different
  obtain ⟨_, rfl⟩ := List.getElem?_eq_some_iff.mp here
  simpa [creators] using different

theorem Tracks.step {posted : Post} {response next} (answered : Answered os service posted response next) :
    Tracks os (earlier ++ [posted]) next := by
  have inv := answered.inv tracks.inv
  cases answered with
  | rejected nameless =>
    have same := creators_rejected nameless earlier
    exact ⟨inv, same ▸ tracks.length, same ▸ tracks.nodes, same ▸ tracks.table⟩
  | @updated r node named found present =>
    have same : creators (earlier ++ [posted]) = creators earlier := creators_known named (tracks.stored found)
    refine ⟨inv, by rw [same]; simpa [RDService.store] using tracks.length, ?_, same ▸ tracks.table⟩
    intro other old there
    rw [same]
    by_cases here : r = other
    · subst here
      obtain rfl : renewed os posted node = old := by
        simpa [RDService.store, (List.getElem?_eq_some_iff.mp present).1] using there
      obtain ⟨origin, place, made⟩ := tracks.nodes r node present
      exact ⟨origin, place, made.renewed posted⟩
    · exact tracks.nodes other old (by simpa [RDService.store, here] using there)
  | created named absent =>
    have fresh := tracks.locate_none.mp absent
    have more : creators (earlier ++ [posted]) = creators earlier ++ [posted] := creators_fresh named fresh
    have tableGrows : ∃ added, (grown os service posted).resources = service.resources ++ added := by
      simp only [grown]
      split
      · exact ⟨_, rfl⟩
      · exact ⟨[], by simp⟩
    refine ⟨inv, by simp [more, grown, tracks.length], ?_, ?_⟩
    · intro r node present
      rw [more]
      obtain ⟨added, table⟩ := tableGrows
      rcases grown_heap present with old | ⟨rfl, rfl⟩
      · obtain ⟨origin, place, made⟩ := tracks.nodes r node old
        have inside := (List.getElem?_eq_some_iff.mp place).1
        exact ⟨origin, by rw [List.getElem?_append_left inside, place], table ▸ made.grow added⟩
      · exact ⟨posted, by simp [tracks.length], madeBy_newNode os service posted⟩
    · rw [more, List.zipIdx_append, List.filter_append, List.map_append, ← List.append_assoc, ← tracks.table]
      cases success : posted.initOk <;> simp [grown, success, tracks.length]

end

theorem tracks_of_run {os : Platform} {history : List (Post × CoapPdu)} {service : RDService}
    (run : Histories.Run (post os) RDService.init history service) : Tracks os (history.map Prod.fst) service := by
  induction run with
  | start => exact .initial os
  | step run answered ih =>
    rw [List.map_append]
    exact ih.step (answered_of_post ih.inv answered)

theorem run_exists (os : Platform) (posted : List Post) : ∃ history service,
    Histories.Run (post os) RDService.init history service ∧ history.map Prod.fst = posted :=
  Histories.Run.exists (post_preserves os) Inv.initial posted

def registration (query links : String) (now : Nat) : Post where
  request := { options := [(coapOptionUriQuery, ascii query)], data := some (ascii links) }
  peer := .ip (.inet 0x7f000001) 5683
  now := now

end IoTGateway.Proofs.DirectoryTrace
