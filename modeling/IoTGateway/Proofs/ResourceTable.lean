import IoTGateway.ResourceTable
import IoTGateway.Proofs.DirectoryStability
import IoTGateway.Proofs.HashRun
import IoTGateway.Proofs.Locations

/-! The directory over the hash table answers every request as the directory over
a list does. Where several resources have one path it matters for neither which of
them is found: only the resource `rd` has a handler of its own. -/

namespace IoTGateway.Proofs.ResourceTable
open DirectoryStep DirectoryStability UTHash

/-- Only `rd` has the context of the RD resource. -/
def OneHandler (service : RDService) : Prop :=
  ∀ resource ∈ service.resources, resource.appContex = .rd ↔ resource.uri = rdUri

theorem oneHandler_initial : OneHandler RDService.init := by
  unfold OneHandler
  decide

theorem answered_resources {os : Platform} {service next : RDService} {posted : Post} {response : CoapPdu}
    (answered : Answered os service posted response next) : next.resources = service.resources ∨
      next.resources = service.resources ++ [newResource os posted service.heap.length] := by
  cases answered with
  | rejected => exact Or.inl rfl
  | updated => exact Or.inl rfl
  | created =>
    rw [grown]
    split
    · exact Or.inr rfl
    · exact Or.inl rfl

theorem step_resources {os : Platform} {service next : RDService} {request : Request} {response : CoapPdu}
    (inv : Inv service) (answered : handleRequest os service request = .ok (response, next)) :
    next.resources = service.resources ∨
      next.resources = service.resources ++ [newResource os request.toPost service.heap.length] := by
  rcases handleRequest_cases os service request with same | ⟨reply, same, _⟩
  · exact answered_resources (answered_of_post inv (same ▸ answered))
  · cases same.symm.trans answered
    exact Or.inl rfl

theorem step_later {os : Platform} {service next : RDService} {request : Request} {response : CoapPdu}
    (inv : Inv service) (answered : handleRequest os service request = .ok (response, next)) :
    ∃ added, next.resources = service.resources ++ added := by
  rcases step_resources inv answered with same | grown
  · exact ⟨[], by rw [same, List.append_nil]⟩
  · exact ⟨_, grown⟩

/-- What holds of the resources of `Init` and of every node's own stays so. -/
theorem step_all {os : Platform} {service next : RDService} {request : Request} {response : CoapPdu}
    {property : CoapResourceT → Prop} (made : ∀ posted address, property (newResource os posted address))
    (inv : Inv service) (all : ∀ resource ∈ service.resources, property resource)
    (answered : handleRequest os service request = .ok (response, next)) :
    ∀ resource ∈ next.resources, property resource := by
  rcases step_resources inv answered with same | grown
  · rw [same]
    exact all
  · intro resource member
    rw [grown] at member
    rcases List.mem_append.mp member with old | new
    · exact all resource old
    · rw [List.mem_singleton.mp new]
      exact made _ _

theorem oneHandler_step {os : Platform} {service next : RDService} {request : Request} {response : CoapPdu}
    (inv : Inv service) (one : OneHandler service)
    (answered : handleRequest os service request = .ok (response, next)) : OneHandler next := by
  refine step_all ?_ inv one answered
  intro posted address
  simp [newResource, Attributes.nodeUri]

/-- Discovery is libcoap's own: no resource has its path. -/
def CoreFree (service : RDService) : Prop := ∀ resource ∈ service.resources, resource.uri ≠ wellKnownCore

private theorem coreFree_initial : CoreFree RDService.init := by
  unfold CoreFree
  decide

theorem coreFree_step {os : Platform} {service next : RDService} {request : Request} {response : CoapPdu}
    (inv : Inv service) (free : CoreFree service)
    (answered : handleRequest os service request = .ok (response, next)) : CoreFree next := by
  refine step_all ?_ inv free answered
  intro posted address same
  have start : wellKnownCore.take 3 ≠ [114, 100, 47] := by decide
  apply start
  rw [← same]
  rfl

theorem methodHandler_grown {os : Platform} {service next : RDService} {appContex : ObjectRef} {request : Request}
    {response : CoapPdu} (inv : Inv service)
    (answered : methodHandler os service appContex request = .ok (response, next)) :
    Inv next ∧ ∃ added, next.resources = service.resources ++ added := by
  unfold methodHandler at answered
  split at answered
  next =>
    have posted := answered_of_post inv answered
    refine ⟨posted.inv inv, ?_⟩
    rcases answered_resources posted with same | grown
    · exact ⟨[], by rw [same, List.append_nil]⟩
    · exact ⟨_, grown⟩
  next =>
    cases answered
    exact ⟨inv, [], (List.append_nil _).symm⟩

theorem methodHandler_same {os : Platform} {service : RDService} (one : OneHandler service)
    {first second : CoapResourceT}
    (left : first ∈ service.resources) (right : second ∈ service.resources) (same : first.uri = second.uri)
    (request : Request) : methodHandler os service first.appContex request =
      methodHandler os service second.appContex request := by
  have alike : first.appContex = .rd ↔ second.appContex = .rd := by
    rw [one first left, one second right, same]
  by_cases rd : first.appContex = .rd
  · rw [rd, alike.mp rd]
  · have other : second.appContex ≠ .rd := fun also => rd (alike.mpr also)
    simp only [methodHandler]
    split
    next same _ => exact absurd same rd
    next =>
      split
      next same _ => exact absurd same other
      next => rfl

section
variable {κ : Type} {hashFcn : κ → UInt32} {hashPath : Bytes → κ}

/-- What the table holds: the place of every resource under the key of its path. -/
def entries (hashPath : Bytes → κ) (resources : List (CoapResourceT × Nat)) : List (Nat × κ) :=
  resources.map fun resource => (resource.2, hashPath resource.1.uri)

def Indexed [DecidableEq κ] (hashFcn : κ → UInt32) (hashPath : Bytes → κ) (indexed : IndexedService κ) : Prop :=
  ∃ catalogue, Represents hashFcn indexed.resources catalogue ∧
    catalogue.items = entries hashPath indexed.service.resources.zipIdx

theorem mem_entries {resources : List CoapResourceT} {place : Nat} {key : κ} :
    (place, key) ∈ entries hashPath resources.zipIdx ↔
      ∃ resource, resources[place]? = some resource ∧ hashPath resource.uri = key := by
  simp only [entries, List.mem_map, Prod.mk.injEq, Prod.exists, List.mem_zipIdx_iff_getElem?]
  constructor
  · rintro ⟨resource, _, found, rfl, same⟩
    exact ⟨resource, found, same⟩
  · rintro ⟨resource, found, same⟩
    exact ⟨resource, place, found, rfl, same⟩

private theorem elts_zipIdx {catalogue : Catalogue κ} {resources : List CoapResourceT}
    (items : catalogue.items = entries hashPath resources.zipIdx) : catalogue.elts = List.range resources.length := by
  rw [Catalogue.elts, items, entries, List.map_map, List.range_eq_range', ← List.zipIdx_map_snd]
  rfl

/-- A path that is asked for has the key of no other. -/
def Clear (hashPath : Bytes → κ) (resources : List CoapResourceT) (request : Request) : Prop :=
  ∀ path ∈ wellKnownCore :: resources.map CoapResourceT.uri, hashPath path = hashPath request.path → path = request.path

theorem Clear.earlier {before after added : List CoapResourceT} {request : Request}
    (clear : Clear hashPath after request) (grown : after = before ++ added) : Clear hashPath before request := by
  intro path known
  apply clear path
  rw [grown, List.map_append, ← List.cons_append]
  exact List.mem_append_left _ known

def asksForCore (request : Request) : Bool := request.method = .get ∧ request.path = wellKnownCore

variable [DecidableEq κ]

theorem coapAddResources_ok {table : UTHash κ} {catalogue : Catalogue κ}
    (represents : Represents hashFcn table catalogue)
    {added : List (CoapResourceT × Nat)} (fresh : (catalogue.elts ++ added.map Prod.snd).Nodup) :
    ∃ next after, coapAddResources hashFcn hashPath table added = .ok next ∧ Represents hashFcn next after ∧
      after.items = catalogue.items ++ entries hashPath added := by
  induction added generalizing table catalogue with
  | nil => exact ⟨table, catalogue, rfl, represents, by simp [entries]⟩
  | cons resource rest ih =>
    have parts := List.nodup_append.mp fresh
    obtain ⟨next, after, stored, represents, items, _⟩ := represents.add (hashPath resource.1.uri)
      (fun member => parts.2.2 resource.2 member resource.2 (by simp) rfl)
    have elts : after.elts = catalogue.elts ++ [resource.2] := by simp [Catalogue.elts, items]
    obtain ⟨last, final, finished, represents, whole⟩ := ih represents (by simpa [elts] using fresh)
    refine ⟨last, final, ?_, represents, by simp [whole, items, entries]⟩
    rw [coapAddResources, List.foldlM_cons, stored]
    exact finished

theorem indexed_initial (handles : Nat → UTHashHandle κ) : ∃ start,
    IndexedService.init hashFcn hashPath handles = .ok start ∧ start.service = RDService.init ∧
      Indexed hashFcn hashPath start := by
  have fresh : ((Catalogue.empty : Catalogue κ).elts ++ RDService.init.resources.zipIdx.map Prod.snd).Nodup := by
    rw [List.zipIdx_map_snd]
    exact List.nodup_range'
  obtain ⟨next, after, added, represents, items⟩ :=
    @coapAddResources_ok _ hashFcn hashPath _ _ _ (.empty handles) _ fresh
  refine ⟨{ service := RDService.init, resources := next }, ?_, rfl, after, represents, items⟩
  rw [IndexedService.init, added]
  rfl

/-- The table finds a resource with the key, if there is one. -/
theorem find_cases {indexed : IndexedService κ} (holds : Indexed hashFcn hashPath indexed) (key : κ) :
    (indexed.resources.hashFind hashFcn key = .ok none ∧
      ∀ resource ∈ indexed.service.resources, hashPath resource.uri ≠ key) ∨
    ∃ place resource, indexed.resources.hashFind hashFcn key = .ok (some place) ∧
      indexed.service.resources[place]? = some resource ∧ hashPath resource.uri = key := by
  obtain ⟨catalogue, represents, items⟩ := holds
  have found := represents.find key
  have known (place : Nat) : place ∈ catalogue.stack key ↔ ∃ resource,
      indexed.service.resources[place]? = some resource ∧ hashPath resource.uri = key := by
    rw [catalogue.mem_stack, items, mem_entries]
  cases top : (catalogue.stack key).head? with
  | none =>
    rw [top] at found
    rw [List.head?_eq_none_iff] at top
    refine .inl ⟨found, ?_⟩
    intro resource member keyed
    obtain ⟨place, present⟩ := List.mem_iff_getElem?.mp member
    exact List.not_mem_nil (top ▸ (known place).mpr ⟨resource, present, keyed⟩)
  | some place =>
    obtain ⟨resource, present, keyed⟩ := (known place).mp (List.mem_of_head? top)
    exact .inr ⟨place, resource, found.trans (by rw [top]), present, keyed⟩

/-- What the table finds is handled as what the list finds. -/
theorem found_alike {os : Platform} {indexed : IndexedService κ} (holds : Indexed hashFcn hashPath indexed)
    (one : OneHandler indexed.service) {request : Request}
    (clear : ∀ resource ∈ indexed.service.resources,
      hashPath resource.uri = hashPath request.path → resource.uri = request.path) :
    indexed.handleRequest hashFcn hashPath os request = (do
      let (response, service) ← handleRequest os indexed.service request
      let resources ← coapAddResources hashFcn hashPath indexed.resources
        (service.resources.zipIdx.drop indexed.service.resources.length)
      return (response, { service, resources })) := by
  rcases find_cases holds (hashPath request.path) with ⟨found, absent⟩ | ⟨place, resource, found, present, keyed⟩
  · have missing : indexed.service.resources.reverse.find? (·.uri == request.path) = none := by
      apply List.find?_eq_none.mpr
      intro resource member same
      exact absent resource (List.mem_reverse.mp member) (by rw [eq_of_beq same])
    simp only [IndexedService.handleRequest, handleRequest, found, missing, ok_bind]
  · have member := List.mem_of_getElem? present
    have path := clear resource member keyed
    cases search : indexed.service.resources.reverse.find? (·.uri == request.path) with
    | none =>
      have missing := List.find?_eq_none.mp search resource (List.mem_reverse.mpr member)
      exact absurd (beq_iff_eq.mpr path) missing
    | some newest =>
      have own := List.mem_reverse.mp (List.mem_of_find?_eq_some search)
      have asked : newest.uri = request.path := by simpa using List.find?_some search
      have alike := @methodHandler_same os _ one _ _ member own (path.trans asked.symm) request
      simp only [IndexedService.handleRequest, handleRequest, found, present, search, alike, ok_bind]

theorem indexed_step {os : Platform} {indexed : IndexedService κ} (holds : Indexed hashFcn hashPath indexed)
    (inv : Inv indexed.service) (one : OneHandler indexed.service) {request : Request} {response : CoapPdu}
    {next : RDService} (clear : ∀ resource ∈ indexed.service.resources,
      hashPath resource.uri = hashPath request.path → resource.uri = request.path)
    (answered : handleRequest os indexed.service request = .ok (response, next)) : ∃ after,
      indexed.handleRequest hashFcn hashPath os request = .ok (response, after) ∧ after.service = next ∧
        Indexed hashFcn hashPath after := by
  rw [found_alike holds one clear, answered]
  obtain ⟨catalogue, represents, items⟩ := holds
  have elts := elts_zipIdx items
  obtain ⟨added, grown⟩ := step_later inv answered
  have dropped : next.resources.zipIdx.drop indexed.service.resources.length =
      added.zipIdx indexed.service.resources.length := by
    rw [grown, List.zipIdx_append, List.drop_left' (by simp)]
    simp
  have fresh : (catalogue.elts ++ (added.zipIdx indexed.service.resources.length).map Prod.snd).Nodup := by
    rw [elts, List.zipIdx_map_snd, List.range_eq_range']
    have whole := @List.range'_append_1 0 indexed.service.resources.length added.length
    rw [Nat.zero_add] at whole
    rw [whole]
    exact List.nodup_range'
  obtain ⟨table, after, stored, represents, whole⟩ :=
    @coapAddResources_ok _ hashFcn hashPath _ _ _ represents _ fresh
  refine ⟨{ service := next, resources := table }, ?_, rfl, after, represents, ?_⟩
  · simp only [ok_bind, dropped, stored, pure_eq_ok]
  · rw [whole, items, grown, List.zipIdx_append, entries, entries, entries, List.map_append, Nat.zero_add]

structure Sound (hashFcn : κ → UInt32) (hashPath : Bytes → κ) (indexed : IndexedService κ) : Prop where
  holds : Indexed hashFcn hashPath indexed
  inv : Inv indexed.service
  one : OneHandler indexed.service
  free : CoreFree indexed.service

theorem sound_initial {handles : Nat → UTHashHandle κ} {start : IndexedService κ}
    (made : IndexedService.init hashFcn hashPath handles = .ok start) :
    Sound hashFcn hashPath start ∧ start.service = RDService.init := by
  obtain ⟨same, again, initial, holds⟩ := @indexed_initial _ hashFcn hashPath _ handles
  cases made.symm.trans again
  exact ⟨⟨holds, initial ▸ .initial, initial ▸ oneHandler_initial, initial ▸ coreFree_initial⟩, initial⟩

variable {wellknownResponse : List CoapResourceT → Request → CoapPdu}

private theorem indexed_grown {os : Platform} {indexed next : IndexedService κ} (inv : Inv indexed.service)
    {request : Request}
    {response : CoapPdu} (answered : indexed.handleRequest hashFcn hashPath os request = .ok (response, next)) :
    Inv next.service ∧ ∃ added, next.service.resources = indexed.service.resources ++ added := by
  obtain ⟨place, _, answered⟩ := bind_ok answered
  cases place with
  | none =>
    simp only [ok_bind] at answered
    obtain ⟨table, _, answered⟩ := bind_ok answered
    cases answered
    exact ⟨inv, [], (List.append_nil _).symm⟩
  | some place =>
    cases found : indexed.service.resources[place]? with
    | none => simp [found] at answered
    | some resource =>
      simp only [found] at answered
      obtain ⟨⟨reply, service⟩, handled, answered⟩ := bind_ok answered
      obtain ⟨table, _, answered⟩ := bind_ok answered
      cases answered
      exact methodHandler_grown inv handled

/-- Collisions or not, a request only adds to the resources. -/
theorem dispatch_grown {os : Platform} {indexed next : IndexedService κ} (inv : Inv indexed.service) {request : Request}
    {response : CoapPdu}
    (answered : indexed.dispatch hashFcn hashPath wellknownResponse os request = .ok (response, next)) :
    Inv next.service ∧ ∃ added, next.service.resources = indexed.service.resources ++ added := by
  obtain ⟨place, _, answered⟩ := bind_ok answered
  split at answered
  next =>
    cases answered
    exact ⟨inv, [], (List.append_nil _).symm⟩
  next => exact indexed_grown inv answered

/-- Discovery is answered by the listing, all else as by the directory over the list. -/
theorem dispatch_answered {os : Platform} {indexed : IndexedService κ} (sound : Sound hashFcn hashPath indexed)
    {request : Request} (clear : Clear hashPath indexed.service.resources request) : ∃ response next,
    indexed.dispatch hashFcn hashPath wellknownResponse os request = .ok (response, next) ∧
      Sound hashFcn hashPath next ∧
      if asksForCore request then response = wellknownResponse indexed.service.resources request ∧ next = indexed
      else handleRequest os indexed.service request = .ok (response, next.service) := by
  have known : ∀ resource ∈ indexed.service.resources,
      hashPath resource.uri = hashPath request.path → resource.uri = request.path :=
    fun resource member => clear _ (List.mem_cons_of_mem _ (List.mem_map_of_mem member))
  split
  next core =>
    obtain ⟨method, path⟩ : request.method = .get ∧ request.path = wellKnownCore := by simpa [asksForCore] using core
    rcases find_cases sound.holds (hashPath request.path) with ⟨found, _⟩ | ⟨place, resource, _, present, keyed⟩
    · refine ⟨_, indexed, ?_, sound, rfl, rfl⟩
      rw [path] at found
      simp only [IndexedService.dispatch, found, ok_bind, method, path, and_self, ite_true, pure_eq_ok]
    · have member := List.mem_of_getElem? present
      exact absurd ((known resource member keyed).trans path) (sound.free resource member)
  next other =>
    obtain ⟨response, after, handled, inv⟩ := handleRequest_preserves os indexed.service request sound.inv
    obtain ⟨next, same, rfl, holds⟩ := indexed_step sound.holds sound.inv sound.one known handled
    refine ⟨response, next, ?_, ⟨holds, inv, oneHandler_step sound.inv sound.one handled,
      coreFree_step sound.inv sound.free handled⟩, handled⟩
    obtain ⟨catalogue, represents, _⟩ := sound.holds
    simp only [IndexedService.dispatch, represents.find, ok_bind]
    rw [if_neg, same]
    rintro ⟨_, method, key⟩
    have path := clear wellKnownCore List.mem_cons_self key.symm
    exact other (by simp [asksForCore, method, path])

/-- Over every run from `Init`, where no request collides with another path: the
directory over the hash table answers it just as the directory over the list. -/
theorem hash_table_transparent (hashFcn : κ → UInt32) (hashPath : Bytes → κ) (handles : Nat → UTHashHandle κ)
    {os : Platform} {history : List (Request × CoapPdu)} {service : RDService}
    (run : Histories.Run (handleRequest os) RDService.init history service)
    (clear : ∀ resource ∈ service.resources, ∀ answer ∈ history,
      hashPath resource.uri = hashPath answer.1.path → resource.uri = answer.1.path) :
    ∃ start indexed, IndexedService.init hashFcn hashPath handles = .ok start ∧
      Histories.Run (IndexedService.handleRequest hashFcn hashPath os) start history indexed ∧
      indexed.service = service := by
  obtain ⟨start, made, initial, holds⟩ := @indexed_initial _ hashFcn hashPath _ handles
  suffices run : ∃ indexed, Histories.Run (IndexedService.handleRequest hashFcn hashPath os) start history indexed ∧
      indexed.service = service ∧ Indexed hashFcn hashPath indexed ∧ OneHandler service by
    obtain ⟨indexed, run, same, _⟩ := run
    exact ⟨start, indexed, made, run, same⟩
  induction run with
  | start => exact ⟨start, .start, initial, holds, oneHandler_initial⟩
  | @step history service request response next run answered ih =>
    have inv := run_inv run
    obtain ⟨added, grown⟩ := step_later inv answered
    obtain ⟨indexed, followed, rfl, holds, one⟩ := ih fun resource member answer earlier =>
      clear resource (by rw [grown]; exact List.mem_append_left _ member) answer (List.mem_append_left _ earlier)
    obtain ⟨after, same, rfl, holds⟩ := indexed_step holds inv one (fun resource member =>
      clear resource (by rw [grown]; exact List.mem_append_left _ member) _
        (List.mem_append_right _ (List.mem_singleton_self _))) answered
    exact ⟨after, followed.step same, rfl, holds, oneHandler_step inv one answered⟩

end

/-- One hash value for all paths, so that every resource is in one bucket. -/
theorem hash_table_transparent_one_bucket : ∃ history start indexed, history.map Prod.fst = [registering, looking] ∧
    IndexedService.init (fun _ => 0) id (fun _ => ⟨none, none, none, none, [], 0⟩) = .ok start ∧
    Histories.Run (IndexedService.handleRequest (fun _ => 0) id .reference) start history indexed := by
  obtain ⟨history, service, run, asked⟩ :=
    Histories.Run.exists (handleRequest_preserves .reference) Inv.initial [registering, looking]
  obtain ⟨start, indexed, made, followed, _⟩ := hash_table_transparent (fun _ => 0) id
    (fun _ => ⟨none, none, none, none, [], 0⟩) run fun resource _ answer _ same => same
  exact ⟨history, start, indexed, asked, made, followed⟩

end IoTGateway.Proofs.ResourceTable
