import IoTGateway.Lib.LinkFormat
import IoTGateway.Proofs.DirectoryStability
import IoTGateway.Proofs.Locations
import IoTGateway.Proofs.Refresh

/-! How a new node appears in the link listing. libcoap prints the attribute
values as they were added; the fixed resources bring their quotes along, the
registered nodes do not. -/

namespace IoTGateway.Proofs.Publication
open LinkFormat DirectoryStep DirectoryStability Attributes

/-- `coap_print_link`: the path and `;name=value` for each attribute. -/
def coapPrintLink (resource : CoapResourceT) : Bytes :=
  ascii "</" ++ resource.uri ++ ascii ">" ++
    resource.linkAttr.flatMap fun attr => ascii ";" ++ attr.1 ++ ascii "=" ++ attr.2

private theorem coapPrintLink_eq (resource : CoapResourceT) :
    coapPrintLink resource = print (slash :: resource.uri) resource.linkAttr := by
  have marks : ascii "</" = [less, slash] ∧ ascii ">" = [greater] ∧ ascii ";" = [semicolon] ∧
      ascii "=" = [LinkFormat.equals] := by decide
  simp only [coapPrintLink, marks, print, List.cons_append, List.nil_append, List.append_assoc]
  rfl

/-- The printed text is one link, whose attributes are those of the node. -/
def Published (node : CoAPResource) (resource : CoapResourceT) : Prop :=
  ∃ attrs, parse (coapPrintLink resource) = some [{ target := slash :: node.uri, attrs }] ∧
    attrs.Perm (node.attr.toList.map fun attr => (attr.1, some attr.2))

/-- The values a node is made with need no quotes. -/
structure TokensOnly (os : Platform) (posted : Post) : Prop where
  domain : IsToken (cStr (asked posted).1)
  ep : IsToken (cStr (asked posted).2)
  con : IsToken (requested os posted.callback).con
  et : (requested os posted.callback).et ≠ [] → IsToken (requested os posted.callback).et

private theorem firstAttr_get (os : Platform) (posted : Post) (key value : Bytes) :
    (firstAttr os posted)[key]? = some value ↔
      (key = ascii "d" ∧ value = cStr (asked posted).1) ∨ (key = ascii "ep" ∧ value = cStr (asked posted).2) ∨
      (key = ascii "lt" ∧ value = lifetimeText (requested os posted.callback).lt) ∨
      (key = ascii "con" ∧ value = (requested os posted.callback).con) ∨
      (key = ascii "et" ∧ (requested os posted.callback).et ≠ [] ∧ value = (requested os posted.callback).et) := by
  have apart : [ascii "d", ascii "ep", ascii "lt", ascii "con", ascii "et"].Nodup := by decide
  simp only [List.nodup_cons, List.mem_cons, List.not_mem_nil, or_false, not_or, not_false_eq_true, List.nodup_nil,
    and_true] at apart
  rw [firstAttr, updatedAttr_get, createdAttr_get]
  grind

private theorem isToken_decimal (n : Nat) : IsToken (decimal n) := by
  refine ⟨Numerals.text_ne_nil 10 n, List.all_eq_true.mpr ?_⟩
  intro byte member
  have digit := Numerals.isDecimal_of_text member
  simp only [Numerals.isDecimal, Bool.and_eq_true, decide_eq_true_eq] at digit
  simp only [isTokenByte, Bool.and_eq_true, decide_eq_true_eq, bne_iff_ne, quote, comma, semicolon, backslash]
  grind

private theorem uri_newResource (os : Platform) (posted : Post) (address : Nat) :
    (slash :: (newResource os posted address).uri).all isUriByte = true := by
  have number : (hexadecimal (os.rand (UInt32.ofNat posted.now))).all isUriByte = true := by
    apply List.all_eq_true.mpr
    intro byte member
    have digit := hexadecimal_bytes member
    simp only [isUriByte, Bool.and_eq_true, decide_eq_true_eq, bne_iff_ne, quote, less, greater]
    grind
  rw [List.all_cons, newResource, nodeUri, List.all_append, List.all_cons, number]
  decide

section
variable (os : Platform) (posted : Post)

private theorem names_newResource (address : Nat) :
    ∀ attr ∈ (newResource os posted address).linkAttr, IsName attr.1 := by
  intro attr member
  have held := (firstAttr_get os posted attr.1 attr.2).mp ((Refresh.mem_linkAttr os posted address _ _).mp member)
  unfold IsName
  rcases held with ⟨key, _⟩ | ⟨key, _⟩ | ⟨key, _⟩ | ⟨key, _⟩ | ⟨key, _⟩
  all_goals
    rw [key]
    decide

private theorem values_newResource (address : Nat) :
    (∀ attr ∈ (newResource os posted address).linkAttr, IsToken attr.2) ↔ TokensOnly os posted := by
  have held (key value : Bytes) : (key, value) ∈ (newResource os posted address).linkAttr ↔ _ :=
    (Refresh.mem_linkAttr os posted address key value).trans (firstAttr_get os posted key value)
  constructor
  · intro tokens
    exact ⟨tokens _ ((held _ _).mpr (Or.inl ⟨rfl, rfl⟩)), tokens _ ((held _ _).mpr (Or.inr (Or.inl ⟨rfl, rfl⟩))),
      tokens _ ((held _ _).mpr (Or.inr (Or.inr (Or.inr (Or.inl ⟨rfl, rfl⟩))))),
      fun given => tokens _ ((held _ _).mpr (Or.inr (Or.inr (Or.inr (Or.inr ⟨rfl, given, rfl⟩)))))⟩
  · intro tokens attr member
    rcases (held attr.1 attr.2).mp member with ⟨_, value⟩ | ⟨_, value⟩ | ⟨_, value⟩ | ⟨_, value⟩ | ⟨_, given, value⟩
    · exact value ▸ tokens.domain
    · exact value ▸ tokens.ep
    · exact value ▸ isToken_decimal _
    · exact value ▸ tokens.con
    · exact value ▸ tokens.et given

private theorem linkAttr_perm (service : RDService) (address : Nat) :
    ((newResource os posted address).linkAttr.map fun attr => (attr.1, some attr.2)).Perm
      ((newNode os service posted).attr.toList.map fun attr => (attr.1, some attr.2)) := by
  rw [newResource, Refresh.foldl_coapAddAttr, List.append_nil]
  exact (List.reverse_perm _).map _

private theorem published_newNode_iff (service : RDService) (address : Nat) :
    Published (newNode os service posted) (newResource os posted address) ↔ TokensOnly os posted := by
  rw [← values_newResource os posted address,
    ← parse_print_iff (uri_newResource os posted address) (names_newResource os posted address), Published,
    coapPrintLink_eq]
  have same := linkAttr_perm os posted service address
  constructor
  · intro published
    obtain ⟨attrs, parsed, perm⟩ := published
    exact ⟨attrs, parsed, perm.trans same.symm⟩
  · intro read
    obtain ⟨attrs, parsed, perm⟩ := read
    exact ⟨attrs, parsed, perm.trans same⟩

end

/-- In every reachable directory the link printed for a new node is read back as
that node's exactly when none of its values needs quotes. -/
theorem published_iff {os : Platform} {history : List (Request × CoapPdu)} {service : RDService}
    (run : Histories.Run (handleRequest os) RDService.init history service) {posted : Post} {response next}
    (answered : post os service posted = .ok (response, next)) (created : response.code = coapResponseCode 201)
    (success : posted.initOk = true) : ∃ node resource, next.heap[service.heap.length]? = some node ∧
      next.resources = service.resources ++ [resource] ∧ resource.appContex = .node service.heap.length ∧
      (Published node resource ↔ TokensOnly os posted) := by
  obtain ⟨_, _, _, rfl⟩ := Locations.created_of_code (answered_of_post (run_inv run) answered) created
  exact ⟨newNode os service posted, newResource os posted service.heap.length, by simp [grown], by simp [grown, success],
    rfl, published_newNode_iff os posted service _⟩

def sensor : Post := DirectoryTrace.registration "ep=n1&et=sensor" "" 1000

def intruder : Post := DirectoryTrace.registration "ep=n1&et=t,</x>" "" 1000

private theorem first_created (posted : Post) (named : registers posted = true) : ∃ response next,
    post .reference RDService.init posted = .ok (response, next) ∧ response.code = coapResponseCode 201 := by
  obtain ⟨response, next, answered, how⟩ := post_answered .reference Inv.initial posted
  refine ⟨response, next, answered, ?_⟩
  cases how with
  | rejected nameless => exact absurd named (by simp [nameless])
  | updated _ found => exact absurd found (by simp [locate, RDService.init, createFixed, createResource])
  | created => exact responseOk_code _ _

theorem published_sensor : ∃ response next, post .reference RDService.init sensor = .ok (response, next) ∧
    ∃ node resource, next.heap[RDService.init.heap.length]? = some node ∧
      next.resources = RDService.init.resources ++ [resource] ∧
      resource.appContex = .node RDService.init.heap.length ∧ (Published node resource ↔ TokensOnly .reference sensor) := by
  obtain ⟨response, next, answered, created⟩ := first_created sensor (by decide)
  exact ⟨response, next, answered, published_iff .start answered created rfl⟩

/-- The listing shows two links where one node was registered. -/
theorem client_adds_link : ∃ response next resource,
    post .reference RDService.init intruder = .ok (response, next) ∧ response.code = coapResponseCode 201 ∧
    next.resources = RDService.init.resources ++ [resource] ∧
    (parse (coapPrintLink resource)).map (·.map Link.target) = some [slash :: nodeUri .reference 1000, ascii "/x"] ∧
    ∀ node, ¬ Published node resource := by
  obtain ⟨response, next, answered, created⟩ := first_created intruder (by decide)
  obtain ⟨_, _, _, rfl⟩ := Locations.created_of_code (answered_of_post Inv.initial answered) created
  have two : (parse (coapPrintLink (newResource .reference intruder 0))).map (·.map Link.target) =
      some [slash :: nodeUri .reference 1000, ascii "/x"] := by decide
  refine ⟨response, _, newResource .reference intruder 0, answered, created, rfl, two, ?_⟩
  intro node published
  obtain ⟨attrs, single, _⟩ := published
  simp [single] at two

end IoTGateway.Proofs.Publication
