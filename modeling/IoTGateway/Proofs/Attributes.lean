import IoTGateway.Directory
import IoTGateway.Proofs.Address
import IoTGateway.Proofs.QueryOptions

/-! The attributes of one node, from its creation through any number of
updates. The lifetime is set anew each time, the context falls back to the
peer, and the endpoint type stays until another one comes. -/

namespace IoTGateway.Proofs.Attributes
open QueryOptions

private theorem attr_insert (attr : CoAPAttr) (key value other : Bytes) :
    (attr.insert key value)[other]? = if key = other then some value else attr[other]? := by
  simp [Std.ExtTreeMap.getElem?_insert]

private theorem attr_insertIfNew (attr : CoAPAttr) (key value other : Bytes) :
    (attr.insertIfNew key value)[other]? = if key = other ∧ attr[key]? = none then some value else attr[other]? := by
  simp [Std.ExtTreeMap.getElem?_insertIfNew]

private theorem hexadecimal_length (number : Fin 2147483648) : (hexadecimal number).length ≤ 8 :=
  Numerals.text_length (by decide) (by decide) (Nat.lt_trans number.isLt (by decide))

private theorem zero_not_mem_hexadecimal (n : Nat) : 0 ∉ hexadecimal n := fun member => by
  have := Numerals.text_bytes (by decide) (by decide) member
  revert this
  decide

def nodeUri (os : Platform) (now : Nat) : Bytes := rdUri ++ slash :: hexadecimal (os.rand (UInt32.ofNat now))

private theorem createNodeUri_eq (os : Platform) (now : Nat) : createNodeUri os now rdUri = .ok (nodeUri os now) := by
  have short := hexadecimal_length (os.rand (UInt32.ofNat now))
  have room : (hexadecimal (os.rand (UInt32.ofNat now))).length < locsize - 1 := by
    simp only [locsize]
    omega
  have printed := Address.snprintf_fits [] (hexadecimal (os.rand (UInt32.ofNat now))) (List.replicate locsize 0) room
    (by simp [locsize]; omega)
  simp only [List.nil_append, List.length_nil] at printed
  have terminated := Address.writeBytes_behind (hexadecimal (os.rand (UInt32.ofNat now))) [0]
    (0 :: (List.replicate locsize 0).drop ((hexadecimal (os.rand (UInt32.ofNat now))).length + 1)) (by simp)
  simp only [createNodeUri, printed, ok_bind, terminated, List.singleton_append,
    Address.cString_terminated (zero_not_mem_hexadecimal _), pure_eq_ok, nodeUri]

/-- The attributes a node is created with; what follows a zero byte is lost. -/
def createdAttr (domain ep : Bytes) : CoAPAttr :=
  (Std.ExtTreeMap.insertIfNew ∅ (ascii "d") (cStr domain)).insertIfNew (ascii "ep") (cStr ep)

theorem createdAttr_get (domain ep key : Bytes) : (createdAttr domain ep)[key]? =
    if ascii "ep" = key then some (cStr ep) else if ascii "d" = key then some (cStr domain) else none := by
  have apart : ascii "d" ≠ ascii "ep" := by decide
  simp only [createdAttr, attr_insertIfNew, apart, ite_false, and_true, Std.ExtTreeMap.getElem?_empty]

theorem createdAttr_domain (domain ep : Bytes) : (createdAttr domain ep)[ascii "d"]? = some (cStr domain) := by
  rw [createdAttr_get, if_neg (by decide), if_pos rfl]

theorem createdAttr_ep (domain ep : Bytes) : (createdAttr domain ep)[ascii "ep"]? = some (cStr ep) := by
  rw [createdAttr_get, if_pos rfl]

theorem createdAttr_et (domain ep : Bytes) : (createdAttr domain ep)[ascii "et"]? = none := by
  rw [createdAttr_get, if_neg (by decide), if_neg (by decide)]

theorem createNodeResource_eq (os : Platform) (now : Nat) (domain ep : Bytes) :
    createNodeResource os now domain ep = .ok (some { uri := nodeUri os now, attr := createdAttr domain ep }) := by
  simp only [createNodeResource, createNodeUri_eq, ok_bind, pure_eq_ok, createdAttr]

structure Requested where
  lt : Int32
  et : Bytes
  con : Bytes
  deriving DecidableEq

def requested (os : Platform) (callback : CoAPCallback) : Requested :=
  let con := queried (ascii "con") [] (uriQuery callback.request)
  { lt := queriedInt os (ascii "lt") (uriQuery callback.request)
    et := queried (ascii "et") [] (uriQuery callback.request)
    con := if con = [] then Address.defaultCon os callback.peer else con }

theorem requested_con_ne_nil (os : Platform) (callback : CoAPCallback) : (requested os callback).con ≠ [] := by
  simp only [requested]
  split
  · exact Address.defaultCon_ne_nil os callback.peer
  next given => exact given

def lifetimeText (lt : Int32) : Bytes := decimal (max 60 lt.toInt).toNat

private theorem formatInt_clamped (lt : Int32) : formatInt (if lt < 60 then 60 else lt) = lifetimeText lt := by
  unfold lifetimeText
  by_cases short : lt < 60
  · have small : lt.toInt < 60 := Int32.lt_iff_toInt_lt.mp short
    rw [if_pos short, show max 60 lt.toInt = 60 by omega]
    rfl
  · have large : 60 ≤ lt.toInt := by
      have := fun less => short (Int32.lt_iff_toInt_lt.mpr less)
      simpa using this
    have positive : ¬ lt < 0 := fun less => by
      have : lt.toInt < 0 := Int32.lt_iff_toInt_lt.mp less
      omega
    rw [if_neg short, show max 60 lt.toInt = lt.toInt by omega, formatInt, if_neg positive,
      show lt.toInt.natAbs = lt.toInt.toNat by omega]

def updatedAttr (attr : CoAPAttr) (values : Requested) : CoAPAttr :=
  let attr := (attr.insert (ascii "lt") (lifetimeText values.lt)).insert (ascii "con") values.con
  if values.et = [] then attr else attr.insert (ascii "et") values.et

/-- An update never fails and changes nothing but the attributes. -/
theorem update_eq (os : Platform) (r : CoAPResource) (callback : CoAPCallback) :
    r.update os callback = .ok { r with attr := updatedAttr r.attr (requested os callback) } := by
  have some := requested_con_ne_nil os callback
  simp only [requested] at some
  simp only [CoAPResource.update, getQueryValue, queryValue_name isName_et, queryValue_name isName_con,
    getQueryValueInt_name isName_lt, ok_bind, Address.getDefaultCon_eq, List.isEmpty_iff, requested, updatedAttr]
  split
  all_goals
    simp_all [CoAPResource.updateLifetime, CoAPResource.updateContext, CoAPResource.updateEt, formatInt_clamped]
    split <;> rfl

theorem updatedAttr_get (attr : CoAPAttr) (values : Requested) (key : Bytes) : (updatedAttr attr values)[key]? =
    if ascii "et" = key ∧ values.et ≠ [] then some values.et
    else if ascii "con" = key then some values.con
    else if ascii "lt" = key then some (lifetimeText values.lt)
    else attr[key]? := by
  unfold updatedAttr
  by_cases none : values.et = [] <;> simp [none, attr_insert]

theorem updatedAttr_con (attr : CoAPAttr) (values : Requested) :
    (updatedAttr attr values)[ascii "con"]? = some values.con := by
  rw [updatedAttr_get, if_neg fun both => absurd both.1 (by decide), if_pos rfl]

theorem updatedAttr_lt (attr : CoAPAttr) (values : Requested) :
    (updatedAttr attr values)[ascii "lt"]? = some (lifetimeText values.lt) := by
  rw [updatedAttr_get, if_neg fun both => absurd both.1 (by decide), if_neg (by decide), if_pos rfl]

theorem updatedAttr_et (attr : CoAPAttr) (values : Requested) : (updatedAttr attr values)[ascii "et"]? =
    if values.et = [] then attr[ascii "et"]? else some values.et := by
  have apart : ascii "con" ≠ ascii "et" ∧ ascii "lt" ≠ ascii "et" := by decide
  by_cases none : values.et = [] <;> simp [updatedAttr_get, none, apart]

theorem updatedAttr_other (attr : CoAPAttr) (values : Requested) {key : Bytes}
    (other : ascii "lt" ≠ key ∧ ascii "con" ≠ key ∧ ascii "et" ≠ key) :
    (updatedAttr attr values)[key]? = attr[key]? := by
  simp [updatedAttr_get, other]

def updatedAttrs (os : Platform) (attr : CoAPAttr) (callbacks : List CoAPCallback) : CoAPAttr :=
  callbacks.foldl (fun attr callback => updatedAttr attr (requested os callback)) attr

private theorem updates_eq (os : Platform) (r : CoAPResource) (callbacks : List CoAPCallback) :
    callbacks.foldlM (CoAPResource.update os) r = .ok { r with attr := updatedAttrs os r.attr callbacks } := by
  induction callbacks generalizing r with
  | nil => rfl
  | cons callback callbacks ih => simp only [List.foldlM_cons, update_eq, ok_bind, ih, updatedAttrs, List.foldl_cons]

private theorem updatedAttrs_other (os : Platform) (attr : CoAPAttr) (callbacks : List CoAPCallback) {key : Bytes}
    (other : ascii "lt" ≠ key ∧ ascii "con" ≠ key ∧ ascii "et" ≠ key) :
    (updatedAttrs os attr callbacks)[key]? = attr[key]? := by
  induction callbacks generalizing attr with
  | nil => rfl
  | cons callback callbacks ih => exact (ih _).trans (updatedAttr_other attr _ other)

def carriedEt (callback : CoAPCallback) : Option Bytes :=
  match getQueryValue callback.request (ascii "et") [] with
  | .ok (byte :: rest) => some (byte :: rest)
  | _ => none

private theorem carriedEt_requested (os : Platform) (callback : CoAPCallback) :
    carriedEt callback = if (requested os callback).et = [] then none else some (requested os callback).et := by
  simp only [carriedEt, getQueryValue, queryValue_name isName_et, requested]
  split
  next byte rest same => simp [Except.ok.inj same]
  next empty =>
    have none : queried (ascii "et") [] (uriQuery callback.request) = [] := by
      by_contra given
      obtain ⟨byte, rest, same⟩ := List.exists_cons_of_ne_nil given
      exact empty byte rest (congrArg Except.ok same)
    simp [none]

private theorem updatedAttrs_et (os : Platform) (attr : CoAPAttr) (callbacks : List CoAPCallback) :
    (updatedAttrs os attr callbacks)[ascii "et"]? =
      ((callbacks.filterMap carriedEt).getLast?).or attr[ascii "et"]? := by
  induction callbacks using List.reverseRecOn with
  | nil => rfl
  | append_singleton callbacks callback ih =>
    have last : updatedAttrs os attr (callbacks ++ [callback]) =
        updatedAttr (updatedAttrs os attr callbacks) (requested os callback) := by simp [updatedAttrs]
    rw [last, updatedAttr_et, ih, List.filterMap_append, List.filterMap_cons, List.filterMap_nil,
      carriedEt_requested os callback]
    by_cases none : (requested os callback).et = [] <;> simp [none]

/-- What the history of updates says about a node: its names stay, the lifetime
and the context are those of the last request, the endpoint type is the last
one any request carried. -/
structure HistoryLaw (os : Platform) (node after : CoAPResource) (callbacks : List CoAPCallback) (last : CoAPCallback) :
    Prop where
  keys : ∀ key ∈ after.attr, key ∈ [ascii "d", ascii "ep", ascii "lt", ascii "con", ascii "et"]
  domain : ∃ d, node.attr[ascii "d"]? = some d ∧ after.attr[ascii "d"]? = some d
  ep : ∃ ep, node.attr[ascii "ep"]? = some ep ∧ after.attr[ascii "ep"]? = some ep
  lt : ∃ v, getQueryValueInt os last.request (ascii "lt") 0 = .ok v ∧
    after.attr[ascii "lt"]? = some (decimal (max 60 v.toInt).toNat)
  con : ∃ con context, getQueryValue last.request (ascii "con") [] = .ok con ∧
    getDefaultCon os last.peer = .ok context ∧ after.attr[ascii "con"]? = some (if con = [] then context else con)
  con_some : after.attr[ascii "con"]? ≠ some []
  et : after.attr[ascii "et"]? = (callbacks.filterMap carriedEt).getLast?

theorem update_history (os : Platform) (now : Nat) (domain ep : Bytes) (node : CoAPResource)
    (created : createNodeResource os now domain ep = .ok (some node)) (earlier : List CoAPCallback)
    (last : CoAPCallback) : ∃ after, (earlier ++ [last]).foldlM (CoAPResource.update os) node = .ok after ∧
      HistoryLaw os node after (earlier ++ [last]) last := by
  obtain rfl : { uri := nodeUri os now, attr := createdAttr domain ep } = node := by
    simpa [createNodeResource_eq] using created
  refine ⟨_, updates_eq os _ _, ?_⟩
  have final : updatedAttrs os (createdAttr domain ep) (earlier ++ [last]) =
      updatedAttr (updatedAttrs os (createdAttr domain ep) earlier) (requested os last) := by simp [updatedAttrs]
  have kept {key : Bytes} (other : ascii "lt" ≠ key ∧ ascii "con" ≠ key ∧ ascii "et" ≠ key) :=
    updatedAttrs_other os (createdAttr domain ep) (earlier ++ [last]) other
  have con : (updatedAttrs os (createdAttr domain ep) (earlier ++ [last]))[ascii "con"]? =
      some (requested os last).con := by rw [final, updatedAttr_con]
  constructor
  case keys =>
    intro key member
    by_contra strange
    simp only [List.mem_cons, List.not_mem_nil, or_false, not_or] at strange
    have absent := kept ⟨Ne.symm strange.2.2.1, Ne.symm strange.2.2.2.1, Ne.symm strange.2.2.2.2⟩
    rw [createdAttr_get, if_neg (Ne.symm strange.2.1), if_neg (Ne.symm strange.1)] at absent
    simp [Std.ExtTreeMap.getElem?_eq_some_getElem member] at absent
  case domain =>
    exact ⟨cStr domain, createdAttr_domain domain ep, (kept (by decide)).trans (createdAttr_domain domain ep)⟩
  case ep => exact ⟨cStr ep, createdAttr_ep domain ep, (kept (by decide)).trans (createdAttr_ep domain ep)⟩
  case lt => exact ⟨_, getQueryValueInt_name isName_lt os last.request, final ▸ updatedAttr_lt _ _⟩
  case con => exact ⟨_, _, queryValue_name isName_con last.request [], Address.getDefaultCon_eq os last.peer, con⟩
  case con_some => simpa [con] using requested_con_ne_nil os last
  case et =>
    rw [updatedAttrs_et, createdAttr_et, Option.or_none]

/-- A request that names an endpoint type, and a later one from elsewhere that
does not. -/
def typed : CoAPCallback := { request := { options := [(15, ascii "et=oic")] }, peer := .ip (.inet 0x7f000001) 5683 }
def renewing : CoAPCallback := { request := { options := [(15, ascii "lt=90")] }, peer := .ip (.inet 0x0a000001) 5683 }

theorem update_history_two : ∃ after,
    ([typed] ++ [renewing]).foldlM (CoAPResource.update .reference)
      { uri := nodeUri .reference 1000, attr := createdAttr (ascii "x") (ascii "n1") } = .ok after ∧
    HistoryLaw .reference { uri := nodeUri .reference 1000, attr := createdAttr (ascii "x") (ascii "n1") } after
      ([typed] ++ [renewing]) renewing :=
  update_history .reference 1000 (ascii "x") (ascii "n1") _
    (createNodeResource_eq .reference 1000 (ascii "x") (ascii "n1")) [typed] renewing

end IoTGateway.Proofs.Attributes
