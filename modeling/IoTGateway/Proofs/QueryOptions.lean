import IoTGateway.Proofs.QueryParameters
import IoTGateway.Reference

/-! Look-ups over a whole request. The code searches the first Uri-Query option
and never advances the iterator, so what it reads is compared here with what
all the options say. -/

namespace IoTGateway.Proofs.QueryOptions
open QueryScan QueryParameters

def assigned (old value : Bytes) : Bytes := if value = [] then old else value

/-- What `query_value` leaves in the caller's variable. -/
def queried (key old : Bytes) : List Bytes → Bytes
  | [] => old
  | first :: _ => assigned old (answer key (first.splitOn amp)).2

def uriQuery (request : CoapPdu) : List Bytes := coapOptions request coapOptionUriQuery

private theorem queryValue_queried {request : CoapPdu} {key : Bytes} (old : Bytes) (named : key ≠ [])
    (clean : ∀ option ∈ uriQuery request, amp ∈ key → amp ∉ option) :
    queryValue request key old = .ok (queried key old (uriQuery request)) := by
  unfold queryValue coapCheckOption
  rw [show coapOptions request coapOptionUriQuery = uriQuery request from rfl]
  cases options : uriQuery request with
  | nil => rfl
  | cons first rest =>
    obtain ⟨slice, returned, covers⟩ := parseParam_answer named (clean first (by simp [options]))
    simp only [List.head?_cons, returned, ok_bind, queried, assigned, covers.length]
    by_cases empty : (answer key (first.splitOn amp)).2 = []
    · simp [empty]
    · simp [empty, List.length_pos_iff, covers.content empty]

theorem queryValue_name {key : Bytes} (isName : IsName key) (request : CoapPdu) (old : Bytes) :
    queryValue request key old = .ok (queried key old (uriQuery request)) :=
  queryValue_queried old isName.named fun _ _ member => absurd member isName.clean

private theorem queryValue_empty (request : CoapPdu) (old : Bytes) : queryValue request [] old = .ok old := by
  unfold queryValue
  cases coapCheckOption request coapOptionUriQuery <;> simp [parseParam]

/-- Each option carries one parameter, as a client splits a query. -/
def Formed (options : List Bytes) : Prop := ∀ option ∈ options, amp ∉ option ∧ equals ∈ option

theorem Formed.split {options : List Bytes} (formed : Formed options) {option : Bytes} (member : option ∈ options) :
    ∃ value, option = name option ++ equals :: value := by
  rcases segment_name option with ⟨bare, _⟩ | split
  · exact absurd (formed option member).2 bare
  · exact split

private theorem not_mem_name (option : Bytes) : equals ∉ name option := Delimited.not_mem_before equals option

/-- On one option the scanner compares the key with everything before an `=`,
not necessarily the first. -/
theorem queried_cons {key first : Bytes} (old : Bytes) (rest : List Bytes) (clean : amp ∉ first) :
    queried key old (first :: rest) =
      if key ++ [equals] <+: first then assigned old (first.drop (key.length + 1)) else old := by
  simp only [queried, List.splitOn_eq_singleton clean, answer, answers]
  by_cases starts : key ++ [equals] <+: first
  · obtain ⟨value, rfl⟩ := starts
    simp [List.isPrefixOf_iff_prefix, firstValue, Delimited.after_mark]
  · by_cases same : first = key
    · simp [same, assigned, firstValue]
    · simp [same, starts, List.isPrefixOf_iff_prefix, assigned]

theorem queried_name {key first : Bytes} (whole : equals ∉ key) (old : Bytes) (rest : List Bytes)
    (formed : Formed (first :: rest)) :
    queried key old (first :: rest) = if name first = key then assigned old (Delimited.after equals first) else old := by
  obtain ⟨value, split⟩ := formed.split List.mem_cons_self
  rw [queried_cons old rest (formed first List.mem_cons_self).1]
  by_cases same : name first = key
  · rw [same] at split
    subst split
    simp [same, Delimited.after_marked whole]
  · rw [if_neg same, if_neg]
    intro starts
    obtain ⟨value, rfl⟩ := starts
    apply same
    simpa using name_append whole value

def lookup (key old : Bytes) (options : List Bytes) : Bytes :=
  match options.find? (name · == key) with
  | some option => assigned old (Delimited.after equals option)
  | none => old

/-- The first option is the one that counts, or no option would change the
variable. A key that holds `=` is no name, but may spell the start of the first
option. -/
def FirstDecides (key old : Bytes) (options : List Bytes) : Prop :=
  if equals ∈ key then ∀ value, options.head? = some (key ++ equals :: value) → value = [] ∨ value = old
  else (key ≠ [] ∧ options.head?.map name = some key) ∨
    ∀ option, options.find? (name · == key) = some option →
      Delimited.after equals option = [] ∨ Delimited.after equals option = old

theorem assigned_eq_old {old value : Bytes} : assigned old value = old ↔ value = [] ∨ value = old := by
  unfold assigned
  split <;> simp [*]

theorem lookup_eq_old {key old : Bytes} {options : List Bytes} : lookup key old options = old ↔
    ∀ option, options.find? (name · == key) = some option →
      Delimited.after equals option = [] ∨ Delimited.after equals option = old := by
  unfold lookup
  cases options.find? (name · == key) with
  | none => simp
  | some option => simpa using assigned_eq_old

theorem queried_marked {key old : Bytes} {options : List Bytes} (formed : Formed options) (marked : equals ∈ key) :
    queried key old options = lookup key old options ↔
      ∀ value, options.head? = some (key ++ equals :: value) → value = [] ∨ value = old := by
  have unnamed : lookup key old options = old := by
    apply lookup_eq_old.mpr
    intro option found
    have same : name option = key := by simpa using List.find?_some found
    exact absurd (same ▸ marked) (not_mem_name option)
  rw [unnamed]
  cases options with
  | nil => simp [queried]
  | cons first rest =>
    rw [queried_cons old rest (formed first List.mem_cons_self).1]
    by_cases starts : key ++ [equals] <+: first
    · obtain ⟨value, rfl⟩ := starts
      simp [assigned_eq_old]
    · rw [if_neg starts]
      refine iff_of_true rfl fun value same => absurd ⟨value, ?_⟩ starts
      simpa using (Option.some.inj same).symm

private theorem queried_unmarked {key old : Bytes} {options : List Bytes} (formed : Formed options)
    (whole : equals ∉ key) (some : key ≠ []) : queried key old options = lookup key old options ↔
      (key ≠ [] ∧ options.head?.map name = .some key) ∨
        ∀ option, options.find? (name · == key) = .some option →
          Delimited.after equals option = [] ∨ Delimited.after equals option = old := by
  cases options with
  | nil => simp [queried, lookup]
  | cons first rest =>
    rw [queried_name whole old rest formed]
    by_cases same : name first = key
    · simp [same, some, lookup]
    · rw [if_neg same, eq_comm, lookup_eq_old]
      simp [same]

private theorem queryValue_lookup {request : CoapPdu} (formed : Formed (uriQuery request)) (key old : Bytes) :
    queryValue request key old = .ok (lookup key old (uriQuery request)) ↔
      FirstDecides key old (uriQuery request) := by
  by_cases some : key = []
  · subst some
    simp only [queryValue_empty, Except.ok.injEq, FirstDecides, List.not_mem_nil, ite_false, ne_eq, not_true_eq_false,
      false_and, false_or]
    exact eq_comm.trans lookup_eq_old
  rw [queryValue_queried old some fun option member _ => (formed option member).1]
  simp only [Except.ok.injEq, FirstDecides]
  by_cases marked : equals ∈ key
  · rw [if_pos marked]
    exact queried_marked formed marked
  · rw [if_neg marked]
    exact queried_unmarked formed marked some

structure Parameters where
  domain : Bytes
  ep : Bytes
  lt : Int32
  et : Bytes
  con : Bytes
  deriving DecidableEq

def parameters (os : Platform) (request : CoapPdu) : Checked Parameters := do
  let (domain, ep) ← getDomainAndEndpointIdentifier request (ascii "hisilicion") []
  let lt ← getQueryValueInt os request (ascii "lt") 0
  let et ← getQueryValue request (ascii "et") []
  let con ← getQueryValue request (ascii "con") []
  return { domain, ep, lt, et, con }

/-- An option that leaves every one of the five parameters at its default. -/
structure Neutral (os : Platform) (option : Bytes) : Prop where
  domain : name option = ascii "d" → Delimited.after equals option = [] ∨ Delimited.after equals option = ascii "hisilicion"
  ep : name option = ascii "ep" → Delimited.after equals option = []
  lt : name option = ascii "lt" → Delimited.after equals option = [] ∨ atoi os (cStr (Delimited.after equals option)) = 0
  et : name option = ascii "et" → Delimited.after equals option = []
  con : name option = ascii "con" → Delimited.after equals option = []

theorem isName_d : IsName (ascii "d") := ⟨by decide, by decide, by decide⟩
theorem isName_ep : IsName (ascii "ep") := ⟨by decide, by decide, by decide⟩
theorem isName_lt : IsName (ascii "lt") := ⟨by decide, by decide, by decide⟩
theorem isName_et : IsName (ascii "et") := ⟨by decide, by decide, by decide⟩
theorem isName_con : IsName (ascii "con") := ⟨by decide, by decide, by decide⟩

def queriedInt (os : Platform) (key : Bytes) (options : List Bytes) : Int32 :=
  if queried key [] options = [] then 0 else atoi os (cStr (queried key [] options))

theorem getQueryValueInt_name {key : Bytes} (isName : IsName key) (os : Platform) (request : CoapPdu) :
    getQueryValueInt os request key 0 = .ok (queriedInt os key (uriQuery request)) := by
  simp only [getQueryValueInt, queryValue_name isName, ok_bind, List.isEmpty_iff, queriedInt]
  split <;> rfl

def seen (os : Platform) (options : List Bytes) : Parameters where
  domain := queried (ascii "d") (ascii "hisilicion") options
  ep := queried (ascii "ep") [] options
  lt := queriedInt os (ascii "lt") options
  et := queried (ascii "et") [] options
  con := queried (ascii "con") [] options

private theorem parameters_seen (os : Platform) (request : CoapPdu) :
    parameters os request = .ok (seen os (uriQuery request)) := by
  simp only [parameters, getDomainAndEndpointIdentifier, findDomainEpFromQuery, getQueryValue, queryValue_name isName_d,
    queryValue_name isName_ep, queryValue_name isName_et, queryValue_name isName_con, getQueryValueInt_name isName_lt,
    ok_bind, pure_eq_ok, seen]

theorem assigned_nil (value : Bytes) : assigned [] value = value := by
  unfold assigned
  split <;> simp [*]

theorem queriedInt_cons {key first : Bytes} (whole : equals ∉ key) (os : Platform) (rest : List Bytes)
    (formed : Formed (first :: rest)) : queriedInt os key (first :: rest) =
      if name first = key ∧ Delimited.after equals first ≠ [] then atoi os (cStr (Delimited.after equals first)) else 0 := by
  unfold queriedInt
  rw [queried_name whole [] rest formed, assigned_nil]
  by_cases same : name first = key <;> by_cases empty : Delimited.after equals first = [] <;> simp [same, empty]

theorem Neutral.seen {os : Platform} {first : Bytes} {rest : List Bytes} (neutral : Neutral os first)
    (formed : Formed (first :: rest)) : seen os (first :: rest) = seen os [] := by
  have unchanged {key old : Bytes} (isName : IsName key)
      (none : name first = key → Delimited.after equals first = [] ∨ Delimited.after equals first = old) :
      queried key old (first :: rest) = queried key old [] := by
    rw [queried_name isName.whole old rest formed]
    split
    next same => exact assigned_eq_old.mpr (none same)
    next => rfl
  have domain := unchanged isName_d neutral.domain
  have ep : queried (ascii "ep") [] (first :: rest) = queried (ascii "ep") [] [] :=
    unchanged isName_ep fun same => Or.inl (neutral.ep same)
  have et : queried (ascii "et") [] (first :: rest) = queried (ascii "et") [] [] :=
    unchanged isName_et fun same => Or.inl (neutral.et same)
  have con : queried (ascii "con") [] (first :: rest) = queried (ascii "con") [] [] :=
    unchanged isName_con fun same => Or.inl (neutral.con same)
  have lt : queriedInt os (ascii "lt") (first :: rest) = queriedInt os (ascii "lt") [] := by
    rw [queriedInt_cons isName_lt.whole os rest formed]
    split
    next changed => exact (neutral.lt changed.1).resolve_left changed.2
    next => rfl
  simp only [QueryOptions.seen, domain, ep, lt, et, con]

/-- Two requests that start with options of different names are seen alike only
if neither option says anything. -/
theorem Neutral.of_same {os : Platform} {first other : Bytes} {rest others : List Bytes}
    (formed : Formed (first :: rest)) (formedOther : Formed (other :: others)) (different : name first ≠ name other)
    (same : QueryOptions.seen os (first :: rest) = QueryOptions.seen os (other :: others)) : Neutral os first := by
  have changed {key old : Bytes} (isName : IsName key)
      (equal : queried key old (first :: rest) = queried key old (other :: others)) (named : name first = key) :
      Delimited.after equals first = [] ∨ Delimited.after equals first = old := by
    rw [queried_name isName.whole old rest formed, queried_name isName.whole old others formedOther, if_pos named,
      if_neg fun clash => different (named.trans clash.symm)] at equal
    exact assigned_eq_old.mp equal
  refine ⟨changed isName_d (congrArg Parameters.domain same), ?_, ?_, ?_, ?_⟩ <;> intro named
  · simpa using changed isName_ep (congrArg Parameters.ep same) named
  · have equal := congrArg Parameters.lt same
    simp only [QueryOptions.seen] at equal
    rw [queriedInt_cons isName_lt.whole os rest formed, queriedInt_cons isName_lt.whole os others formedOther] at equal
    by_cases empty : Delimited.after equals first = []
    · exact Or.inl empty
    · rw [if_pos ⟨named, empty⟩, if_neg fun clash => different (named.trans clash.1.symm)] at equal
      exact Or.inr equal
  · simpa using changed isName_et (congrArg Parameters.et same) named
  · simpa using changed isName_con (congrArg Parameters.con same) named

theorem Formed.perm {options others : List Bytes} (formed : Formed options) (perm : others.Perm options) :
    Formed others := fun option member => formed option (perm.subset member)

/-- With distinct names, no order of the options matters only if there is one
option at most, or none of them says anything. -/
theorem seen_perm {os : Platform} {options : List Bytes} (formed : Formed options)
    (distinct : (options.map name).Nodup) :
    (∀ others : List Bytes, others.Perm options → seen os others = seen os options) ↔
      options.length ≤ 1 ∨ ∀ option ∈ options, Neutral os option := by
  constructor
  · intro same
    rw [or_iff_not_imp_left]
    intro several option member
    obtain ⟨other, among, different⟩ : ∃ other ∈ options, name option ≠ name other := by
      by_contra none
      push Not at none
      have single : ∀ other ∈ options.map name, name option = other := by
        intro other inside
        obtain ⟨origin, among, rfl⟩ := List.mem_map.mp inside
        exact none origin among
      have short := List.nodup_iff_count_le_one.mp distinct (name option)
      rw [List.count_eq_length.mpr single] at short
      exact several (by simpa using short)
    have front := (List.perm_cons_erase member).symm
    have back := (List.perm_cons_erase among).symm
    exact .of_same (formed.perm front) (formed.perm back) different ((same _ front).trans (same _ back).symm)
  · intro quiet others perm
    rcases quiet with short | neutral
    · obtain _ | ⟨option, _ | ⟨_, _⟩⟩ := options
      · rw [List.perm_nil.mp perm]
      · rw [List.perm_singleton.mp perm]
      · simp at short
    · have silent {list : List Bytes} (same : list.Perm options) : seen os list = seen os [] := by
        cases list with
        | nil => rfl
        | cons first rest => exact (neutral first (same.subset List.mem_cons_self)).seen (formed.perm same)
      rw [silent perm, silent (List.Perm.refl options)]

private theorem uriQuery_of_options (options : List Bytes) :
    uriQuery { options := options.map fun option => (coapOptionUriQuery, option) } = options := by
  induction options with
  | nil => rfl
  | cons option options ih => simpa [uriQuery, coapOptions] using ih

private theorem parameters_perm {os : Platform} {request : CoapPdu} (formed : Formed (uriQuery request))
    (distinct : ((uriQuery request).map name).Nodup) :
    (∀ other : CoapPdu, (uriQuery other).Perm (uriQuery request) → parameters os other = parameters os request) ↔
      (uriQuery request).length ≤ 1 ∨ ∀ option ∈ uriQuery request, Neutral os option := by
  rw [← seen_perm formed distinct]
  simp only [parameters_seen, Except.ok.injEq]
  constructor
  · intro same others perm
    simpa [uriQuery_of_options] using
      same { options := others.map fun option => (coapOptionUriQuery, option) } (by rwa [uriQuery_of_options])
  · exact fun same other perm => same _ perm

/-- The look-up gives what the whole request says exactly when the first option
decides; and for distinct names reordering the options changes nothing exactly
when there are not two of them, or none is about the directory. -/
theorem queryValue_whole_request (os : Platform) (request : CoapPdu) (formed : Formed (uriQuery request)) :
    (∀ key old, queryValue request key old = .ok (lookup key old (uriQuery request)) ↔
      FirstDecides key old (uriQuery request)) ∧
    (((uriQuery request).map name).Nodup →
      ((∀ other : CoapPdu, (uriQuery other).Perm (uriQuery request) → parameters os other = parameters os request) ↔
        (uriQuery request).length ≤ 1 ∨ ∀ option ∈ uriQuery request, Neutral os option)) :=
  ⟨fun key old => queryValue_lookup formed key old, fun distinct => parameters_perm formed distinct⟩

def nameThenDomain : CoapPdu := { options := [(coapOptionUriQuery, ascii "ep=n1"), (coapOptionUriQuery, ascii "d=x")] }

private theorem formed_nameThenDomain : Formed (uriQuery nameThenDomain) := by
  unfold Formed
  decide

theorem queryValue_name_then_domain :
    (∀ key old, queryValue nameThenDomain key old = .ok (lookup key old (uriQuery nameThenDomain)) ↔
      FirstDecides key old (uriQuery nameThenDomain)) ∧
    (((uriQuery nameThenDomain).map name).Nodup →
      ((∀ other : CoapPdu, (uriQuery other).Perm (uriQuery nameThenDomain) →
          parameters .reference other = parameters .reference nameThenDomain) ↔
        (uriQuery nameThenDomain).length ≤ 1 ∨ ∀ option ∈ uriQuery nameThenDomain, Neutral .reference option)) :=
  queryValue_whole_request .reference nameThenDomain formed_nameThenDomain

/-- The domain of the second option is never read. -/
theorem queryValue_misses_domain : Formed (uriQuery nameThenDomain) ∧
    lookup (ascii "d") (ascii "hisilicion") (uriQuery nameThenDomain) = ascii "x" ∧
    queryValue nameThenDomain (ascii "d") (ascii "hisilicion") = .ok (ascii "hisilicion") :=
  ⟨formed_nameThenDomain, by decide, by decide⟩

end IoTGateway.Proofs.QueryOptions
