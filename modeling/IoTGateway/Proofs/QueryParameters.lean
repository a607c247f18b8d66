import IoTGateway.Proofs.QueryScan

/-! The scanner on named parameters. A well-formed query is read back exactly;
a bare name takes the value of the next `=`, in whichever segment it stands. -/

namespace IoTGateway.Proofs.QueryParameters
open QueryScan

def name (segment : Bytes) : Bytes := Delimited.before equals segment

structure IsName (key : Bytes) : Prop where
  named : key ≠ []
  clean : amp ∉ key
  whole : equals ∉ key

def encodeParam (pair : Bytes × Bytes) : Bytes := pair.1 ++ equals :: pair.2

/-- `k1=v1&k2=v2&...&kn=vn`. -/
def encodeQuery (pairs : List (Bytes × Bytes)) : Bytes := [amp].intercalate (pairs.map encodeParam)

theorem name_append {key : Bytes} (whole : equals ∉ key) (value : Bytes) : name (key ++ equals :: value) = key :=
  Delimited.before_marked whole

theorem segment_name (segment : Bytes) :
    (equals ∉ segment ∧ name segment = segment) ∨ ∃ value, segment = name segment ++ equals :: value := by
  rcases Delimited.first_mark equals segment with bare | ⟨key, value, whole, rfl⟩
  · exact Or.inl ⟨bare, Delimited.before_unmarked bare⟩
  · exact Or.inr ⟨value, by rw [name_append whole]⟩

section
variable {key : Bytes} (whole : equals ∉ key)

include whole in
theorem answers_name (segment : Bytes) : answers key segment = (name segment == key) := by
  rw [Bool.eq_iff_iff]
  simp only [answers, Bool.or_eq_true, beq_iff_eq, List.isPrefixOf_iff_prefix]
  constructor
  · intro answered
    rcases answered with rfl | ⟨value, rfl⟩
    · exact Delimited.before_unmarked whole
    · simpa using name_append whole value
  · intro same
    rcases segment_name segment with ⟨_, bare⟩ | ⟨value, split⟩
    · exact Or.inl (bare ▸ same)
    · exact Or.inr ⟨value, by rw [split, same]; simp⟩

include whole in
/-- The first segment of the name decides, through its own value if it has one
and through the later segments if it does not. -/
theorem answer_first {earlier later : List Bytes} {segment : Bytes} (absent : ∀ other ∈ earlier, name other ≠ key)
    (found : name segment = key) : answer key (earlier ++ segment :: later) =
      (true, if equals ∈ segment then Delimited.after equals segment else firstValue later) := by
  induction earlier with
  | nil =>
    have answered : answers key segment = true := by simp [answers_name whole, found]
    simp only [List.nil_append, answer, answered, ite_true, Prod.mk.injEq, true_and]
    rcases segment_name segment with ⟨bare, same⟩ | ⟨value, split⟩
    · obtain rfl : segment = key := same ▸ found
      simp [bare, firstValue]
    · obtain rfl : segment = key ++ equals :: value := found ▸ split
      simp [firstValue, Delimited.after_marked whole, Delimited.after_mark]
  | cons other earlier ih =>
    have silent : answers key other = false := by simpa [answers_name whole] using absent other List.mem_cons_self
    simpa [answer, silent] using ih (fun other member => absent other (List.mem_cons_of_mem _ member))

include whole in
private theorem answer_absent {segments : List Bytes} (absent : ∀ other ∈ segments, name other ≠ key) :
    answer key segments = (false, []) := by
  induction segments with
  | nil => rfl
  | cons other later ih =>
    have silent : answers key other = false := by simpa [answers_name whole] using absent other List.mem_cons_self
    simpa [answer, silent] using ih (fun other member => absent other (List.mem_cons_of_mem _ member))

end

theorem splitOn_encodeQuery {pairs : List (Bytes × Bytes)} (some : pairs ≠ [])
    (names : ∀ pair ∈ pairs, IsName pair.1) (values : ∀ pair ∈ pairs, amp ∉ pair.2) :
    (encodeQuery pairs).splitOn amp = pairs.map encodeParam := by
  refine List.splitOn_intercalate amp ?_ (by simpa using some)
  intro segment member
  obtain ⟨pair, among, rfl⟩ := List.mem_map.mp member
  simp [encodeParam, (names pair among).clean, values pair among, show amp ≠ equals by decide]

private theorem answer_encodeParam {pairs : List (Bytes × Bytes)} {key : Bytes} (whole : equals ∉ key)
    (names : ∀ pair ∈ pairs, IsName pair.1) :
    answer key (pairs.map encodeParam) = ((pairs.lookup key).isSome, (pairs.lookup key).getD []) := by
  induction pairs with
  | nil => rfl
  | cons pair pairs ih =>
    have later := ih (fun other member => names other (List.mem_cons_of_mem _ member))
    obtain ⟨first, value⟩ := pair
    have wholeFirst := (names _ List.mem_cons_self).whole
    by_cases same : key = first
    · subst same
      have here : answer key ([] ++ (key ++ equals :: value) :: pairs.map encodeParam) = _ :=
        answer_first whole (by simp) (name_append wholeFirst value)
      simpa [encodeParam, Delimited.after_marked wholeFirst] using here
    · have silent : answers key (first ++ equals :: value) = false := by
        simpa [answers_name whole, name_append wholeFirst] using Ne.symm same
      simp [encodeParam, answer, silent, List.lookup_cons, beq_eq_false_iff_ne.mpr same, later]

/-- What the encoder wrote the scanner finds: the value of the first pair with
the key, and nothing for any other key. -/
theorem parseParam_encodeQuery (pairs : List (Bytes × Bytes)) (names : ∀ pair ∈ pairs, IsName pair.1)
    (values : ∀ pair ∈ pairs, amp ∉ pair.2) (key : Bytes) (isName : IsName key) :
    ∃ result, parseParam key (encodeQuery pairs) = .ok ((pairs.lookup key).isSome, result) ∧
      Covers (encodeQuery pairs) result ((pairs.lookup key).getD []) := by
  have read : answer key ((encodeQuery pairs).splitOn amp) =
      ((pairs.lookup key).isSome, (pairs.lookup key).getD []) := by
    cases pairs with
    | nil => exact answer_absent isName.whole (by simpa [encodeQuery, name, Delimited.before] using isName.named.symm)
    | cons pair pairs =>
      rw [splitOn_encodeQuery (by simp) names values]
      exact answer_encodeParam isName.whole names
  obtain ⟨result, scanned, covers⟩ : ∃ result, parseParam key (encodeQuery pairs) = _ ∧ Covers _ result _ :=
    parseParam_answer isName.named fun member => absurd member isName.clean
  rw [read] at scanned covers
  exact ⟨result, scanned, covers⟩

/-- The keys `e` and `epx` and the `ep=9` inside a value do not answer to `ep`. -/
theorem parseParam_prefix_related : ∃ result,
    parseParam (ascii "ep") (encodeQuery [(ascii "e", ascii "1"), (ascii "epx", ascii "ep=9"), (ascii "ep", ascii "n1")]) =
      .ok (true, result) ∧
    Covers (encodeQuery [(ascii "e", ascii "1"), (ascii "epx", ascii "ep=9"), (ascii "ep", ascii "n1")]) result (ascii "n1") :=
  parseParam_encodeQuery [(ascii "e", ascii "1"), (ascii "epx", ascii "ep=9"), (ascii "ep", ascii "n1")]
    (by simpa using ⟨⟨by decide, by decide, by decide⟩, ⟨by decide, by decide, by decide⟩, ⟨by decide, by decide, by decide⟩⟩)
    (by decide) (ascii "ep") ⟨by decide, by decide, by decide⟩

/-- The first segment named `key` is the same in both texts, and so is
everything before it. -/
structure AgreeThrough (key first second segment : Bytes) (later others : List Bytes) : Prop where
  found : name segment = key
  split : ∃ earlier, (∀ other ∈ earlier, name other ≠ key) ∧
    first.splitOn amp = earlier ++ segment :: later ∧ second.splitOn amp = earlier ++ segment :: others

theorem AgreeThrough.symm {key first second segment later others}
    (agree : AgreeThrough key first second segment later others) :
    AgreeThrough key second first segment others later := by
  obtain ⟨earlier, absent, left, right⟩ := agree.split
  exact ⟨agree.found, earlier, absent, right, left⟩

theorem AgreeThrough.readParam {key first second segment later others} (isName : IsName key)
    (agree : AgreeThrough key first second segment later others) : readParam key first =
      .ok (true, if equals ∈ segment then Delimited.after equals segment else firstValue later) := by
  obtain ⟨earlier, absent, split, _⟩ := agree.split
  rw [readParam_answer isName.named (fun member => absurd member isName.clean), split,
    answer_first isName.whole absent agree.found]

/-- The later segments have no say exactly when the parameter has its own `=`,
or when the first `=` in them is followed by the same value on both sides. A
bare parameter is read as empty exactly when that value is empty. -/
theorem readParam_agree_iff {key first second segment : Bytes} {later others : List Bytes} (isName : IsName key)
    (agree : AgreeThrough key first second segment later others) :
    (readParam key first = readParam key second ↔ equals ∈ segment ∨ firstValue later = firstValue others) ∧
    (equals ∉ segment → (readParam key first = .ok (true, []) ↔ firstValue later = [])) := by
  rw [agree.readParam isName, agree.symm.readParam isName]
  by_cases own : equals ∈ segment <;> simp [own]

private theorem bare_agree :
    AgreeThrough (ascii "ep") (ascii "ep&d=x") (ascii "ep&d=y") (ascii "ep") [ascii "d=x"] [ascii "d=y"] :=
  ⟨by decide, [], by simp, by decide, by decide⟩

theorem readParam_agree_bare :
    (readParam (ascii "ep") (ascii "ep&d=x") = readParam (ascii "ep") (ascii "ep&d=y") ↔
      equals ∈ ascii "ep" ∨ firstValue [ascii "d=x"] = firstValue [ascii "d=y"]) ∧
    (equals ∉ ascii "ep" → (readParam (ascii "ep") (ascii "ep&d=x") = .ok (true, []) ↔ firstValue [ascii "d=x"] = [])) :=
  readParam_agree_iff ⟨by decide, by decide, by decide⟩ bare_agree

/-- The domain becomes the endpoint name of a client that sent a bare `ep`. -/
theorem readParam_leaks :
    AgreeThrough (ascii "ep") (ascii "ep&d=x") (ascii "ep&d=y") (ascii "ep") [ascii "d=x"] [ascii "d=y"] ∧
      readParam (ascii "ep") (ascii "ep&d=x") = .ok (true, ascii "x") ∧
      readParam (ascii "ep") (ascii "ep&d=y") = .ok (true, ascii "y") :=
  ⟨bare_agree, by decide, by decide⟩

end IoTGateway.Proofs.QueryParameters
