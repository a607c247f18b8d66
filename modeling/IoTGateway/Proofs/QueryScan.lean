import IoTGateway.Lib.Delimited
import IoTGateway.Query

/-! What the scanner computes, segment by segment. The pointer and the
remaining length stay in step except when the text is used up, which is why
`Aligned` says nothing about the pointer there. -/

namespace IoTGateway.Proofs.QueryScan

def answers (key segment : Bytes) : Bool := segment == key || (key ++ [equals]).isPrefixOf segment

/-- The first value that starts at or after the given place: the scan for `=`
does not stop at the end of a segment. -/
def firstValue (segments : List Bytes) : Bytes :=
  match segments.find? (equals ∈ ·) with
  | some segment => Delimited.after equals segment
  | none => []

/-- The flag and the value the scanner reports for the segments of a text. -/
def answer (key : Bytes) : List Bytes → Bool × Bytes
  | [] => (false, [])
  | segment :: later =>
    if answers key segment then (true, firstValue (segment.drop key.length :: later)) else answer key later

/-- The cursor stands at the suffix `rest` of `buf`. Once nothing is left the
length says so, and the pointer is not used any more. -/
structure Aligned (buf : Bytes) (cursor : Cursor) (rest : Bytes) : Prop where
  length : cursor.dataLen = rest.length
  place : rest ≠ [] → ∃ before, buf = before ++ rest ∧ before.length = cursor.data

theorem Aligned.initial (buf : Bytes) : Aligned buf ⟨0, buf.length⟩ buf := ⟨rfl, fun _ => ⟨[], rfl, rfl⟩⟩

theorem Aligned.read {buf cursor byte rest} (aligned : Aligned buf cursor (byte :: rest)) :
    readByte buf cursor.data = .ok byte := by
  obtain ⟨before, rfl, place⟩ := aligned.place (by simp)
  simp [readByte, ← place]

theorem Aligned.past {buf cursor front rest} (aligned : Aligned buf cursor (front ++ rest)) :
    Aligned buf ⟨cursor.data + front.length, cursor.dataLen - front.length⟩ rest := by
  refine ⟨by simp [aligned.length], ?_⟩
  intro more
  obtain ⟨before, rfl, place⟩ := aligned.place (by simp [more])
  exact ⟨before ++ front, by simp, by simp [place]⟩

theorem Aligned.next {buf data len byte rest} (aligned : Aligned buf ⟨data, len + 1⟩ (byte :: rest)) :
    Aligned buf ⟨data + 1, len⟩ rest :=
  have behind : Aligned buf ⟨data, len + 1⟩ ([byte] ++ rest) := aligned
  behind.past

private theorem memcmp_aligned (search : Bytes) {buf cursor rest} (aligned : Aligned buf cursor rest)
    (fits : search.length ≤ rest.length) : memcmp search buf cursor.data = .ok (search.isPrefixOf rest) := by
  induction search generalizing cursor rest with
  | nil => simp [memcmp]
  | cons byte search ih =>
    cases rest with
    | nil => simp at fits
    | cons other rest =>
      obtain ⟨data, len⟩ := cursor
      obtain rfl : len = rest.length + 1 := aligned.length
      have later := ih aligned.next (by simpa using fits)
      simp [memcmp, aligned.read, later, List.isPrefixOf]

private theorem seekEquals_aligned {buf rest data} (aligned : Aligned buf ⟨data, rest.length⟩ rest) :
    ∃ cursor, seekEquals buf data rest.length = .ok cursor ∧
      Aligned buf cursor (rest.dropWhile (· != equals)) := by
  induction rest generalizing data with
  | nil => exact ⟨⟨data, 0⟩, rfl, aligned⟩
  | cons byte rest ih =>
    simp only [List.length_cons, seekEquals, aligned.read, ok_bind]
    by_cases found : byte = equals
    · subst found
      exact ⟨⟨data, rest.length + 1⟩, by simp, by simpa using aligned⟩
    · obtain ⟨cursor, reached, kept⟩ := ih aligned.next
      exact ⟨cursor, by simpa [found] using reached, by simpa [found] using kept⟩

private theorem skipSegment_cons {buf byte rest data} (aligned : Aligned buf ⟨data, rest.length + 1⟩ (byte :: rest)) :
    ∃ cursor, skipSegment buf data (rest.length + 1) = .ok cursor ∧
      Aligned buf cursor (Delimited.after amp (byte :: rest)) := by
  induction rest generalizing byte data with
  | nil =>
    have spent : Delimited.after amp [byte] = [] := by
      by_cases found : byte = amp <;> simp [Delimited.after, found]
    exact ⟨⟨data, 0⟩, rfl, by rw [spent]; exact ⟨rfl, by simp⟩⟩
  | cons other rest ih =>
    simp only [List.length_cons, skipSegment, aligned.read, ok_bind]
    by_cases found : byte = amp
    · subst found
      exact ⟨⟨data + 1, rest.length + 1⟩, by simp, by simpa [Delimited.after] using aligned.next⟩
    · obtain ⟨cursor, reached, kept⟩ := ih aligned.next
      exact ⟨cursor, by simpa [found] using reached, by simpa [Delimited.after, found] using kept⟩

private theorem skipSegment_aligned {buf cursor rest} (aligned : Aligned buf cursor rest) (more : rest ≠ []) :
    ∃ next, skipSegment buf cursor.data cursor.dataLen = .ok next ∧
      Aligned buf next (Delimited.after amp rest) ∧ next.dataLen < cursor.dataLen := by
  obtain ⟨data, len⟩ := cursor
  obtain rfl : len = rest.length := aligned.length
  obtain ⟨byte, rest, rfl⟩ := List.exists_cons_of_ne_nil more
  obtain ⟨next, reached, kept⟩ := skipSegment_cons aligned
  exact ⟨next, reached, kept, by simpa [kept.length] using Delimited.length_after_lt amp more⟩

private theorem valueLength_aligned {buf rest data} (length : Nat) (aligned : Aligned buf ⟨data, rest.length⟩ rest) :
    valueLength buf data length (rest.length + 1) = .ok (length + (Delimited.before amp rest).length) := by
  induction rest generalizing data length with
  | nil => rfl
  | cons byte rest ih =>
    simp only [List.length_cons, valueLength, aligned.read, ok_bind]
    by_cases found : byte = amp
    · simp [Delimited.before, found]
    · simp only [found, beq_iff_eq, ite_false, ih (length + 1) aligned.next, Delimited.before, bne_iff_ne, ne_eq,
        not_false_eq_true, List.takeWhile_cons_of_pos, List.length_cons]
      congr 1
      omega

/-- The slice covers exactly `bytes`; an empty slice may have no start. -/
structure Covers (buf : Bytes) (slice : Str) (bytes : Bytes) : Prop where
  length : slice.length = bytes.length
  content : bytes ≠ [] → slice.assign buf = .ok bytes

theorem Aligned.covers {buf cursor rest bytes} (aligned : Aligned buf cursor rest) (front : bytes <+: rest) :
    Covers buf ⟨some cursor.data, bytes.length⟩ bytes := by
  refine ⟨rfl, ?_⟩
  intro more
  have left : rest ≠ [] := fun empty => more (List.prefix_nil.mp (empty ▸ front))
  obtain ⟨before, rfl, place⟩ := aligned.place left
  have inside := front.length_le
  simp only [Str.assign, ← place, List.length_append, Nat.add_le_add_left inside, ite_true, List.drop_left,
    ← List.prefix_iff_eq_take.mp front]

def Inside (buf : Bytes) (slice : Str) : Prop :=
  match slice.s with
  | none => slice.length = 0
  | some start => start + slice.length ≤ buf.length

theorem Aligned.inside {buf cursor rest bytes} (aligned : Aligned buf cursor rest) (more : rest ≠ [])
    (front : bytes <+: rest) : Inside buf ⟨some cursor.data, bytes.length⟩ := by
  obtain ⟨before, rfl, place⟩ := aligned.place more
  have fits := front.length_le
  simp only [Inside, ← place, List.length_append]
  omega

private theorem readValue_aligned {buf cursor rest} (aligned : Aligned buf cursor rest) :
    ∃ slice, readValue buf cursor = .ok slice ∧ Inside buf slice ∧
      Covers buf slice (Delimited.before amp (Delimited.after equals rest)) := by
  obtain ⟨data, len⟩ := cursor
  obtain rfl : len = rest.length := aligned.length
  obtain ⟨mark, reached, kept⟩ := seekEquals_aligned aligned
  simp only [readValue, reached, ok_bind, Delimited.after]
  cases left : rest.dropWhile (· != equals) with
  | nil =>
    rw [left] at kept
    exact ⟨{}, by simp [kept.length], rfl, ⟨rfl, by simp⟩⟩
  | cons byte text =>
    rw [left] at kept
    obtain ⟨place, left⟩ := mark
    obtain rfl : left = text.length + 1 := kept.length
    have behind := kept.next
    cases text with
    | nil => exact ⟨{}, by simp, rfl, ⟨rfl, by simp⟩⟩
    | cons first text =>
      have scanned : valueLength buf (place + 1) 0 (text.length + 1 + 1) = _ := valueLength_aligned 0 behind
      rw [Nat.zero_add] at scanned
      have front : Delimited.before amp (first :: text) <+: first :: text := List.takeWhile_prefix _
      exact ⟨⟨some (place + 1), (Delimited.before amp (first :: text)).length⟩, by simp [scanned],
        behind.inside (by simp) front, behind.covers front⟩

private theorem firstValue_segments (text : Bytes) :
    Delimited.before amp (Delimited.after equals text) = firstValue (text.splitOn amp) := by
  induction text using Delimited.segments_induction amp with
  | last segment absent =>
    rw [List.splitOn_eq_singleton absent]
    rcases Delimited.first_mark equals segment with bare | ⟨key, value, clean, rfl⟩
    · simp [firstValue, bare]
    · have absent : amp ∉ value := fun member => absent (by simp [member])
      simp [firstValue, clean, absent]
  | more segment rest absent ih =>
    rw [List.splitOn_append_cons_self_of_not_mem absent]
    rcases Delimited.first_mark equals segment with bare | ⟨key, value, clean, rfl⟩
    · rw [Delimited.after_append bare, Delimited.after_cons_of_ne (by decide), ih]
      simp [firstValue, bare]
    · have absent : amp ∉ value := fun member => absent (by simp [member])
      simp [firstValue, clean, absent]

def ends : Bytes → Bool
  | [] => true
  | byte :: _ => byte == equals || byte == amp

private theorem endsKey_aligned {buf past tail} (aligned : Aligned buf past tail) :
    endsKey buf past = .ok (ends tail) := by
  cases tail with
  | nil => simp [endsKey, aligned.length, ends]
  | cons byte tail => simp [endsKey, aligned.length, aligned.read, ends]

section
variable {key : Bytes} (named : key ≠ []) (clean : amp ∉ key)

include named in
private theorem answer_empty : answer key [[]] = (false, []) := by
  cases key with
  | nil => exact absurd rfl named
  | cons byte key => rfl

private theorem answers_append (tail : Bytes) (absent : amp ∉ tail) : answers key (key ++ tail) = ends tail := by
  cases tail with
  | nil => simp [answers, ends]
  | cons byte tail =>
    have different : byte ≠ amp := fun same => absent (by simp [same])
    have prefixed : (key ++ [equals]).isPrefixOf (key ++ byte :: tail) = (byte == equals) := by
      rw [Bool.eq_iff_iff, List.isPrefixOf_iff_prefix, List.prefix_append_right_inj, List.cons_prefix_cons]
      simp only [List.nil_prefix, and_true, beq_iff_eq]
      exact eq_comm
    have longer : (key ++ byte :: tail == key) = false := beq_eq_false_iff_ne.mpr (by simp)
    simp [answers, ends, prefixed, longer, different]

private theorem key_of_answers {segment : Bytes} (found : answers key segment = true) : key <+: segment := by
  simp only [answers, Bool.or_eq_true, beq_iff_eq, List.isPrefixOf_iff_prefix] at found
  rcases found with rfl | longer
  · exact List.prefix_refl _
  · exact (List.prefix_append key [equals]).trans longer

include named clean in
theorem answer_key (tail : Bytes) : answer key ((key ++ tail).splitOn amp) =
    if ends tail then (true, firstValue (tail.splitOn amp)) else answer key ((Delimited.after amp tail).splitOn amp) := by
  rcases Delimited.first_mark amp tail with absent | ⟨piece, rest, absent, rfl⟩
  · have whole : amp ∉ key ++ tail := by simp [clean, absent]
    rw [List.splitOn_eq_singleton whole, List.splitOn_eq_singleton absent, Delimited.after_unmarked absent]
    simp [answer, answers_append tail absent, answer_empty named]
  · have whole : amp ∉ key ++ piece := by simp [clean, absent]
    have last : ends (piece ++ amp :: rest) = ends piece := by
      cases piece <;> simp [ends]
    rw [← List.append_assoc, List.splitOn_append_cons_self_of_not_mem whole,
      List.splitOn_append_cons_self_of_not_mem absent, Delimited.after_marked absent, last]
    simp [answer, answers_append piece absent]

include named in
private theorem answer_miss {text : Bytes} (missing : ¬ key <+: text) :
    answer key (text.splitOn amp) = answer key ((Delimited.after amp text).splitOn amp) := by
  rcases Delimited.first_mark amp text with absent | ⟨segment, rest, absent, rfl⟩
  · have silent : answers key text = false := by
      simpa using fun found => missing (key_of_answers found)
    rw [List.splitOn_eq_singleton absent, Delimited.after_unmarked absent]
    simp [answer, silent, answer_empty named]
  · have silent : answers key segment = false := by
      simpa using fun found => missing ((key_of_answers found).trans (List.prefix_append _ _))
    rw [List.splitOn_append_cons_self_of_not_mem absent, Delimited.after_marked absent]
    simp [answer, silent]

private theorem answer_short (text : Bytes) (short : text.length < key.length) :
    answer key (text.splitOn amp) = (false, []) := by
  have silent (segment : Bytes) (shorter : segment.length < key.length) : answers key segment = false := by
    rw [Bool.eq_false_iff]
    intro found
    have := (key_of_answers found).length_le
    omega
  induction text using Delimited.segments_induction amp with
  | last segment absent =>
    rw [List.splitOn_eq_singleton absent]
    simp [answer, silent segment short]
  | more segment rest absent ih =>
    simp only [List.length_append, List.length_cons] at short
    rw [List.splitOn_append_cons_self_of_not_mem absent]
    simp [answer, silent segment (by omega), ih (by omega)]

include named in
/-- What one round of the outer loop can do at the suffix `rest`: stop because
the key no longer fits, report a key that ends where it should, or move to the
next segment, from behind a partial match or from the cursor. -/
theorem parseParamRound_cases {buf cursor rest} (aligned : Aligned buf cursor rest) :
    (rest.length < key.length ∧ parseParamRound key buf cursor = .ok (.inr (false, {}))) ∨
    (∃ tail slice, rest = key ++ tail ∧ ends tail = true ∧ parseParamRound key buf cursor = .ok (.inr (true, slice)) ∧
      Inside buf slice ∧ Covers buf slice (Delimited.before amp (Delimited.after equals tail))) ∨
    (∃ next later, parseParamRound key buf cursor = .ok (.inl next) ∧ Aligned buf next later ∧
      next.dataLen < cursor.dataLen ∧
      ((∃ tail, rest = key ++ tail ∧ ends tail = false ∧ later = Delimited.after amp tail) ∨
        (¬ key <+: rest ∧ later = Delimited.after amp rest))) := by
  have length := aligned.length
  unfold parseParamRound
  by_cases fits : key.length ≤ rest.length
  · simp only [length, fits, ite_true, memcmp_aligned key aligned fits, ok_bind]
    by_cases starts : key <+: rest
    · obtain ⟨tail, rfl⟩ := starts
      have past := aligned.past
      have elsewhere : cursor.dataLen - key.length < cursor.dataLen := by
        have := List.length_pos_iff.mpr named
        omega
      simp only [List.isPrefixOf_iff_prefix.mpr (List.prefix_append key tail), ite_true, ← length,
        endsKey_aligned past, ok_bind]
      cases finished : ends tail with
      | true =>
        obtain ⟨slice, read, inside, covers⟩ := readValue_aligned past
        exact Or.inr (Or.inl ⟨tail, slice, rfl, finished, by simp [read], inside, covers⟩)
      | false =>
        have more : tail ≠ [] := by
          intro empty
          simp [empty, ends] at finished
        obtain ⟨next, reached, kept, smaller⟩ := skipSegment_aligned past more
        exact Or.inr (Or.inr ⟨next, _, by simp [reached], kept, smaller.trans elsewhere,
          Or.inl ⟨tail, rfl, finished, rfl⟩⟩)
    · have more : rest ≠ [] := by
        intro empty
        apply named
        exact List.length_eq_zero_iff.mp (by simpa [empty] using fits)
      obtain ⟨next, reached, kept, smaller⟩ := skipSegment_aligned aligned more
      rw [length] at reached
      exact Or.inr (Or.inr ⟨next, _, by simp [starts, reached], kept, by omega, Or.inr ⟨starts, rfl⟩⟩)
  · exact Or.inl ⟨by omega, by simp [length, fits]⟩

include named in
/-- A key that holds `&` is only ever compared with text that holds none. -/
theorem parseParamRound_advances {buf : Bytes} (clean : amp ∈ key → amp ∉ buf) (target : Bool × Bytes) :
    Loops.Advances (parseParamRound key buf)
      (fun cursor => ∃ rest, Aligned buf cursor rest ∧ answer key (rest.splitOn amp) = target)
      (fun result => result.1 = target.1 ∧ Covers buf result.2 target.2) Cursor.dataLen := by
  intro cursor aligned
  obtain ⟨rest, aligned, rfl⟩ := aligned
  have cleanAt (tail : Bytes) (split : rest = key ++ tail) : amp ∉ key := by
    intro member
    obtain ⟨front, whole, _⟩ := aligned.place (by simp [split, named])
    exact clean member (by simp [whole, split, member])
  rcases parseParamRound_cases named aligned with ⟨short, stops⟩ | ⟨tail, slice, rfl, finished, reports, _, covers⟩ |
    ⟨next, later, goesOn, kept, smaller, moved⟩
  · rw [answer_short rest short]
    exact Or.inr ⟨_, stops, rfl, rfl, by simp⟩
  · rw [answer_key named (cleanAt tail rfl), finished]
    exact Or.inr ⟨_, reports, rfl, by simpa [firstValue_segments] using covers⟩
  · refine Or.inl ⟨next, goesOn, ⟨later, kept, ?_⟩, smaller⟩
    rcases moved with ⟨tail, rfl, unfinished, rfl⟩ | ⟨missing, rfl⟩
    · rw [answer_key named (cleanAt tail rfl), unfinished, if_neg Bool.false_ne_true]
    · exact (answer_miss named missing).symm

include named in
/-- The scanner returns for every option, and reports what its segments answer. -/
theorem parseParam_answer {data : Bytes} (clean : amp ∈ key → amp ∉ data) : ∃ slice,
    parseParam key data = .ok ((answer key (data.splitOn amp)).1, slice) ∧
      Covers data slice (answer key (data.splitOn amp)).2 := by
  have somewhere : key.length ≠ 0 := by simpa using named
  obtain ⟨⟨found, slice⟩, returned, rfl, covers⟩ := Loops.iterate_total
    (parseParamRound_advances named clean _) (data.length + 1) ⟨0, data.length⟩
    ⟨data, .initial data, rfl⟩ (Nat.lt_succ_self _)
  exact ⟨slice, by simp [parseParam, somewhere, returned], covers⟩

include named in
theorem readParam_answer {data : Bytes} (clean : amp ∈ key → amp ∉ data) :
    readParam key data = .ok (answer key (data.splitOn amp)) := by
  obtain ⟨slice, returned, covers⟩ := parseParam_answer named clean
  have length := covers.length
  simp only [readParam, returned, ok_bind]
  cases answered : answer key (data.splitOn amp) with
  | mk found value =>
    rw [answered] at length covers
    by_cases empty : value = []
    · simp [length, empty]
    · have positive := List.length_pos_iff.mpr empty
      simp [length, positive, covers.content empty]

end

end IoTGateway.Proofs.QueryScan
