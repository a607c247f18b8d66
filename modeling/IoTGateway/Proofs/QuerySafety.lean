import IoTGateway.Proofs.QueryScan

/-! `parse_param` stays inside the option whatever its two texts hold. Here no
key is taken for well formed: one with `&` or `=` in it is scanned like any other. -/

namespace IoTGateway.Proofs.QuerySafety
open QueryScan

/-- The outer condition is evaluated with the scanner's variables at `cursor`. -/
def AtOuterCondition (search data : Bytes) (cursor : Cursor) : Prop :=
  search ≠ [] ∧ Loops.Visits (parseParamRound search data) ⟨0, data.length⟩ cursor

/-- What memory safety and termination of the scan amount to: a fault would be
a read outside the data, a length below zero or a loop without end. -/
structure ScannedSafely (search data : Bytes) : Prop where
  returns : ∃ found slice, parseParam search data = .ok (found, slice) ∧ Inside data slice
  suffix : ∀ cursor, AtOuterCondition search data cursor → 0 < cursor.dataLen →
    cursor.data + cursor.dataLen = data.length

private theorem suffix_of_aligned {buf cursor rest} (aligned : Aligned buf cursor rest) (more : 0 < cursor.dataLen) :
    cursor.data + cursor.dataLen = buf.length := by
  rw [aligned.length] at more ⊢
  obtain ⟨before, rfl, place⟩ := aligned.place (List.length_pos_iff.mp more)
  rw [List.length_append, place]

theorem parseParamRound_safe {search : Bytes} (named : search ≠ []) (data : Bytes) :
    Loops.Advances (parseParamRound search data) (fun cursor => ∃ rest, Aligned data cursor rest)
      (fun result => Inside data result.2) Cursor.dataLen := by
  intro cursor placed
  obtain ⟨rest, aligned⟩ := placed
  rcases parseParamRound_cases named aligned with ⟨_, stops⟩ | ⟨_, slice, _, _, reports, inside, _⟩ |
    ⟨next, later, goesOn, kept, smaller, _⟩
  · exact Or.inr ⟨_, stops, rfl⟩
  · exact Or.inr ⟨_, reports, inside⟩
  · exact Or.inl ⟨next, goesOn, ⟨later, kept⟩, smaller⟩

/-- The scan of any data for any key is safe and ends. -/
theorem parseParam_safe (search data : Bytes) : ScannedSafely search data := by
  by_cases named : search = []
  · subst named
    exact ⟨⟨false, {}, rfl, rfl⟩, fun cursor visited => absurd rfl visited.1⟩
  · have advances := parseParamRound_safe named data
    have entered : ∃ rest, Aligned data ⟨0, data.length⟩ rest := ⟨data, .initial data⟩
    constructor
    · obtain ⟨answer, returned, inside⟩ :=
        Loops.iterate_total advances (data.length + 1) ⟨0, data.length⟩ entered (Nat.lt_succ_self _)
      exact ⟨answer.1, answer.2, by simp [parseParam, named, returned], inside⟩
    · intro cursor visited more
      obtain ⟨rest, aligned⟩ := advances.visits entered visited.2
      exact suffix_of_aligned aligned more

end IoTGateway.Proofs.QuerySafety
