import Mathlib.Data.List.TakeWhile

/-! Text cut at a delimiter. `List.splitOn` gives the segments; here are the
recursion over them that a scanner follows byte by byte, and the parts of a text
before and after its first mark. -/

namespace Delimited

variable {α : Type u} [BEq α] [LawfulBEq α] {mark : α}

theorem first_mark (mark : α) (text : List α) :
    mark ∉ text ∨ ∃ piece rest, mark ∉ piece ∧ text = piece ++ mark :: rest := by
  by_cases found : mark ∈ text
  · obtain ⟨piece, rest, split, absent⟩ := List.eq_append_cons_of_mem found
    exact Or.inr ⟨piece, rest, absent, split⟩
  · exact Or.inl found

theorem segments_induction (mark : α) {motive : List α → Prop} (last : ∀ segment, mark ∉ segment → motive segment)
    (more : ∀ segment rest, mark ∉ segment → motive rest → motive (segment ++ mark :: rest))
    (text : List α) : motive text := by
  rcases first_mark mark text with absent | ⟨segment, rest, absent, rfl⟩
  · exact last text absent
  · exact more segment rest absent (segments_induction mark last more rest)
termination_by text.length

/-- What stands before the first mark, the whole text when there is none. -/
def before (mark : α) (text : List α) : List α := text.takeWhile (· != mark)

/-- What stands after the first mark, nothing when there is none. -/
def after (mark : α) (text : List α) : List α := (text.dropWhile (· != mark)).tail

private theorem bne_of_absent {piece : List α} (absent : mark ∉ piece) : ∀ item ∈ piece, (item != mark) = true := by
  intro item member
  have different : item ≠ mark := fun same => absent (same ▸ member)
  simpa using different

@[simp] theorem before_marked {piece rest : List α} (absent : mark ∉ piece) :
    before mark (piece ++ mark :: rest) = piece := by
  simp [before, List.takeWhile_append_of_pos (bne_of_absent absent)]

@[simp] theorem after_marked {piece rest : List α} (absent : mark ∉ piece) :
    after mark (piece ++ mark :: rest) = rest := by
  simp [after, List.dropWhile_append_of_pos (bne_of_absent absent)]

@[simp] theorem before_unmarked {text : List α} (absent : mark ∉ text) : before mark text = text :=
  List.takeWhile_eq_self_iff.mpr (bne_of_absent absent)

@[simp] theorem after_unmarked {text : List α} (absent : mark ∉ text) : after mark text = [] := by
  simp [after, List.dropWhile_eq_nil_iff.mpr (bne_of_absent absent)]

theorem after_mark (mark : α) (rest : List α) : after mark (mark :: rest) = rest := by simp [after]

theorem after_append {piece : List α} (absent : mark ∉ piece) (rest : List α) :
    after mark (piece ++ rest) = after mark rest := by
  simp [after, List.dropWhile_append_of_pos (bne_of_absent absent)]

theorem after_cons_of_ne {item : α} (different : item ≠ mark) (rest : List α) :
    after mark (item :: rest) = after mark rest := by
  simp [after, different]

theorem not_mem_before (mark : α) (text : List α) : mark ∉ before mark text := by
  intro member
  simpa using List.mem_takeWhile_imp member

theorem length_after_lt (mark : α) {text : List α} (some : text ≠ []) : (after mark text).length < text.length := by
  rcases first_mark mark text with absent | ⟨piece, rest, absent, rfl⟩
  · simpa [absent] using List.length_pos_iff.mpr some
  · simp [absent]
    omega

end Delimited
