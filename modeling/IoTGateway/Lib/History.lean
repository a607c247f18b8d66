import Mathlib.Data.List.Induction

/-! Runs of a deterministic machine that answers every event or faults, with
the induction rules that carry a fact about one step to whole histories. -/

namespace Histories

variable {σ : Type u} {ε : Type v} {ρ : Type w} {φ : Type x} {step : σ → ε → Except φ (ρ × σ)} {start : σ}

/-- `Run step start history state`: from `start` the events of `history`, each
answered by the response beside it, lead to `state`. -/
inductive Run (step : σ → ε → Except φ (ρ × σ)) (start : σ) : List (ε × ρ) → σ → Prop where
  | start : Run step start [] start
  | step {history state event response next} (run : Run step start history state)
      (answered : step state event = .ok (response, next)) :
      Run step start (history ++ [(event, response)]) next

/-- Every event is answered from a state that satisfies the invariant, and the
invariant survives the answer. -/
def Preserves (step : σ → ε → Except φ (ρ × σ)) (invariant : σ → Prop) : Prop :=
  ∀ state event, invariant state → ∃ response next, step state event = .ok (response, next) ∧ invariant next

theorem Run.invariant {invariant : σ → Prop} {history state} (run : Run step start history state)
    (preserves : Preserves step invariant) (initial : invariant start) : invariant state := by
  induction run with
  | start => exact initial
  | step run answered ih =>
    obtain ⟨response, next, taken, kept⟩ := preserves _ _ ih
    rw [answered] at taken
    cases taken
    exact kept

/-- Every entry of a history is an answer given in a state with the invariant. -/
theorem Run.answered {invariant : σ → Prop} {history state} (run : Run step start history state)
    (preserves : Preserves step invariant) (initial : invariant start) {event response}
    (member : (event, response) ∈ history) :
    ∃ before after, invariant before ∧ step before event = .ok (response, after) := by
  induction run with
  | start => exact absurd member List.not_mem_nil
  | step run answered ih =>
    rcases List.mem_append.mp member with earlier | last
    · exact ih earlier
    · obtain ⟨rfl, rfl⟩ := Prod.mk.inj (List.mem_singleton.mp last)
      exact ⟨_, _, run.invariant preserves initial, answered⟩

theorem Run.exists {invariant : σ → Prop} (preserves : Preserves step invariant) (initial : invariant start)
    (events : List ε) : ∃ history state, Run step start history state ∧ history.map Prod.fst = events := by
  induction events using List.reverseRecOn with
  | nil => exact ⟨[], start, .start, rfl⟩
  | append_singleton events event ih =>
    obtain ⟨history, state, run, same⟩ := ih
    obtain ⟨response, next, answered, _⟩ := preserves state event (run.invariant preserves initial)
    exact ⟨_, next, run.step answered, by simp [same]⟩

theorem Run.last {history event response state} (run : Run step start (history ++ [(event, response)]) state) :
    ∃ middle, Run step start history middle ∧ step middle event = .ok (response, state) := by
  generalize whole : history ++ [(event, response)] = events at run
  cases run with
  | start => simp at whole
  | @step earlier middle last reply next run answered =>
    obtain ⟨rfl, same⟩ := List.append_inj' whole rfl
    cases same
    exact ⟨middle, run, answered⟩

/-- Every cut through a history is itself a run, and the rest is a run from
the state reached there. -/
theorem Run.cut {earlier later state} (run : Run step start (earlier ++ later) state) :
    ∃ middle, Run step start earlier middle ∧ Run step middle later state := by
  induction later using List.reverseRecOn generalizing state with
  | nil => exact ⟨state, by simpa using run, .start⟩
  | append_singleton later last ih =>
    rw [← List.append_assoc] at run
    obtain ⟨before, run, answered⟩ := run.last
    obtain ⟨middle, first, rest⟩ := ih run
    exact ⟨middle, first, rest.step answered⟩

/-- A reflexive and transitive relation that holds across every step holds
between any two states of a run. -/
theorem Run.related {invariant : σ → Prop} {related : σ → σ → Prop} {history state}
    (run : Run step start history state) (preserves : Preserves step invariant) (initial : invariant start)
    (refl : ∀ state, related state state)
    (trans : ∀ {a b c}, related a b → related b c → related a c)
    (steps : ∀ {state event response next}, invariant state → step state event = .ok (response, next) →
      related state next) : related start state := by
  induction run with
  | start => exact refl _
  | step run answered ih => exact trans ih (steps (run.invariant preserves initial) answered)

end Histories
