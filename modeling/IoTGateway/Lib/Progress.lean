import Mathlib.Algebra.GroupWithZero.Nat
import IoTGateway.Lib.Transition

/-! Machines that come to an end: a measure that some enabled step always lowers
leads to the goal, and a measure that every step spends from bounds how many
steps there can be. -/

namespace Transitions

variable {σ : Type u} {α : Type v} {step : σ → α → Option σ}

theorem Path.trans {start middle last : σ} {first second : List α} (path : Path step start first middle)
    (rest : Path step middle second last) : Path step start (first ++ second) last := by
  induction rest with
  | start => simpa using path
  | step rest taken ih =>
    rw [← List.append_assoc]
    exact ih.step taken

theorem path_single {state next : σ} {label : α} (taken : step state label = some next) :
    Path step state [label] next :=
  Path.start.step taken

/-- Short of the goal, a step that lowers the measure is enabled. -/
def Progresses (step : σ → α → Option σ) (invariant goal : σ → Prop) (measure : σ → Nat) : Prop :=
  ∀ state, invariant state → ¬ goal state → ∃ label next, step state label = some next ∧ measure next < measure state

theorem Progresses.reaches {invariant goal : σ → Prop} {measure : σ → Nat}
    (progresses : Progresses step invariant goal measure) (keeps : Keeps step invariant) {state : σ}
    (holds : invariant state) : ∃ labels last, Path step state labels last ∧ goal last ∧
      labels.length + measure last ≤ measure state := by
  generalize bound : measure state = limit
  induction limit using Nat.strongRecOn generalizing state with
  | ind limit ih =>
    by_cases done : goal state
    · exact ⟨[], state, .start, done, by simp [bound]⟩
    · obtain ⟨label, next, taken, lower⟩ := progresses state holds done
      obtain ⟨labels, last, path, reached, short⟩ :=
        ih (measure next) (bound ▸ lower) (keeps state label next holds taken) rfl
      refine ⟨label :: labels, last, (path_single taken).trans path, reached, ?_⟩
      rw [List.length_cons]
      omega

/-- What the steps of a path cost is paid from the measure and from what they
bring in. -/
theorem Path.budget {invariant : σ → Prop} {measure : σ → Nat} {cost gain : α → Nat} {start state : σ} {labels : List α}
    (path : Path step start labels state) (keeps : Keeps step invariant) (initial : invariant start)
    (spends : ∀ state label next, invariant state → step state label = some next →
      measure next + cost label ≤ measure state + gain label) :
    measure state + (labels.map cost).sum ≤ measure start + (labels.map gain).sum := by
  induction path with
  | start => simp
  | @step labels state label next path taken ih =>
    have spent := spends state label next (path.invariant keeps initial) taken
    simp only [List.map_append, List.map_cons, List.map_nil, List.sum_append, List.sum_cons, List.sum_nil]
    omega

end Transitions
