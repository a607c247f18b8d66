import Mathlib.Data.List.Induction

/-! Machines whose labels name the choice made, of a party or of its scheduler:
a label that is not enabled leads nowhere. Interleavings are the paths of such a
machine, and a condition on its steps is a machine with fewer of them. -/

namespace Transitions

variable {σ : Type u} {α : Type v} {step : σ → α → Option σ} {start : σ}

inductive Path (step : σ → α → Option σ) (start : σ) : List α → σ → Prop where
  | start : Path step start [] start
  | step {labels state label next} (path : Path step start labels state) (taken : step state label = some next) :
      Path step start (labels ++ [label]) next

def Keeps (step : σ → α → Option σ) (invariant : σ → Prop) : Prop :=
  ∀ state label next, invariant state → step state label = some next → invariant next

theorem Path.invariant {invariant : σ → Prop} {labels state} (path : Path step start labels state)
    (keeps : Keeps step invariant) (initial : invariant start) : invariant state := by
  induction path with
  | start => exact initial
  | step path taken ih => exact keeps _ _ _ ih taken

/-- A path on which every state has the property, its ends included. -/
inductive Throughout (property : σ → Prop) (step : σ → α → Option σ) (start : σ) : List α → σ → Prop where
  | start (holds : property start) : Throughout property step start [] start
  | step {labels state label next} (path : Throughout property step start labels state)
      (taken : step state label = some next) (holds : property next) :
      Throughout property step start (labels ++ [label]) next

def restrict (condition : σ → α → Bool) (step : σ → α → Option σ) (state : σ) (label : α) : Option σ :=
  if condition state label then step state label else none

theorem restrict_some {condition : σ → α → Bool} {state label next} :
    restrict condition step state label = some next ↔ condition state label = true ∧ step state label = some next := by
  simp [restrict]

theorem Path.throughout {property : σ → Prop} {condition : σ → α → Bool} {labels state}
    (path : Path (Transitions.restrict condition step) start labels state)
    (holds : ∀ labels state, Path (Transitions.restrict condition step) start labels state → property state) :
    Throughout property step start labels state := by
  induction path with
  | start => exact .start (holds _ _ .start)
  | step path taken ih => exact ih.step (restrict_some.mp taken).2 (holds _ _ (path.step taken))

theorem Throughout.path {property : σ → Prop} {labels state}
    (throughout : Throughout property step start labels state) : Path step start labels state := by
  induction throughout with
  | start => exact .start
  | step _ taken _ ih => exact ih.step taken

/-- Where a step against the condition dooms the path, and no good step saves a
doomed one, good paths meet the condition unless they end in doom. -/
theorem Throughout.restrict {property doomed : σ → Prop} {condition : σ → α → Bool} {labels state}
    (throughout : Throughout property step start labels state)
    (breaks : ∀ labels state label next, Path step start labels state → step state label = some next →
      property next → condition state label = false → doomed next)
    (keeps : ∀ labels state label next, Path step start labels state → step state label = some next →
      property next → doomed state → doomed next) :
    Path (Transitions.restrict condition step) start labels state ∨ doomed state := by
  induction throughout with
  | start => exact .inl .start
  | @step labels state label next path taken holds ih =>
    rcases ih with restricted | doom
    · cases met : condition state label with
      | true => exact .inl (restricted.step (restrict_some.mpr ⟨met, taken⟩))
      | false => exact .inr (breaks labels state label next path.path taken holds met)
    · exact .inr (keeps labels state label next path.path taken holds doom)

def run (step : σ → α → Option σ) (start : σ) (labels : List α) : Option σ := labels.foldlM step start

theorem path_of_run {labels : List α} {state : σ} (reached : run step start labels = some state) :
    Path step start labels state := by
  induction labels using List.reverseRecOn generalizing state with
  | nil =>
    cases reached
    exact .start
  | append_singleton labels label ih =>
    rw [run, List.foldlM_append] at reached
    cases before : run step start labels with
    | none =>
      rw [run] at before
      simp [before] at reached
    | some middle =>
      have taken : step middle label = some state := by
        rw [run] at before
        simpa [before] using reached
      exact (ih before).step taken

end Transitions
