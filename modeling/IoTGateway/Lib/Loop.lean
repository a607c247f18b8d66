import Mathlib.Logic.Basic

/-! While loops over a fallible body. The fuel only bounds the recursion: the
rules below show how much of it an invariant and a falling rank need. -/

namespace Loops

/-- `while (guard) { body }` with both parts in one function: `.inl` goes round
again, `.inr` leaves the loop. `none` reports that the fuel ran out. -/
def iterate (body : σ → Except ε (σ ⊕ ρ)) : Nat → σ → Except ε (Option ρ)
  | 0, _ => .ok none
  | fuel + 1, state =>
    match body state with
    | .error fault => .error fault
    | .ok (.inr result) => .ok (some result)
    | .ok (.inl next) => iterate body fuel next

/-- What one round must establish: it never faults, a further round keeps the
invariant at a smaller rank, and leaving the loop gives the postcondition. -/
def Advances (body : σ → Except ε (σ ⊕ ρ)) (invariant : σ → Prop) (post : ρ → Prop) (rank : σ → Nat) : Prop :=
  ∀ state, invariant state →
    (∃ next, body state = .ok (.inl next) ∧ invariant next ∧ rank next < rank state) ∨
    (∃ result, body state = .ok (.inr result) ∧ post result)

/-- Total correctness: enough fuel for the rank gives a result, and the result
satisfies the postcondition. -/
theorem iterate_total {body : σ → Except ε (σ ⊕ ρ)} {invariant : σ → Prop} {post : ρ → Prop} {rank : σ → Nat}
    (advances : Advances body invariant post rank) (fuel : Nat) (state : σ)
    (holds : invariant state) (enough : rank state < fuel) :
    ∃ result, iterate body fuel state = .ok (some result) ∧ post result := by
  induction fuel generalizing state with
  | zero => omega
  | succ fuel ih =>
    rcases advances state holds with ⟨next, again, kept, smaller⟩ | ⟨result, leaves, done⟩
    · obtain ⟨result, finished, done⟩ := ih next kept (by omega)
      exact ⟨result, by simp only [iterate, again, finished], done⟩
    · exact ⟨result, by simp only [iterate, leaves], done⟩

/-- Partial correctness: what every round keeps can be told of the result. -/
theorem iterate_keeps {body : σ → Except ε (σ ⊕ ρ)} {invariant : σ → Prop} {post : ρ → Prop}
    (keeps : ∀ state next, invariant state → body state = .ok (.inl next) → invariant next)
    (leaves : ∀ state result, invariant state → body state = .ok (.inr result) → post result)
    {fuel : Nat} {state : σ} {result : ρ} (holds : invariant state)
    (finished : iterate body fuel state = .ok (some result)) : post result := by
  induction fuel generalizing state with
  | zero => cases finished
  | succ fuel ih =>
    rw [iterate] at finished
    split at finished
    · cases finished
    next left =>
      cases finished
      exact leaves _ _ holds left
    next again => exact ih (keeps _ _ holds again) finished

/-- The states in which the guard is evaluated when the loop is entered at `start`. -/
inductive Visits (body : σ → Except ε (σ ⊕ ρ)) (start : σ) : σ → Prop where
  | start : Visits body start start
  | again {state next} (visited : Visits body start state) (round : body state = .ok (.inl next)) :
      Visits body start next

theorem Advances.visits {body : σ → Except ε (σ ⊕ ρ)} {invariant : σ → Prop} {post : ρ → Prop} {rank : σ → Nat}
    (advances : Advances body invariant post rank) {start state : σ} (holds : invariant start)
    (visited : Visits body start state) : invariant state := by
  induction visited with
  | start => exact holds
  | again visited round ih =>
    rcases advances _ ih with ⟨next, again, kept, _⟩ | ⟨result, leaves, _⟩
    · rw [again] at round
      cases round
      exact kept
    · rw [leaves] at round
      cases round

end Loops
