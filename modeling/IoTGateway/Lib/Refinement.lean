import IoTGateway.Lib.History

/-! Specifications as relations: they may leave an answer open. A machine
implements one along an abstraction if it allows all that the machine does. -/

namespace Refinements

variable {σ : Type u} {τ : Type t} {ε : Type v} {ρ : Type w} {φ : Type x}

/-- `Trace spec start history state`: the specification allows the answers of
`history`, and `state` after them. -/
inductive Trace (spec : τ → ε → ρ → τ → Prop) (start : τ) : List (ε × ρ) → τ → Prop where
  | start : Trace spec start [] start
  | step {history state event response next} (trace : Trace spec start history state)
      (allowed : spec state event response next) : Trace spec start (history ++ [(event, response)]) next

def Implements (step : σ → ε → Except φ (ρ × σ)) (spec : τ → ε → ρ → τ → Prop) (abstraction : σ → τ → Prop) : Prop :=
  ∀ concrete abstract event response next, abstraction concrete abstract →
    step concrete event = .ok (response, next) →
      ∃ after, spec abstract event response after ∧ abstraction next after

theorem Implements.trace {step : σ → ε → Except φ (ρ × σ)} {spec : τ → ε → ρ → τ → Prop} {abstraction : σ → τ → Prop}
    (implements : Implements step spec abstraction) {start state : σ} {initial : τ} {history : List (ε × ρ)}
    (run : Histories.Run step start history state) (related : abstraction start initial) :
    ∃ abstract, Trace spec initial history abstract ∧ abstraction state abstract := by
  induction run with
  | start => exact ⟨initial, .start, related⟩
  | step run answered ih =>
    obtain ⟨abstract, trace, related⟩ := ih
    obtain ⟨after, allowed, related⟩ := implements _ _ _ _ _ related answered
    exact ⟨after, trace.step allowed, related⟩

end Refinements
