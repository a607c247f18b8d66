import IoTGateway.Lib.Refinement

/-! Parties that share a machine. A party sees some events and some view of the
state; it is isolated from the others if what they do never shows in its view,
and its own events are answered from the view alone. -/

namespace Isolations
open Refinements

variable {τ : Type u} {ε : Type v} {ρ : Type w} {ν : Type x}

structure Isolated (spec : τ → ε → ρ → τ → Prop) (concerns : ε → Bool) (view : τ → ν) : Prop where
  others : ∀ {state event response next}, concerns event = false → spec state event response next →
    view next = view state
  own : ∀ {state event response next other reply after}, concerns event = true → spec state event response next →
    spec other event reply after → view state = view other → response = reply ∧ view next = view after

/-- What a party takes part in. -/
def share (concerns : ε → Bool) (history : List (ε × ρ)) : List (ε × ρ) := history.filter (concerns ·.1)

variable {spec : τ → ε → ρ → τ → Prop} {concerns : ε → Bool} {view : τ → ν}

theorem share_step (history : List (ε × ρ)) (event : ε) (response : ρ) :
    share concerns (history ++ [(event, response)]) =
    if concerns event then share concerns history ++ [(event, response)] else share concerns history := by
  cases concerned : concerns event <;> simp [share, concerned]

theorem share_events (history : List (ε × ρ)) :
    (share concerns history).map Prod.fst = (history.map Prod.fst).filter concerns := by
  rw [share, List.filter_map]
  rfl

theorem Isolated.untouched (isolated : Isolated spec concerns view) {start state : τ} {history : List (ε × ρ)}
    (trace : Trace spec start history state) (none : share concerns history = []) : view state = view start := by
  induction trace with
  | start => rfl
  | step trace allowed ih =>
    rw [share_step] at none
    split at none
    next => simp at none
    next foreign =>
      have same := isolated.others (Bool.eq_false_iff.mpr foreign) allowed
      exact same.trans (ih none)

/-- Where a party took its last step, and that its view is still the same. -/
theorem Isolated.last (isolated : Isolated spec concerns view) {start state : τ} {history : List (ε × ρ)}
    (trace : Trace spec start history state) {earlier : List ε} {event : ε}
    (ends : (share concerns history).map Prod.fst = earlier ++ [event]) :
    ∃ before past response after, Trace spec start past before ∧ spec before event response after ∧
      (share concerns past).map Prod.fst = earlier ∧ share concerns history = share concerns past ++ [(event, response)] ∧
      view state = view after := by
  induction trace with
  | start => simp [share] at ends
  | @step past before newest response next trace allowed ih =>
    rw [share_step] at ends ⊢
    split at ends
    next concerned =>
      rw [List.map_append] at ends
      obtain ⟨same, rfl⟩ : (share concerns past).map Prod.fst = earlier ∧ newest = event := by
        simpa using List.append_inj' ends rfl
      exact ⟨before, past, response, next, trace, allowed, same, if_pos concerned, rfl⟩
    next foreign =>
      obtain ⟨middle, before, answer, after, first, taken, same, history, kept⟩ := ih ends
      have still := isolated.others (Bool.eq_false_iff.mpr foreign) allowed
      exact ⟨middle, before, answer, after, first, taken, same, by rw [if_neg foreign, history], still.trans kept⟩

/-- Two traces in which a party does the same: it is answered the same and ends
with the same view, whatever the others do in either. -/
theorem Isolated.agree (isolated : Isolated spec concerns view) {start state other : τ} {first second : List (ε × ρ)}
    (trace : Trace spec start first state) (another : Trace spec start second other)
    (same : (share concerns first).map Prod.fst = (share concerns second).map Prod.fst) :
    share concerns first = share concerns second ∧ view state = view other := by
  induction trace generalizing second other with
  | start =>
    have none : share concerns second = [] := by simpa [share] using same.symm
    exact ⟨none.symm, (isolated.untouched another none).symm⟩
  | @step past before event response next trace allowed ih =>
    rw [share_step] at same ⊢
    cases concerned : concerns event with
    | false =>
      simp only [concerned, Bool.false_eq_true, ite_false] at same ⊢
      obtain ⟨histories, views⟩ := ih another same
      exact ⟨histories, (isolated.others concerned allowed).trans views⟩
    | true =>
      simp only [concerned, ite_true, List.map_append] at same ⊢
      obtain ⟨middle, earlier, reply, after, reached, taken, asked, ends, kept⟩ := isolated.last another same.symm
      obtain ⟨histories, views⟩ := ih reached asked.symm
      obtain ⟨rfl, alike⟩ := isolated.own concerned allowed taken views
      exact ⟨by rw [histories, ends], alike.trans kept.symm⟩

end Isolations
