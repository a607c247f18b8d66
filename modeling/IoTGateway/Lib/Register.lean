import Mathlib.Data.List.Nodup
import Mathlib.Data.List.Induction

/-! Registers that are searched under the key of an event and written under a
normal form of it. The entries are the events that found none; the register is
a map from keys exactly when every key was in normal form already. -/

namespace Registers

variable {ε : Type u} {κ : Type v} [DecidableEq κ] (asked : ε → κ) (norm : κ → κ)

/-- The events that make an entry, in order. -/
def made (events : List ε) : List ε :=
  events.foldl (fun made event => if asked event ∈ made.map fun other => norm (asked other) then made
    else made ++ [event]) []

def stored (events : List ε) : List κ := (made asked norm events).map fun event => norm (asked event)

@[simp] theorem made_nil : made asked norm [] = [] := rfl

theorem made_append (events : List ε) (event : ε) : made asked norm (events ++ [event]) =
    if asked event ∈ stored asked norm events then made asked norm events else made asked norm events ++ [event] := by
  simp [made, stored]

theorem stored_append (events : List ε) (event : ε) : stored asked norm (events ++ [event]) =
    if asked event ∈ stored asked norm events then stored asked norm events
    else stored asked norm events ++ [norm (asked event)] := by
  unfold stored
  rw [made_append]
  split <;> simp_all [stored]

theorem made_sublist (events : List ε) : (made asked norm events).Sublist events := by
  induction events using List.reverseRecOn with
  | nil => exact List.Sublist.refl _
  | append_singleton events event ih =>
    rw [made_append]
    split
    · exact ih.trans (List.sublist_append_left events [event])
    · exact ih.append (List.Sublist.refl _)

theorem made_prefix (events later : List ε) : made asked norm events <+: made asked norm (events ++ later) := by
  induction later using List.reverseRecOn with
  | nil => simp
  | append_singleton later event ih =>
    rw [← List.append_assoc, made_append]
    split
    · exact ih
    · exact ih.trans (List.prefix_append _ _)

theorem stored_origin {events : List ε} {key : κ} (member : key ∈ stored asked norm events) :
    ∃ event ∈ events, norm (asked event) = key := by
  obtain ⟨event, among, same⟩ := List.mem_map.mp member
  exact ⟨event, (made_sublist asked norm events).subset among, same⟩

section
variable {norm} (idempotent : ∀ key, norm (norm key) = norm key)

include idempotent in
theorem normal_of_stored {events : List ε} {key : κ} (member : key ∈ stored asked norm events) : norm key = key := by
  obtain ⟨event, _, rfl⟩ := stored_origin asked norm member
  exact idempotent _

include idempotent in
theorem norm_mem_stored {events : List ε} {event : ε} (member : event ∈ events) :
    norm (asked event) ∈ stored asked norm events := by
  induction events using List.reverseRecOn with
  | nil => exact absurd member List.not_mem_nil
  | append_singleton events last ih =>
    rw [stored_append]
    rcases List.mem_append.mp member with earlier | now
    · split
      · exact ih earlier
      · exact List.mem_append_left _ (ih earlier)
    · obtain rfl : event = last := by simpa using now
      split
      next found => rwa [normal_of_stored asked idempotent found]
      next => exact List.mem_append_right _ List.mem_cons_self

include idempotent in
/-- The entry first found under a key was made by the first event with that
normal form. -/
theorem find_made (events : List ε) (key : κ) :
    (made asked norm events).find? (fun event => norm (asked event) = key) =
      events.find? (fun event => norm (asked event) = key) := by
  induction events using List.reverseRecOn with
  | nil => rfl
  | append_singleton events event ih =>
    rw [made_append]
    split
    next found =>
      rw [List.find?_append, ih]
      cases earlier : events.find? (fun event => norm (asked event) = key) with
      | some first => rfl
      | none =>
        -- the entry that was found is one of the earlier events
        obtain ⟨origin, among, same⟩ := stored_origin asked norm found
        have different : norm (asked event) ≠ key := by
          rw [normal_of_stored asked idempotent found, ← same]
          simpa using List.find?_eq_none.mp earlier origin among
        simp [different]
    next => rw [List.find?_append, List.find?_append, ih]

include idempotent in
/-- Every key that was used is found again exactly when all keys are normal. -/
theorem covered_iff_normal (events : List ε) :
    (∀ event ∈ events, asked event ∈ stored asked norm events) ↔ ∀ event ∈ events, norm (asked event) = asked event := by
  constructor
  · exact fun covered event member => normal_of_stored asked idempotent (covered event member)
  · exact fun normal event member => normal event member ▸ norm_mem_stored asked idempotent member

end

theorem stored_nodup {events : List ε} (normal : ∀ event ∈ events, norm (asked event) = asked event) :
    (stored asked norm events).Nodup := by
  induction events using List.reverseRecOn with
  | nil => exact List.nodup_nil
  | append_singleton events last ih =>
    have earlier := ih fun event member => normal event (List.mem_append_left _ member)
    rw [stored_append]
    split
    · exact earlier
    next absent =>
      rw [normal last (List.mem_append_right _ List.mem_cons_self)]
      refine List.nodup_append.mpr ⟨earlier, List.nodup_singleton _, ?_⟩
      intro key member other now same
      apply absent
      rwa [same, List.mem_singleton.mp now] at member

end Registers
