import Mathlib.Algebra.GroupWithZero.Nat
import Mathlib.Data.List.Basic

/-! Queues in which each entry keeps the time that has to pass after the entry
before it. Decoded, the times are sorted, the head comes off with its own time,
and insertion puts an entry behind all that are not later. -/

namespace DeltaQueues

variable {α : Type u}

def due : Nat → List (Nat × α) → List (Nat × α)
  | _, [] => []
  | base, (delta, item) :: rest => (base + delta, item) :: due (base + delta) rest

/-- What is left behind a head that is taken off: the new head takes over its
time. -/
def raise (delta : Nat) : List (Nat × α) → List (Nat × α)
  | [] => []
  | (later, item) :: rest => (later + delta, item) :: rest

/-- Insertion of an entry whose time is counted like that of the head. -/
def insert (entry : Nat × α) : List (Nat × α) → List (Nat × α)
  | [] => [entry]
  | (delta, item) :: rest =>
    if entry.1 < delta then entry :: (delta - entry.1, item) :: rest
    else (delta, item) :: insert (entry.1 - delta, entry.2) rest

theorem due_items (base : Nat) (queue : List (Nat × α)) : (due base queue).map Prod.snd = queue.map Prod.snd := by
  induction queue generalizing base with
  | nil => rfl
  | cons entry rest ih => simp [due, ih]

theorem due_raise (base delta : Nat) (rest : List (Nat × α)) :
    due base (raise delta rest) = due (base + delta) rest := by
  cases rest with
  | nil => rfl
  | cons entry rest =>
    simp only [raise, due]
    rw [show base + (entry.1 + delta) = base + delta + entry.1 by omega]

theorem due_sorted (base : Nat) (queue : List (Nat × α)) :
    (∀ entry ∈ due base queue, base ≤ entry.1) ∧ (due base queue).Pairwise fun first second => first.1 ≤ second.1 := by
  induction queue generalizing base with
  | nil => simp [due]
  | cons entry rest ih =>
    obtain ⟨later, sorted⟩ := ih (base + entry.1)
    refine ⟨?_, List.pairwise_cons.mpr ⟨later, sorted⟩⟩
    intro other member
    rcases List.mem_cons.mp member with rfl | behind
    · exact Nat.le_add_right _ _
    · exact Nat.le_trans (Nat.le_add_right _ _) (later other behind)

/-- Insertion adds one entry and moves none in time. -/
theorem due_insert (base : Nat) (entry : Nat × α) (queue : List (Nat × α)) :
    (due base (insert entry queue)).Perm ((base + entry.1, entry.2) :: due base queue) := by
  induction queue generalizing base entry with
  | nil => exact List.Perm.refl _
  | cons head rest ih =>
    unfold insert
    split
    next earlier =>
      simp only [due]
      rw [show base + entry.1 + (head.1 - entry.1) = base + head.1 by omega]
    next later =>
      have moved := ih (base + head.1) (entry.1 - head.1, entry.2)
      rw [show base + head.1 + (entry.1 - head.1) = base + entry.1 by omega] at moved
      exact (moved.cons _).trans (List.Perm.swap _ _ _)

/-- The sum of the deltas is the time of the last entry. -/
def span (queue : List (Nat × α)) : Nat := (queue.map Prod.fst).sum

theorem span_raise (delta : Nat) {rest : List (Nat × α)} (some : rest ≠ []) :
    span (raise delta rest) = delta + span rest := by
  cases rest with
  | nil => exact absurd rfl some
  | cons entry rest => simp [raise, span]; omega

theorem span_insert (entry : Nat × α) (queue : List (Nat × α)) :
    span (insert entry queue) = max entry.1 (span queue) := by
  induction queue generalizing entry with
  | nil => simp [insert, span]
  | cons head rest ih =>
    unfold insert
    split
    next earlier => simp [span]; omega
    next later =>
      have := ih (entry.1 - head.1, entry.2)
      simp only [span, List.map_cons, List.sum_cons] at this ⊢
      omega

end DeltaQueues
