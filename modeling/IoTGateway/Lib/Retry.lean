import Mathlib.Algebra.GroupWithZero.Nat
import Mathlib.Data.List.Perm.Basic
import Mathlib.Data.List.Nodup

/-! Queues that serve what is ready and may put it back. What becomes of an item
depends on the item alone, so a whole run serves, in some order, what the items
would be served one by one. -/

namespace Retries

/-- When an item is ready, and what serving it puts back. Every return costs
some of a budget, so no item comes back for ever. -/
structure Policy (α : Type u) where
  ready : α → Bool
  again : α → Option α
  budget : α → Nat
  spends : ∀ {item next}, again item = some next → budget next < budget item

variable {α : Type u} {κ : Type v} (policy : Policy α)

namespace Policy

/-- The servings of one item, in its successive forms. -/
def servings (item : α) : List α :=
  if policy.ready item then
    match _ : policy.again item with
    | none => [item]
    | some next => item :: servings next
  else []
termination_by policy.budget item
decreasing_by exact policy.spends ‹_›

def remains (item : α) : List α :=
  if policy.ready item then
    match _ : policy.again item with
    | none => []
    | some next => remains next
  else [item]
termination_by policy.budget item
decreasing_by exact policy.spends ‹_›

theorem servings_ready {item : α} (ready : policy.ready item = true) :
    policy.servings item = item :: (policy.again item).toList.flatMap policy.servings := by
  rw [servings, if_pos ready]
  split <;> simp [*]

theorem remains_ready {item : α} (ready : policy.ready item = true) :
    policy.remains item = (policy.again item).toList.flatMap policy.remains := by
  rw [remains, if_pos ready]
  split <;> simp [*]

theorem servings_waiting {item : α} (waiting : policy.ready item = false) : policy.servings item = [] := by
  rw [servings, if_neg (by simp [waiting])]

theorem remains_waiting {item : α} (waiting : policy.ready item = false) : policy.remains item = [item] := by
  rw [remains, if_neg (by simp [waiting])]

def weight (items : List α) : Nat := (items.map fun item => policy.budget item + 1).sum

/-- Nothing is lost or made up: what was served and what the queue still has to
give account for what the items at the start will be served and leave. -/
structure Accounts (start items served : List α) : Prop where
  served : (served ++ items.flatMap policy.servings).Perm (start.flatMap policy.servings)
  kept : (items.flatMap policy.remains).Perm (start.flatMap policy.remains)

theorem Accounts.initial (start : List α) : policy.Accounts start start [] := ⟨List.Perm.refl _, List.Perm.refl _⟩

variable {policy}

theorem Accounts.serve {start served rest items : List α} {item : α}
    (accounts : policy.Accounts start (item :: rest) served) (ready : policy.ready item = true)
    (put : items.Perm ((policy.again item).toList ++ rest)) : policy.Accounts start items (served ++ [item]) := by
  have servings := put.flatMap_right policy.servings
  have remains := put.flatMap_right policy.remains
  rw [List.flatMap_append] at servings remains
  constructor
  · refine List.Perm.trans ?_ accounts.served
    rw [List.flatMap_cons, servings_ready policy ready, List.append_assoc, List.singleton_append, List.cons_append]
    exact (servings.cons item).append_left served
  · refine List.Perm.trans ?_ accounts.kept
    rw [List.flatMap_cons, remains_ready policy ready]
    exact remains

theorem weight_serve {rest items : List α} {item : α} (put : items.Perm ((policy.again item).toList ++ rest)) :
    policy.weight items < policy.weight (item :: rest) := by
  have same : policy.weight items = policy.weight ((policy.again item).toList ++ rest) := (put.map _).sum_nat
  rw [same]
  cases back : policy.again item with
  | none => simp [weight]
  | some next =>
    have := policy.spends back
    simp [weight]
    omega

theorem Accounts.finish {start served items : List α} (accounts : policy.Accounts start items served)
    (waiting : ∀ item ∈ items, policy.ready item = false) :
    served.Perm (start.flatMap policy.servings) ∧ items.Perm (start.flatMap policy.remains) := by
  have none : items.flatMap policy.servings = [] :=
    List.flatMap_eq_nil_iff.mpr fun item member => servings_waiting policy (waiting item member)
  have all : items.flatMap policy.remains = items := by
    rw [List.flatMap_congr fun item member => remains_waiting policy (waiting item member)]
    exact List.flatMap_singleton' items
  exact ⟨by simpa [none] using accounts.served, by simpa [all] using accounts.kept⟩

end Policy

/-- The servings after which an item does not come back. -/
def Policy.last (served : List α) : List α := served.filter fun item => (policy.again item).isNone

variable {policy}

/-- However far the serving has come: every name is still queued or its item was
served for the last time, and the rounds come out of the budget. -/
structure Policy.Balance (policy : Policy α) (name : α → κ) (start items served : List α) : Prop where
  names : (items.map name ++ (policy.last served).map name).Perm (start.map name)
  rounds : served.length + policy.weight items ≤ policy.weight start

theorem Policy.Balance.initial (name : α → κ) (start : List α) : policy.Balance name start start [] :=
  ⟨by simp [Policy.last], by simp⟩

theorem Policy.Balance.serve {name : α → κ} {start served rest items : List α} {item : α}
    (balance : policy.Balance name start (item :: rest) served)
    (keeps : ∀ {next}, policy.again item = some next → name next = name item)
    (put : items.Perm ((policy.again item).toList ++ rest)) : policy.Balance name start items (served ++ [item]) := by
  constructor
  · have named := (put.map name).append_right ((policy.last (served ++ [item])).map name)
    refine (named.trans ?_).trans balance.names
    cases back : policy.again item with
    | none =>
      simp only [Policy.last, List.filter_append, List.filter_singleton, back, Option.isNone_none, cond_true,
        Option.toList_none, List.nil_append, List.map_append, List.map_cons, List.map_nil, List.cons_append]
      rw [← List.append_assoc]
      exact List.perm_append_singleton _ _
    | some next =>
      simp [Policy.last, List.filter_append, back, keeps back]
  · have lighter := Policy.weight_serve put
    have bound := balance.rounds
    rw [List.length_append, List.length_singleton]
    omega

section
variable (name : α → κ)

/-- Items with different names, listed some number of times each. -/
def copies (times : α → Nat) (items : List α) : List κ :=
  items.flatMap fun item => List.replicate (times item) (name item)

theorem map_servings {policy : Policy α} (keeps : ∀ {item next}, policy.again item = some next → name next = name item)
    (item : α) : (policy.servings item).map name = List.replicate (policy.servings item).length (name item) := by
  induction item using Policy.servings.induct policy with
  | case1 item ready none => simp [policy.servings_ready ready, none]
  | case2 item ready next back ih => simp [policy.servings_ready ready, back, ih, keeps back, List.replicate_succ]
  | case3 item waiting => simp [policy.servings_waiting (by simpa using waiting)]

theorem copies_filter (wanted : α → Bool) (items : List α) :
    copies name (fun item => if wanted item then 1 else 0) items = (items.filter wanted).map name := by
  induction items with
  | nil => rfl
  | cons item items ih =>
    simp only [copies, List.flatMap_cons] at ih ⊢
    cases chosen : wanted item <;> simp [chosen, ih]

variable [DecidableEq κ]

theorem count_copies {items : List α} (distinct : (items.map name).Nodup) (times : α → Nat) {item : α}
    (member : item ∈ items) : (copies name times items).count (name item) = times item := by
  induction items with
  | nil => exact absurd member List.not_mem_nil
  | cons head rest ih =>
    obtain ⟨apart, distinct⟩ := List.nodup_cons.mp distinct
    have here : (copies name times (head :: rest)).count (name item) =
        (if name head = name item then times head else 0) + (copies name times rest).count (name item) := by
      simp [copies, List.count_replicate]
    rw [here]
    rcases List.mem_cons.mp member with rfl | later
    · have none : (copies name times rest).count (name item) = 0 := by
        rw [List.count_eq_zero]
        intro among
        simp only [copies, List.mem_flatMap, List.mem_replicate] at among
        obtain ⟨other, inside, _, same⟩ := among
        exact apart (List.mem_map.mpr ⟨other, inside, same.symm⟩)
      simp [none]
    · have different : name head ≠ name item := fun same => apart (List.mem_map.mpr ⟨item, later, same.symm⟩)
      rw [if_neg different, ih distinct later, Nat.zero_add]

theorem copies_perm {items : List α} (distinct : (items.map name).Nodup) (first second : α → Nat) :
    (copies name first items).Perm (copies name second items) ↔ ∀ item ∈ items, first item = second item := by
  constructor
  · intro perm item member
    rw [← count_copies name distinct first member, ← count_copies name distinct second member]
    exact perm.count_eq _
  · intro same
    have equal : copies name first items = copies name second items :=
      List.flatMap_congr fun item member => by rw [same item member]
    rw [equal]

end

end Retries
