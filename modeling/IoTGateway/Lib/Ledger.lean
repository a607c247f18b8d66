import Mathlib.Data.List.Induction
import IoTGateway.Lib.Retry

/-! The book kept over a whole run of a queue that takes in items all the time,
serves them and puts them back: what was taken in, what is still held, and the
servings so far. Every item goes through its forms in order, each served once. -/

namespace Retries

variable {α : Type u} {κ : Type v}

/-- The forms an item goes through if it is served again and again. -/
def Policy.forms (policy : Policy α) (item : α) : List α :=
  match _ : policy.again item with
  | none => [item]
  | some next => item :: policy.forms next
termination_by policy.budget item
decreasing_by exact policy.spends ‹_›

theorem Policy.forms_eq (policy : Policy α) (item : α) :
    policy.forms item = item :: (policy.again item).toList.flatMap policy.forms := by
  rw [forms]
  split <;> simp [*]

variable [DecidableEq κ] (policy : Policy α) (name : α → κ)

/-- An item is held in the form that comes after those that were served, or it is
gone and was served in all its forms. -/
def Stands (held served : List α) (item : α) : Prop :=
  (∃ now ∈ held, name now = name item ∧
    policy.forms item = served.filter (name · = name item) ++ policy.forms now) ∨
  (name item ∉ held.map name ∧ policy.forms item = served.filter (name · = name item))

structure Ledger (taken held served : List α) : Prop where
  balance : policy.Balance name taken held served
  known : ∀ item ∈ served, name item ∈ taken.map name
  stands : ∀ item ∈ taken, Stands policy name held served item

variable {policy name} {taken held served : List α}

theorem Ledger.initial (start : List α) : Ledger policy name start start [] where
  balance := .initial name start
  known := by simp
  stands item member := Or.inl ⟨item, member, rfl, by simp⟩

theorem Ledger.perm (ledger : Ledger policy name taken held served) {others : List α} (perm : held.Perm others) :
    Ledger policy name taken others served := by
  refine ⟨⟨?_, ?_⟩, ledger.known, ?_⟩
  · exact ((perm.map name).symm.append_right _).trans ledger.balance.names
  · have same : policy.weight others = policy.weight held := (perm.symm.map _).sum_nat
    rw [same]
    exact ledger.balance.rounds
  · intro item member
    rcases ledger.stands item member with ⟨now, inside, same, forms⟩ | ⟨gone, forms⟩
    · exact Or.inl ⟨now, perm.subset inside, same, forms⟩
    · exact Or.inr ⟨fun among => gone ((perm.map name).symm.subset among), forms⟩

/-- An item with a new name is taken in. -/
theorem Ledger.take (ledger : Ledger policy name taken held served) {item : α} (fresh : name item ∉ taken.map name) :
    Ledger policy name (taken ++ [item]) (held ++ [item]) served := by
  refine ⟨⟨?_, ?_⟩, ?_, ?_⟩
  · rw [List.map_append, List.map_append, List.append_assoc]
    refine (List.Perm.append_left _ List.perm_append_comm).trans ?_
    rw [← List.append_assoc]
    exact ledger.balance.names.append_right _
  · have rounds := ledger.balance.rounds
    simp only [Policy.weight, List.map_append, List.sum_append] at rounds ⊢
    omega
  · intro other member
    rw [List.map_append]
    exact List.mem_append_left _ (ledger.known other member)
  · intro other member
    rcases List.mem_append.mp member with old | new
    · have different : name item ≠ name other := fun same => fresh (same ▸ List.mem_map_of_mem old)
      rcases ledger.stands other old with ⟨now, inside, same, forms⟩ | ⟨gone, forms⟩
      · exact Or.inl ⟨now, List.mem_append_left _ inside, same, forms⟩
      · refine Or.inr ⟨?_, forms⟩
        rw [List.map_append, List.mem_append, List.map_singleton, List.mem_singleton]
        exact not_or_intro gone (Ne.symm different)
    · obtain rfl := List.mem_singleton.mp new
      have unserved : served.filter (name · = name other) = [] := by
        rw [List.filter_eq_nil_iff]
        intro earlier inside same
        exact fresh ((decide_eq_true_eq.mp same) ▸ ledger.known earlier inside)
      refine Or.inl ⟨other, by simp, rfl, ?_⟩
      rw [unserved, List.nil_append]

theorem Ledger.takeAll (ledger : Ledger policy name taken held served) {more : List α}
    (distinct : ((taken ++ more).map name).Nodup) : Ledger policy name (taken ++ more) (held ++ more) served := by
  induction more using List.reverseRecOn with
  | nil => simpa using ledger
  | append_singleton more item ih =>
    rw [← List.append_assoc, List.map_append, List.map_singleton] at distinct
    have apart := List.nodup_append.mp distinct
    rw [← List.append_assoc, ← List.append_assoc]
    exact (ih apart.1).take fun among => apart.2.2 _ among _ List.mem_cons_self rfl

theorem Ledger.distinct (ledger : Ledger policy name taken held served) (distinct : (taken.map name).Nodup) :
    (held.map name).Nodup :=
  (List.nodup_append.mp (ledger.balance.names.nodup_iff.mpr distinct)).1

/-- One item is served, and what is left of it goes back. -/
theorem Ledger.serve {rest : List α} {item : α} (ledger : Ledger policy name taken (item :: rest) served)
    (distinct : (taken.map name).Nodup) (keeps : ∀ {next}, policy.again item = some next → name next = name item) :
    Ledger policy name taken ((policy.again item).toList ++ rest) (served ++ [item]) := by
  obtain ⟨alone, _⟩ := List.nodup_cons.mp (ledger.distinct distinct)
  refine ⟨ledger.balance.serve keeps (List.Perm.refl _), ?_, ?_⟩
  · intro other member
    rcases List.mem_append.mp member with old | new
    · exact ledger.known other old
    · rw [List.mem_singleton.mp new]
      exact ledger.balance.names.subset (by simp)
  · intro other member
    unfold Stands
    rw [List.filter_append]
    by_cases same : name item = name other
    · rw [List.filter_singleton, decide_eq_true same, cond_true]
      rcases ledger.stands other member with ⟨now, inside, alike, forms⟩ | ⟨gone, _⟩
      · rcases List.mem_cons.mp inside with rfl | behind
        · -- its next form is held now, if there is one
          rw [policy.forms_eq now, List.append_cons] at forms
          cases back : policy.again now with
          | none => exact Or.inr ⟨by simpa [same] using alone, by simpa [back] using forms⟩
          | some next =>
            exact Or.inl ⟨next, by simp, (keeps back).trans same, by simpa [back] using forms⟩
        · exact absurd (List.mem_map.mpr ⟨now, behind, alike.trans same.symm⟩) alone
      · exact absurd (by simp [same]) gone
    · rw [List.filter_singleton, decide_eq_false same, cond_false, List.append_nil]
      rcases ledger.stands other member with ⟨now, inside, alike, forms⟩ | ⟨gone, forms⟩
      · rcases List.mem_cons.mp inside with rfl | behind
        · exact absurd alike same
        · exact Or.inl ⟨now, List.mem_append_right _ behind, alike, forms⟩
      · refine Or.inr ⟨?_, forms⟩
        intro among
        rw [List.map_append, List.mem_append] at among
        rcases among with back | waiting
        · obtain ⟨next, inside, alike⟩ := List.mem_map.mp back
          exact same ((keeps (Option.mem_toList.mp inside)).symm.trans alike)
        · exact gone (by simp [waiting])

end Retries
