import Mathlib.Data.List.Nodup
import IoTGateway.Lib.Loop

/-! Linked lists in a memory of nodes. A list linked both ways is two lists
linked one way, so an edit is proved once and used in both directions. -/

namespace LinkedLists

variable {α : Type u}

/-- Following `next` from the first of `nodes` meets them in order, and then `after`. -/
def Links (next : α → Option α) : List α → Option α → Prop
  | [], _ => True
  | node :: rest, after => next node = rest.head?.or after ∧ Links next rest after

structure Doubly (next prev : α → Option α) (nodes : List α) : Prop where
  forward : Links next nodes none
  backward : Links prev nodes.reverse none

variable {next prev edited : α → Option α} {nodes front back : List α} {node last : α} {after : Option α}

theorem links_append :
    Links next (front ++ back) after ↔ Links next front (back.head?.or after) ∧ Links next back after := by
  induction front with
  | nil => simp [Links]
  | cons first rest ih =>
    simp only [List.cons_append, Links, ih, and_assoc]
    cases rest with
    | nil => simp
    | cons second rest => simp

theorem links_last : Links next (front ++ [last]) after ↔ Links next front (some last) ∧ next last = after := by
  simp [links_append, Links]

theorem Links.congr (links : Links next nodes after) (kept : ∀ node ∈ nodes, edited node = next node) :
    Links edited nodes after := by
  induction nodes with
  | nil => trivial
  | cons first rest ih =>
    obtain ⟨points, rest⟩ := links
    exact ⟨(kept first List.mem_cons_self).trans points, ih rest fun node member => kept node (.tail _ member)⟩

/-- Only the link of the last node says what comes after. -/
theorem Links.redirect (links : Links next nodes after) (target : Option α)
    (kept : ∀ node ∈ nodes, nodes.getLast? ≠ some node → edited node = next node)
    (turned : ∀ last, nodes.getLast? = some last → edited last = target) (nodup : nodes.Nodup) :
    Links edited nodes target := by
  rcases nodes.eq_nil_or_concat with rfl | ⟨front, last, rfl⟩
  · trivial
  · rw [List.concat_eq_append, links_last] at *
    refine ⟨links.1.congr ?_, turned last (by simp)⟩
    intro node member
    apply kept node (List.mem_append_left _ member)
    rw [List.getLast?_concat, ne_eq, Option.some.injEq]
    rintro rfl
    exact (List.nodup_append.mp nodup).2.2 _ member _ (List.mem_singleton_self _) rfl

private theorem turned : (front ++ node :: back).reverse = back.reverse ++ node :: front.reverse := by simp

theorem Doubly.symm (list : Doubly next prev nodes) : Doubly prev next nodes.reverse :=
  ⟨list.backward, by rw [List.reverse_reverse]; exact list.forward⟩

theorem Links.skip (links : Links next (front ++ node :: back) after) (nodup : (front ++ node :: back).Nodup)
    (kept : ∀ other ∈ front ++ back, front.getLast? ≠ some other → edited other = next other)
    (turned : ∀ last, front.getLast? = some last → edited last = next node) : Links edited (front ++ back) after := by
  obtain ⟨ahead, points, behind⟩ := links_append.mp links
  have parts := List.nodup_append.mp nodup
  refine links_append.mpr ⟨ahead.redirect _ ?_ ?_ parts.1, behind.congr ?_⟩
  · exact fun other member => kept other (List.mem_append_left _ member)
  · exact fun last found => (turned last found).trans points
  · intro other member
    apply kept other (List.mem_append_right _ member)
    intro found
    exact parts.2.2 _ (List.mem_of_getLast? found) _ (.tail _ member) rfl

section
variable {next' prev' : α → Option α}

theorem Doubly.push (list : Doubly next prev nodes) (nodup : nodes.Nodup)
    (forward : next' node = nodes.head?) (backward : prev' node = none)
    (first : ∀ head, nodes.head? = some head → prev' head = some node)
    (keepNext : ∀ other ∈ nodes, next' other = next other)
    (keepPrev : ∀ other ∈ nodes, nodes.head? ≠ some other → prev' other = prev other) :
    Doubly next' prev' (node :: nodes) := by
  refine ⟨⟨by rw [forward, Option.or_none], list.forward.congr keepNext⟩, ?_⟩
  rw [List.reverse_cons, links_last]
  refine ⟨list.backward.redirect _ ?_ ?_ (List.nodup_reverse.mpr nodup), backward⟩
  · rw [List.getLast?_reverse]
    exact fun other member => keepPrev other (List.mem_reverse.mp member)
  · rw [List.getLast?_reverse]
    exact first

theorem Doubly.append (list : Doubly next prev nodes) (nodup : nodes.Nodup)
    (forward : next' node = none) (backward : prev' node = nodes.getLast?)
    (last : ∀ last, nodes.getLast? = some last → next' last = some node)
    (keepNext : ∀ other ∈ nodes, nodes.getLast? ≠ some other → next' other = next other)
    (keepPrev : ∀ other ∈ nodes, prev' other = prev other) : Doubly next' prev' (nodes ++ [node]) := by
  have pushed := list.symm.push (List.nodup_reverse.mpr nodup) (by rw [List.head?_reverse]; exact backward) forward
    (by rw [List.head?_reverse]; exact last) (fun other member => keepPrev other (List.mem_reverse.mp member))
    (by rw [List.head?_reverse]; exact fun other member => keepNext other (List.mem_reverse.mp member))
  simpa using pushed.symm

theorem Doubly.remove (list : Doubly next prev (front ++ node :: back)) (nodup : (front ++ node :: back).Nodup)
    (keepNext : ∀ other ∈ front ++ back, front.getLast? ≠ some other → next' other = next other)
    (turnNext : ∀ last, front.getLast? = some last → next' last = next node)
    (keepPrev : ∀ other ∈ front ++ back, back.head? ≠ some other → prev' other = prev other)
    (turnPrev : ∀ head, back.head? = some head → prev' head = prev node) : Doubly next' prev' (front ++ back) := by
  have backward := list.backward
  have distinct := List.nodup_reverse.mpr nodup
  rw [turned] at backward distinct
  refine ⟨list.forward.skip nodup keepNext turnNext, ?_⟩
  rw [List.reverse_append]
  refine backward.skip distinct ?_ ?_
  · rw [List.getLast?_reverse]
    intro other member
    exact keepPrev other (by simpa [or_comm] using member)
  · rw [List.getLast?_reverse]
    exact turnPrev

theorem Doubly.congr (list : Doubly next prev nodes) (keepNext : ∀ other ∈ nodes, next' other = next other)
    (keepPrev : ∀ other ∈ nodes, prev' other = prev other) : Doubly next' prev' nodes :=
  ⟨list.forward.congr keepNext, list.backward.congr fun other member => keepPrev other (List.mem_reverse.mp member)⟩

/-- The neighbours of a node. -/
theorem Doubly.around (list : Doubly next prev (front ++ node :: back)) :
    next node = back.head? ∧ prev node = front.getLast? := by
  have backward := list.backward
  rw [turned] at backward
  have forward := (links_append.mp list.forward).2.1
  have backward := (links_append.mp backward).2.1
  exact ⟨by simpa using forward, by simpa using backward⟩

end

/-- `while (node) { if (matches) break; node = node->next; }` -/
def searchRound (next : α → Option α) (matching : α → Bool) : Option α → Except ε (Option α ⊕ Option α)
  | none => .ok (.inr none)
  | some node => if matching node then .ok (.inr (some node)) else .ok (.inl (next node))

theorem Links.search {ε : Type v} (links : Links next nodes none) (matching : α → Bool) {fuel : Nat}
    (enough : nodes.length < fuel) :
    Loops.iterate (searchRound next matching) fuel nodes.head? = (.ok (some (nodes.find? matching)) : Except ε _) := by
  induction nodes generalizing fuel with
  | nil =>
    obtain ⟨fuel, rfl⟩ := Nat.exists_eq_add_one.mpr enough
    rfl
  | cons node rest ih =>
    obtain ⟨fuel, rfl⟩ : ∃ m, fuel = m + 1 := Nat.exists_eq_add_one.mpr (by omega)
    obtain ⟨points, links⟩ := links
    rw [Option.or_none] at points
    simp only [List.head?_cons, Loops.iterate, searchRound, List.find?_cons]
    cases matching node with
    | true => rfl
    | false =>
      simp only [Bool.false_eq_true, ite_false, points]
      exact ih links (by simpa using enough)

end LinkedLists
