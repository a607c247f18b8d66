import Mathlib.Data.List.Nodup
import Mathlib.Data.List.Perm.Basic
import Mathlib.Logic.Equiv.Basic
import Mathlib.Order.Lattice

/-! Binary heaps in an array, for any entries and any order of their keys. A
sift is a sequence of exchanges between an entry and its parent: what one
exchange keeps, and what it means to stop, are rules that a program can use
however it moves its entries. -/

namespace BinaryHeaps

/-- The root is its own parent. -/
def parent (i : Nat) : Nat := if i = 0 then 0 else (i - 1) / 2

def leftChild (i : Nat) : Nat := i + i + 1

@[simp] theorem parent_zero : parent 0 = 0 := rfl

theorem parent_pos {i : Nat} (positive : 0 < i) : parent i = (i - 1) / 2 := if_neg (by omega)

theorem parent_lt {i : Nat} (positive : 0 < i) : parent i < i := by
  rw [parent_pos positive]
  omega

theorem parent_eq_iff {i j : Nat} (positive : 0 < i) : parent i = j ↔ i = leftChild j ∨ i = leftChild j + 1 := by
  rw [parent_pos positive, leftChild]
  omega

theorem lt_leftChild (i : Nat) : i < leftChild i := by
  rw [leftChild]
  omega

section
variable {α : Type u}

def contents (entries : Nat → α) (count : Nat) : List α := (List.range count).map entries

theorem contents_succ (entries : Nat → α) (count : Nat) :
    contents entries (count + 1) = contents entries count ++ [entries count] := by
  rw [contents, List.range_succ, List.map_append]
  rfl

theorem contents_congr {entries others : Nat → α} {count : Nat} (same : ∀ i, i < count → entries i = others i) :
    contents entries count = contents others count :=
  List.map_congr_left fun i member => same i (List.mem_range.mp member)

def exchange (entries : Nat → α) (i j : Nat) : Nat → α := entries ∘ Equiv.swap i j

theorem exchange_left (entries : Nat → α) (i j : Nat) : exchange entries i j i = entries j := by
  simp [exchange]

theorem exchange_right (entries : Nat → α) (i j : Nat) : exchange entries i j j = entries i := by
  simp [exchange]

theorem exchange_other (entries : Nat → α) {i j k : Nat} (left : k ≠ i) (right : k ≠ j) :
    exchange entries i j k = entries k := by
  simp [exchange, Equiv.swap_apply_of_ne_of_ne left right]

theorem comp_exchange (f : α → β) (entries : Nat → α) (i j : Nat) :
    f ∘ exchange entries i j = exchange (f ∘ entries) i j := rfl

/-- Copying an entry into the hole and going on with the hole it leaves. -/
theorem exchange_update (entries : Nat → α) {hole other : Nat} (apart : other ≠ hole) (moved : α) :
    exchange (Function.update entries hole moved) hole other =
      Function.update (Function.update entries hole (entries other)) other moved := by
  funext i
  by_cases atOther : i = other
  · subst atOther
    rw [exchange_right, Function.update_self, Function.update_self]
  · rw [Function.update_of_ne atOther]
    by_cases atHole : i = hole
    · subst atHole
      rw [exchange_left, Function.update_of_ne apart, Function.update_self]
    · rw [exchange_other _ atHole atOther, Function.update_of_ne atHole, Function.update_of_ne atHole]

theorem contents_exchange (entries : Nat → α) {i j count : Nat} (left : i < count) (right : j < count) :
    (contents (exchange entries i j) count).Perm (contents entries count) := by
  have positions : ((List.range count).map (Equiv.swap i j)).Perm (List.range count) := by
    apply (List.perm_ext_iff_of_nodup (List.nodup_range.map (Equiv.injective _)) List.nodup_range).mpr
    intro k
    simp only [List.mem_map, List.mem_range]
    constructor
    · rintro ⟨k, inside, rfl⟩
      rw [Equiv.swap_apply_def]
      split
      · exact right
      · split <;> assumption
    · intro inside
      refine ⟨Equiv.swap i j k, ?_, Equiv.swap_apply_self i j k⟩
      rw [Equiv.swap_apply_def]
      split
      · exact right
      · split <;> assumption
  have mapped := positions.map entries
  rwa [List.map_map] at mapped

/-- Taking an entry out and putting the last one in its place. -/
theorem contents_remove (entries : Nat → α) {slot last : Nat} (inside : slot ≤ last) :
    (contents entries (last + 1)).Perm
      (entries slot :: contents (Function.update entries slot (entries last)) last) := by
  have moved : contents (Function.update entries slot (entries last)) last = contents (exchange entries slot last) last := by
    apply contents_congr
    intro i below
    by_cases same : i = slot
    · subst same
      rw [Function.update_self, exchange_left]
    · rw [Function.update_of_ne same, exchange_other _ same (by omega)]
  have exchanged : (contents (exchange entries slot last) (last + 1)).Perm (contents entries (last + 1)) :=
    contents_exchange entries (by omega) (by omega)
  rw [contents_succ, exchange_right, ← moved] at exchanged
  exact exchanged.symm.trans List.perm_append_comm

end

section
variable {κ : Type u} [LinearOrder κ] {keys : Nat → κ} {count hole : Nat}

/-- No entry comes before its parent. -/
def Ordered (keys : Nat → κ) (count : Nat) : Prop := ∀ i, 0 < i → i < count → keys (parent i) ≤ keys i

theorem Ordered.root_least (ordered : Ordered keys count) {i : Nat} (inside : i < count) : keys 0 ≤ keys i := by
  induction i using Nat.strongRecOn with
  | ind i ih =>
    by_cases root : i = 0
    · subst root
      exact le_rfl
    · have above := parent_lt (Nat.pos_of_ne_zero root)
      exact (ih _ above (by omega)).trans (ordered i (Nat.pos_of_ne_zero root) inside)

/-- The heap while the entry at `hole` may come before its parent. -/
structure Rising (keys : Nat → κ) (count hole : Nat) : Prop where
  apart : ∀ i, 0 < i → i < count → i ≠ hole → keys (parent i) ≤ keys i
  across : 0 < hole → ∀ i, 0 < i → i < count → parent i = hole → keys (parent hole) ≤ keys i

/-- The heap while the entry at `hole` may come after its children. -/
structure Sinking (keys : Nat → κ) (count hole : Nat) : Prop where
  apart : ∀ i, 0 < i → i < count → parent i ≠ hole → keys (parent i) ≤ keys i
  across : 0 < hole → ∀ i, 0 < i → i < count → parent i = hole → keys (parent hole) ≤ keys i

theorem Rising.lift (rising : Rising keys count hole) (positive : 0 < hole) (inside : hole < count)
    (early : keys hole < keys (parent hole)) : Rising (exchange keys hole (parent hole)) count (parent hole) := by
  have above := parent_lt positive
  refine ⟨?_, ?_⟩
  · intro i root below moved
    by_cases atHole : i = hole
    · subst atHole
      rw [exchange_left, exchange_right]
      exact early.le
    · rw [exchange_other _ atHole moved]
      by_cases child : parent i = hole
      · rw [child, exchange_left]
        exact rising.across positive i root below child
      · by_cases sibling : parent i = parent hole
        · rw [sibling, exchange_right]
          have order := rising.apart i root below atHole
          rw [sibling] at order
          exact early.le.trans order
        · rw [exchange_other _ child sibling]
          exact rising.apart i root below atHole
  · intro positive' i root below child
    have above' := parent_lt positive'
    have order := rising.apart (parent hole) positive' (by omega) (by omega)
    rw [exchange_other _ (by omega) (by omega)]
    by_cases atHole : i = hole
    · subst atHole
      rwa [exchange_left]
    · have lower := rising.apart i root below atHole
      have apart : i ≠ parent hole := by
        have under := parent_lt root
        omega
      rw [exchange_other _ atHole apart]
      rw [child] at lower
      exact order.trans lower

theorem Rising.settle (rising : Rising keys count hole) (late : 0 < hole → keys (parent hole) ≤ keys hole) :
    Ordered keys count := by
  intro i root below
  by_cases atHole : i = hole
  · subst atHole
    exact late root
  · exact rising.apart i root below atHole

theorem Sinking.descend {child : Nat} (sinking : Sinking keys count hole) (positive : 0 < child)
    (inside : child < count) (below : parent child = hole) (late : keys child < keys hole)
    (least : ∀ i, 0 < i → i < count → parent i = hole → keys child ≤ keys i) :
    Sinking (exchange keys hole child) count child := by
  have above := parent_lt positive
  refine ⟨?_, ?_⟩
  · intro i root inside' apart
    have under := parent_lt root
    by_cases atHole : parent i = hole
    · rw [atHole, exchange_left]
      by_cases same : i = child
      · subst same
        rw [exchange_right]
        exact late.le
      · rw [exchange_other _ (by omega) same]
        exact least i root inside' atHole
    · rw [exchange_other _ atHole apart]
      have order := sinking.apart i root inside' atHole
      by_cases hole' : i = hole
      · subst hole'
        rw [exchange_left]
        exact sinking.across root child positive inside below
      · have other : i ≠ child := by
          intro same
          subst same
          exact atHole below
        rwa [exchange_other _ hole' other]
  · intro _ i root inside' grandchild
    have under := parent_lt root
    rw [below, exchange_left, exchange_other _ (by omega) (by omega)]
    have order := sinking.apart i root inside' (by omega)
    rwa [grandchild] at order

theorem Sinking.settle (sinking : Sinking keys count hole)
    (early : ∀ i, 0 < i → i < count → parent i = hole → keys hole ≤ keys i) : Ordered keys count := by
  intro i root below
  by_cases child : parent i = hole
  · rw [child]
    exact early i root below child
  · exact sinking.apart i root below child

/-- The smaller of two children is a least child. -/
theorem least_child {child : Nat} (left : keys child ≤ keys (leftChild hole))
    (right : leftChild hole + 1 < count → keys child ≤ keys (leftChild hole + 1)) :
    ∀ i, 0 < i → i < count → parent i = hole → keys child ≤ keys i := by
  intro i root below above
  rcases (parent_eq_iff root).mp above with rfl | rfl
  · exact left
  · exact right below

/-- A new entry at the end has only its parent to look at. -/
theorem Ordered.rising_last (ordered : Ordered keys count) (key : κ) :
    Rising (Function.update keys count key) (count + 1) count := by
  refine ⟨?_, ?_⟩
  · intro i root below apart
    have under := parent_lt root
    rw [Function.update_of_ne apart, Function.update_of_ne (by omega)]
    exact ordered i root (by omega)
  · intro _ i root below child
    have under := parent_lt root
    omega

theorem Ordered.rising_update (ordered : Ordered keys count) {slot : Nat} {key : κ} (inside : slot < count)
    (early : key < keys (parent slot)) : Rising (Function.update keys slot key) count slot := by
  refine ⟨?_, ?_⟩
  · intro i root below apart
    rw [Function.update_of_ne apart]
    by_cases child : parent i = slot
    · have positive : 0 < slot ∨ slot = 0 := by omega
      have order := ordered i root below
      rw [child] at order ⊢
      rw [Function.update_self]
      rcases positive with positive | root'
      · exact (early.le.trans (ordered slot positive inside)).trans order
      · subst root'
        exact early.le.trans order
    · rw [Function.update_of_ne child]
      exact ordered i root below
  · intro positive i root below child
    have under := parent_lt root
    have above := parent_lt positive
    rw [Function.update_of_ne (by omega), Function.update_of_ne (by omega)]
    have order := ordered i root below
    rw [child] at order
    exact (ordered slot positive inside).trans order

theorem Ordered.sinking_update (ordered : Ordered keys count) {slot : Nat} {key : κ} (inside : slot < count)
    (late : 0 < slot → keys (parent slot) ≤ key) : Sinking (Function.update keys slot key) count slot := by
  refine ⟨?_, ?_⟩
  · intro i root below apart
    rw [Function.update_of_ne apart]
    by_cases same : i = slot
    · subst same
      rw [Function.update_self]
      exact late root
    · rw [Function.update_of_ne same]
      exact ordered i root below
  · intro positive i root below child
    have under := parent_lt root
    have above := parent_lt positive
    rw [Function.update_of_ne (by omega), Function.update_of_ne (by omega)]
    have order := ordered i root below
    rw [child] at order
    exact (ordered slot positive inside).trans order

theorem Ordered.mono (ordered : Ordered keys count) {fewer : Nat} (smaller : fewer ≤ count) : Ordered keys fewer :=
  fun i root below => ordered i root (by omega)

end

end BinaryHeaps
