import Mathlib.Data.Int.Order.Basic
import IoTGateway.TimerHeap

/-! The two sifts of the timer heap: the order and the contents are those of any
binary heap, and every id goes on knowing the slot of its node. -/

namespace IoTGateway.TimerHeap

open BinaryHeaps

variable {τ : Type}

theorem aceHeapParent_eq : aceHeapParent = parent := rfl

private theorem aceHeapLchild_eq : aceHeapLchild = leftChild := rfl

def key (entry : Option (TimerNode τ)) : Int := entry.elim 0 TimerNode.timerValue

@[simp] theorem key_some (node : TimerNode τ) : key (some node) = node.timerValue := rfl

def armed (queue : TimerHeap τ) : List (TimerNode τ) := (List.range queue.curSize).filterMap queue.heap

/-- Each of the first slots holds a node, and the id of the node knows the slot. -/
def Placed (queue : TimerHeap τ) (count : Nat) : Prop :=
  ∀ i, i < count → ∃ node, queue.heap i = some node ∧ node.timerId < queue.maxSize ∧ queue.timerIds node.timerId = i

theorem node_ok {queue : TimerHeap τ} {slot : Nat} {node : TimerNode τ} (inside : slot < queue.maxSize)
    (found : queue.heap slot = some node) : queue.node slot = .ok node := by
  rw [TimerHeap.node, if_pos inside, found]

theorem idSlot_ok {queue : TimerHeap τ} {timerId : Nat} (inside : timerId < queue.maxSize) :
    queue.idSlot timerId = .ok (queue.timerIds timerId) := if_pos inside

theorem setIdSlot_ok {queue : TimerHeap τ} {timerId : Nat} (slot : Int) (inside : timerId < queue.maxSize) :
    queue.setIdSlot timerId slot = .ok { queue with timerIds := Function.update queue.timerIds timerId slot } :=
  if_pos inside

theorem copy_ok {queue : TimerHeap τ} {slot : Nat} {node : TimerNode τ} (inside : slot < queue.maxSize)
    (named : node.timerId < queue.maxSize) :
    queue.copy slot node = .ok { queue with
      heap := Function.update queue.heap slot (some node)
      timerIds := Function.update queue.timerIds node.timerId slot } := by
  rw [copy, if_pos inside]
  exact setIdSlot_ok _ named

-- `start` is the queue before a sift and `entries` the heap it works on
/-- `moved` is on its way: with it at `slot` the heap holds what it held, and
the id of every other node knows its slot. -/
structure Sifting (start : TimerHeap τ) (entries : Nat → Option (TimerNode τ)) (count : Nat) (moved : TimerNode τ)
    (queue : TimerHeap τ) (slot : Nat) : Prop where
  inside : slot < count
  same : (contents (Function.update queue.heap slot (some moved)) count).Perm (contents entries count)
  placed : ∀ i, i < count → i ≠ slot → ∃ node, queue.heap i = some node ∧ node.timerId < queue.maxSize ∧
    node.timerId ≠ moved.timerId ∧ queue.timerIds node.timerId = i
  frame : queue = { start with heap := queue.heap, timerIds := queue.timerIds }
  others : ∀ timerId, (∀ node, some node ∈ contents entries count → node.timerId ≠ timerId) →
    queue.timerIds timerId = start.timerIds timerId

structure Sifted (start : TimerHeap τ) (entries : Nat → Option (TimerNode τ)) (count : Nat) (queue : TimerHeap τ) :
    Prop where
  same : (contents queue.heap count).Perm (contents entries count)
  placed : Placed queue count
  ordered : Ordered (key ∘ queue.heap) count
  frame : queue = { start with heap := queue.heap, timerIds := queue.timerIds }
  others : ∀ timerId, (∀ node, some node ∈ contents entries count → node.timerId ≠ timerId) →
    queue.timerIds timerId = start.timerIds timerId

section
variable {start queue : TimerHeap τ} {entries : Nat → Option (TimerNode τ)} {count slot : Nat} {moved : TimerNode τ}

theorem Sifting.maxSize (sifting : Sifting start entries count moved queue slot) : queue.maxSize = start.maxSize := by
  rw [sifting.frame]

theorem Sifting.curSize (sifting : Sifting start entries count moved queue slot) : queue.curSize = start.curSize := by
  rw [sifting.frame]

theorem mem_contents {entries : Nat → Option (TimerNode τ)} {i : Nat} {node : TimerNode τ} (inside : i < count)
    (found : entries i = some node) : some node ∈ contents entries count :=
  List.mem_map.mpr ⟨i, List.mem_range.mpr inside, found⟩

/-- One exchange: the node at `other` is copied into the hole. -/
theorem Sifting.shift (sifting : Sifting start entries count moved queue slot) (room : count ≤ start.maxSize)
    {other : Nat} (below : other < count) (apart : other ≠ slot) :
    ∃ node next, queue.node other = .ok node ∧ queue.heap other = some node ∧ queue.copy slot node = .ok next ∧
      Sifting start entries count moved next other ∧
      Function.update next.heap other (some moved) =
        exchange (Function.update queue.heap slot (some moved)) slot other := by
  obtain ⟨node, found, named, foreign, back⟩ := sifting.placed other below apart
  have size := sifting.maxSize
  have inside := sifting.inside
  have copied := copy_ok (show slot < queue.maxSize by omega) named
  have swapped := exchange_update queue.heap apart (some moved)
  rw [found] at swapped
  refine ⟨node, _, node_ok (by omega) found, found, copied, ?_, swapped.symm⟩
  refine ⟨below, ?_, ?_, ?_, ?_⟩
  · have exchanged := contents_exchange (Function.update queue.heap slot (some moved)) inside below
    rw [swapped] at exchanged
    exact exchanged.trans sifting.same
  · intro i inside' apart'
    by_cases atSlot : i = slot
    · subst atSlot
      exact ⟨node, by simp, named, foreign, by simp⟩
    · obtain ⟨node', found', named', foreign', back'⟩ := sifting.placed i inside' atSlot
      have different : node'.timerId ≠ node.timerId := by
        intro same
        rw [same, back] at back'
        omega
      exact ⟨node', by simpa [atSlot] using found', named', foreign', by simpa [different] using back'⟩
  · rw [sifting.frame]
  · intro timerId absent
    have member : some node ∈ contents entries count := by
      apply sifting.same.subset
      exact mem_contents below (by rw [Function.update_of_ne apart, found])
    show Function.update queue.timerIds node.timerId (slot : Int) timerId = start.timerIds timerId
    rw [Function.update_of_ne (Ne.symm (absent node member)), sifting.others timerId absent]

theorem Sifting.settle (sifting : Sifting start entries count moved queue slot) (room : count ≤ start.maxSize)
    (named : moved.timerId < start.maxSize)
    (ordered : Ordered (key ∘ Function.update queue.heap slot (some moved)) count) :
    ∃ next, queue.copy slot moved = .ok next ∧ Sifted start entries count next := by
  have size := sifting.maxSize
  have inside := sifting.inside
  refine ⟨_, copy_ok (by omega) (by omega), sifting.same, ?_, ordered, ?_, ?_⟩
  · intro i below
    by_cases atSlot : i = slot
    · subst atSlot
      exact ⟨moved, by simp, by simpa only [size] using named, by simp⟩
    · obtain ⟨node, found, named', foreign, back⟩ := sifting.placed i below atSlot
      exact ⟨node, by simpa [atSlot] using found, named', by simpa [foreign] using back⟩
  · rw [sifting.frame]
  · intro timerId absent
    have member : some moved ∈ contents entries count := by
      apply sifting.same.subset
      exact mem_contents inside (Function.update_self ..)
    show Function.update queue.timerIds moved.timerId (slot : Int) timerId = start.timerIds timerId
    rw [Function.update_of_ne (Ne.symm (absent moved member)), sifting.others timerId absent]

/-- Both sifts leave their loop with the node's place found. -/
private def Found (start : TimerHeap τ) (entries : Nat → Option (TimerNode τ)) (count : Nat) (moved : TimerNode τ)
    (result : TimerHeap τ × Nat) : Prop :=
  Sifting start entries count moved result.1 result.2 ∧
    Ordered (key ∘ Function.update result.1.heap result.2 (some moved)) count

theorem reheapUp_sifted (sifting : Sifting start entries count moved queue slot) (room : count ≤ start.maxSize)
    (named : moved.timerId < start.maxSize)
    (rising : Rising (key ∘ Function.update queue.heap slot (some moved)) count slot) :
    ∃ next, queue.reheapUp moved slot (aceHeapParent slot) = .ok next ∧ Sifted start entries count next := by
  have advances : Loops.Advances (reheapUpRound moved)
      (fun state => Sifting start entries count moved state.1 state.2.1 ∧ state.2.2 = aceHeapParent state.2.1 ∧
        Rising (key ∘ Function.update state.1.heap state.2.1 (some moved)) count state.2.1)
      (Found start entries count moved) (fun state => state.2.1) := by
    rintro ⟨queue, slot, above⟩ ⟨sifting, same, rising⟩
    simp only at sifting same rising ⊢
    subst same
    rw [reheapUpRound]
    split
    next positive =>
      have higher := parent_lt positive
      have inside := sifting.inside
      obtain ⟨node, next, read, found, copied, shifted, exchanged⟩ :=
        sifting.shift room (show parent slot < count by omega) (by omega)
      simp only [aceHeapParent_eq, read, ok_bind]
      have parentKey : (key ∘ Function.update queue.heap slot (some moved)) (parent slot) = node.timerValue := by
        simp [Function.update_of_ne (show parent slot ≠ slot by omega), found]
      split
      next early =>
        refine .inl ⟨(next, parent slot, parent (parent slot)), by simp [copied], ⟨shifted, rfl, ?_⟩, higher⟩
        rw [exchanged, comp_exchange]
        apply rising.lift positive inside
        rw [parentKey]
        simpa using early
      next late =>
        refine .inr ⟨(queue, slot), rfl, sifting, rising.settle ?_⟩
        intro _
        rw [parentKey]
        simpa using late
    next root =>
      exact .inr ⟨(queue, slot), rfl, sifting, rising.settle fun positive => absurd positive root⟩
  obtain ⟨⟨reached, place⟩, finished, sifted, ordered⟩ :=
    Loops.iterate_total advances (slot + 1) (queue, slot, aceHeapParent slot) ⟨sifting, rfl, rising⟩
      (Nat.lt_succ_self _)
  obtain ⟨next, copied, done⟩ := sifted.settle room named ordered
  exact ⟨next, by simp [reheapUp, finished, copied], done⟩

theorem smallerChild_least (sifting : Sifting start entries count moved queue slot) (room : count ≤ start.maxSize)
    (whole : start.curSize = count) (inside : leftChild slot < count) :
    ∃ child, queue.smallerChild (leftChild slot) = .ok child ∧ 0 < child ∧ child < count ∧ parent child = slot ∧
      ∀ i, 0 < i → i < count → parent i = slot →
        (key ∘ Function.update queue.heap slot (some moved)) child ≤
          (key ∘ Function.update queue.heap slot (some moved)) i := by
  have size := sifting.maxSize
  have lower := lt_leftChild slot
  have total := sifting.curSize.trans whole
  obtain ⟨left, leftFound, _⟩ := sifting.placed (leftChild slot) inside (by omega)
  have leftKey : (key ∘ Function.update queue.heap slot (some moved)) (leftChild slot) = left.timerValue := by
    simp [Function.update_of_ne (show leftChild slot ≠ slot by omega), leftFound]
  have leftBelow : parent (leftChild slot) = slot := (parent_eq_iff (by omega)).mpr (.inl rfl)
  rw [smallerChild, total]
  split
  next both =>
    obtain ⟨right, rightFound, _⟩ := sifting.placed (leftChild slot + 1) both (by omega)
    have rightKey : (key ∘ Function.update queue.heap slot (some moved)) (leftChild slot + 1) = right.timerValue := by
      simp [Function.update_of_ne (show leftChild slot + 1 ≠ slot by omega), rightFound]
    have rightBelow : parent (leftChild slot + 1) = slot := (parent_eq_iff (by omega)).mpr (.inr rfl)
    simp only [node_ok (show leftChild slot + 1 < queue.maxSize by omega) rightFound,
      node_ok (show leftChild slot < queue.maxSize by omega) leftFound, ok_bind, pure_eq_ok]
    split
    next smaller =>
      refine ⟨_, rfl, by omega, both, rightBelow, least_child ?_ fun _ => le_rfl⟩
      rw [leftKey, rightKey]
      exact smaller.le
    next larger =>
      refine ⟨_, rfl, by omega, inside, leftBelow, least_child le_rfl ?_⟩
      intro _
      rw [leftKey, rightKey]
      exact not_lt.mp larger
  next single => exact ⟨_, rfl, by omega, inside, leftBelow, least_child le_rfl fun both => absurd both single⟩

theorem reheapDown_sifted (sifting : Sifting start entries count moved queue slot) (room : count ≤ start.maxSize)
    (whole : start.curSize = count) (named : moved.timerId < start.maxSize)
    (sinking : Sinking (key ∘ Function.update queue.heap slot (some moved)) count slot) :
    ∃ next, queue.reheapDown moved slot (aceHeapLchild slot) = .ok next ∧ Sifted start entries count next := by
  have advances : Loops.Advances (reheapDownRound moved)
      (fun state => Sifting start entries count moved state.1 state.2.1 ∧ state.2.2 = aceHeapLchild state.2.1 ∧
        Sinking (key ∘ Function.update state.1.heap state.2.1 (some moved)) count state.2.1)
      (Found start entries count moved) (fun state => count - state.2.1) := by
    rintro ⟨queue, slot, left⟩ ⟨sifting, same, sinking⟩
    simp only at sifting same sinking ⊢
    subst same
    have total := sifting.curSize.trans whole
    have lower := lt_leftChild slot
    rw [reheapDownRound, total, aceHeapLchild_eq]
    have movedKey : (key ∘ Function.update queue.heap slot (some moved)) slot = moved.timerValue := by simp
    split
    next inside =>
      obtain ⟨child, chosen, positive, below, above, least⟩ := smallerChild_least sifting room whole inside
      have under := parent_lt positive
      obtain ⟨node, next, read, found, copied, shifted, exchanged⟩ :=
        sifting.shift room below (by omega)
      have childKey : (key ∘ Function.update queue.heap slot (some moved)) child = node.timerValue := by
        simp [Function.update_of_ne (show child ≠ slot by omega), found]
      simp only [chosen, read, ok_bind]
      split
      next late =>
        refine .inl ⟨(next, child, leftChild child), by simp [copied], ⟨shifted, rfl, ?_⟩, ?_⟩
        · rw [exchanged, comp_exchange]
          apply sinking.descend positive below above _ least
          rw [childKey, movedKey]
          exact late
        · show count - child < count - slot
          omega
      next early =>
        refine .inr ⟨(queue, slot), rfl, sifting, sinking.settle ?_⟩
        intro i root inside' child'
        have order := least i root inside' child'
        rw [childKey] at order
        rw [movedKey]
        exact (not_lt.mp early).trans order
    next leaf =>
      refine .inr ⟨(queue, slot), rfl, sifting, sinking.settle ?_⟩
      intro i root inside child
      rcases (parent_eq_iff root).mp child with rfl | rfl <;> omega
  have enough : count - slot < queue.curSize + 1 := by
    rw [sifting.curSize]
    omega
  obtain ⟨⟨reached, place⟩, finished, sifted, ordered⟩ :=
    Loops.iterate_total advances (queue.curSize + 1) (queue, slot, aceHeapLchild slot) ⟨sifting, rfl, sinking⟩ enough
  obtain ⟨next, copied, done⟩ := sifted.settle room named ordered
  exact ⟨next, by simp [reheapDown, finished, copied], done⟩

end

end IoTGateway.TimerHeap
