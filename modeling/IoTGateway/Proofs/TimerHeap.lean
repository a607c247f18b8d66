import Mathlib.Data.List.Perm.Basic
import IoTGateway.Lib.IdPool
import IoTGateway.Proofs.TimerSifts

/-! What every operation of the timer heap keeps. `held` are the nodes taken out
of the heap that the caller has neither freed nor rescheduled. -/

namespace IoTGateway.TimerHeap

open BinaryHeaps IdPools

variable {τ : Type} {queue next : TimerHeap τ} {held : List (TimerNode τ)}

def Free (queue : TimerHeap τ) (timerId : Nat) : Prop := queue.timerIds timerId < 0 ∧ queue.timerIds timerId ≠ -2

def ids (queue : TimerHeap τ) (held : List (TimerNode τ)) : List Nat :=
  (queue.armed ++ held).map TimerNode.timerId

/-- The ids in use are exactly those of the nodes, and each knows its node. -/
structure Linked (queue : TimerHeap τ) (held : List (TimerNode τ)) : Prop where
  placed : Placed queue queue.curSize
  limbo : ∀ node ∈ held, node.timerId < queue.maxSize ∧ queue.timerIds node.timerId = -2
  distinct : (held.map TimerNode.timerId).Nodup
  used : ∀ timerId, timerId < queue.maxSize → ¬ Free queue timerId → timerId ∈ ids queue held

structure Valid (queue : TimerHeap τ) (held : List (TimerNode τ)) : Prop extends Linked queue held where
  ordered : Ordered (key ∘ queue.heap) queue.curSize
  limboCount : queue.curLimbo = held.length
  room : queue.curSize + queue.curLimbo + 2 ≤ queue.maxSize
  pool : Covered (Free queue) queue.maxSize queue.timerIdsCurr queue.timerIdsMinFree

/-- What an operation turns a queue into: a valid one that knows at least the
ids it knew. -/
structure Becomes (queue next : TimerHeap τ) (held : List (TimerNode τ)) : Prop where
  valid : Valid next held
  larger : queue.maxSize ≤ next.maxSize

theorem Becomes.trans {last : TimerHeap τ} {others : List (TimerNode τ)} (first : Becomes queue next others)
    (second : Becomes next last held) : Becomes queue last held :=
  ⟨second.valid, first.larger.trans second.larger⟩

theorem armed_contents (queue : TimerHeap τ) : queue.armed = (contents queue.heap queue.curSize).filterMap id := by
  rw [armed, contents, List.filterMap_map]
  rfl

private theorem mem_armed {node : TimerNode τ} :
    node ∈ queue.armed ↔ some node ∈ contents queue.heap queue.curSize := by
  rw [armed_contents, List.mem_filterMap]
  simp

theorem mem_armed_slot {node : TimerNode τ} :
    node ∈ queue.armed ↔ ∃ i, i < queue.curSize ∧ queue.heap i = some node := by
  simp [armed, List.mem_filterMap]

theorem mem_ids {timerId : Nat} :
    timerId ∈ ids queue held ↔ (∃ node ∈ queue.armed, node.timerId = timerId) ∨ ∃ node ∈ held, node.timerId = timerId := by
  simp only [ids, List.mem_map, List.mem_append, or_and_right, exists_or]

theorem Placed.armed (placed : Placed queue queue.curSize) {node : TimerNode τ} (member : node ∈ queue.armed) :
    node.timerId < queue.maxSize ∧ 0 ≤ queue.timerIds node.timerId ∧
      ∃ i, i < queue.curSize ∧ queue.heap i = some node ∧ queue.timerIds node.timerId = i := by
  obtain ⟨i, inside, found⟩ := mem_armed_slot.mp member
  obtain ⟨other, found', named, back⟩ := placed i inside
  cases found.symm.trans found'
  exact ⟨named, by omega, i, inside, found, back⟩

theorem Placed.length_armed (placed : Placed queue queue.curSize) : queue.armed.length = queue.curSize := by
  have filled : ∀ i ∈ List.range queue.curSize, (queue.heap i).isSome := by
    intro i member
    obtain ⟨node, found, _⟩ := placed i (List.mem_range.mp member)
    rw [found]
    rfl
  rw [TimerHeap.armed, List.filterMap_length_eq_length.mpr filled, List.length_range]

theorem Placed.nodup_armed (placed : Placed queue queue.curSize) : (queue.armed.map TimerNode.timerId).Nodup := by
  rw [List.Nodup, List.pairwise_map, TimerHeap.armed, List.pairwise_filterMap]
  apply List.pairwise_lt_range.imp_of_mem
  intro i j first second below node found other found' same
  obtain ⟨node', found'', _, back⟩ := placed i (List.mem_range.mp first)
  obtain ⟨other', found''', _, back'⟩ := placed j (List.mem_range.mp second)
  cases found.symm.trans found''
  cases found'.symm.trans found'''
  rw [same, back'] at back
  omega

namespace Linked

theorem free_iff (linked : Linked queue held) {timerId : Nat} (inside : timerId < queue.maxSize) :
    Free queue timerId ↔ timerId ∉ ids queue held := by
  constructor
  · intro unused member
    rcases mem_ids.mp member with ⟨node, armed, rfl⟩ | ⟨node, kept, rfl⟩
    · have back := (linked.placed.armed armed).2.1
      have negative := unused.1
      omega
    · exact unused.2 (linked.limbo node kept).2
  · intro absent
    by_contra used
    exact absent (linked.used timerId inside used)

theorem nodup (linked : Linked queue held) : (ids queue held).Nodup := by
  rw [ids, List.map_append, List.nodup_append]
  refine ⟨linked.placed.nodup_armed, linked.distinct, ?_⟩
  intro one first two second same
  obtain ⟨node, armed, rfl⟩ := List.mem_map.mp first
  obtain ⟨other, kept, rfl⟩ := List.mem_map.mp second
  have back := (linked.placed.armed armed).2.1
  rw [same, (linked.limbo other kept).2] at back
  omega

theorem below (linked : Linked queue held) {timerId : Nat} (member : timerId ∈ ids queue held) :
    timerId < queue.maxSize := by
  rcases mem_ids.mp member with ⟨node, armed, rfl⟩ | ⟨node, kept, rfl⟩
  · exact (linked.placed.armed armed).1
  · exact (linked.limbo node kept).1

private theorem length_ids (linked : Linked queue held) : (ids queue held).length = queue.curSize + held.length := by
  rw [ids, List.length_map, List.length_append, linked.placed.length_armed]

end Linked

theorem Linked.covered (before : Linked queue held) {others : List (TimerNode τ)} (after : Linked next others)
    (same : (ids next others).Perm (ids queue held)) {size curr minFree : Nat} (old : queue.maxSize = size)
    (new : next.maxSize = size) (covered : Covered (Free queue) size curr minFree) :
    Covered (Free next) size curr minFree := by
  apply covered.congr
  intro timerId inside
  rw [before.free_iff (by omega), after.free_iff (by omega), same.mem_iff]

theorem popFreelist_ok
    (covered : Covered (Free queue) queue.maxSize queue.timerIdsCurr queue.timerIdsMinFree) {one two : Nat}
    (first : one < queue.maxSize) (second : two < queue.maxSize) (different : one ≠ two) (firstFree : Free queue one)
    (secondFree : Free queue two) :
    ∃ timerId minFree, queue.popFreelist =
        .ok (timerId, { queue with timerIdsCurr := timerId, timerIdsMinFree := minFree }) ∧
      timerId < queue.maxSize ∧ Free queue timerId ∧
      Covered (fun other => Free queue other ∧ other ≠ timerId) queue.maxSize timerId minFree := by
  have advances : Loops.Advances queue.popFreelistRound
      (fun curr => queue.timerIdsCurr < curr ∧ curr ≤ queue.maxSize ∧
        ∀ other, queue.timerIdsCurr < other → other < curr → ¬ Free queue other)
      (fun curr => queue.timerIdsCurr < curr ∧ curr ≤ queue.maxSize ∧
        (∀ other, queue.timerIdsCurr < other → other < curr → ¬ Free queue other) ∧
        (curr < queue.maxSize → Free queue curr))
      (fun curr => queue.maxSize - curr) := by
    rintro curr ⟨ahead, inside, passed⟩
    rw [popFreelistRound]
    split
    next below =>
      simp only [idSlot_ok below, ok_bind, pure_eq_ok]
      split
      next taken =>
        refine .inl ⟨curr + 1, rfl, ⟨by omega, below, ?_⟩, by omega⟩
        intro other later earlier
        by_cases here : other = curr
        · subst here
          intro unused
          have negative := unused.1
          have other := unused.2
          omega
        · exact passed other later (by omega)
      next unused =>
        refine .inr ⟨curr, rfl, ahead, inside, passed, fun _ => ⟨?_, ?_⟩⟩ <;> omega
    next atEnd => exact .inr ⟨curr, rfl, ahead, inside, passed, fun below => absurd below atEnd⟩
  have currInside := covered.curr_lt
  obtain ⟨curr, finished, ahead, inside, passed, unused⟩ :=
    Loops.iterate_total advances (queue.maxSize + 1) (queue.timerIdsCurr + 1)
      ⟨Nat.lt_succ_self _, currInside, fun other later earlier => by omega⟩ (by omega)
  rw [popFreelist, finished]
  by_cases atEnd : curr = queue.maxSize
  · subst atEnd
    have remembered := covered.remembered passed first second different firstFree secondFree
    exact ⟨queue.timerIdsMinFree, queue.maxSize, by simp, remembered, (covered.behind remembered).1,
      covered.wrap passed remembered⟩
  · have below := lt_of_le_of_ne inside atEnd
    exact ⟨curr, queue.timerIdsMinFree, by simp [atEnd], below, unused below, covered.march ahead below passed⟩

theorem decrement_ok {n : Nat} (positive : 0 < n) : decrement n = .ok (n - 1) := if_neg (by omega)

/-- The end node in the place of the one removed, before it is sifted. -/
def moveTo (queue : TimerHeap τ) (slot : Nat) (moved : TimerNode τ) : TimerHeap τ :=
  { queue with
    heap := Function.update queue.heap slot (some moved)
    timerIds := Function.update queue.timerIds moved.timerId slot }

@[simp] theorem moveTo_heap (queue : TimerHeap τ) (slot : Nat) (moved : TimerNode τ) :
    (queue.moveTo slot moved).heap = Function.update queue.heap slot (some moved) := rfl

@[simp] theorem moveTo_timerIds (queue : TimerHeap τ) (slot : Nat) (moved : TimerNode τ) :
    (queue.moveTo slot moved).timerIds = Function.update queue.timerIds moved.timerId slot := rfl

@[simp] theorem moveTo_maxSize (queue : TimerHeap τ) (slot : Nat) (moved : TimerNode τ) :
    (queue.moveTo slot moved).maxSize = queue.maxSize := rfl

@[simp] theorem moveTo_curSize (queue : TimerHeap τ) (slot : Nat) (moved : TimerNode τ) :
    (queue.moveTo slot moved).curSize = queue.curSize := rfl

private theorem moveTo_sifting {slot : Nat} {moved : TimerNode τ} (placed : Placed queue (queue.curSize + 1))
    (earlier : slot < queue.curSize) (found : queue.heap queue.curSize = some moved) :
    Sifting (queue.moveTo slot moved) (queue.moveTo slot moved).heap queue.curSize moved (queue.moveTo slot moved) slot := by
  refine ⟨earlier, ?_, ?_, rfl, fun _ _ => rfl⟩
  · rw [moveTo_heap, Function.update_idem]
  · intro i below apart
    obtain ⟨last, foundLast, _, back⟩ := placed queue.curSize (by omega)
    cases found.symm.trans foundLast
    obtain ⟨node, found', named, back'⟩ := placed i (by omega)
    have different : node.timerId ≠ moved.timerId := by
      intro same
      rw [same, back] at back'
      omega
    exact ⟨node, by simpa [apart] using found', named, different, by simpa [different] using back'⟩

theorem moveTo_reheap {slot : Nat} {moved : TimerNode τ} (placed : Placed queue (queue.curSize + 1))
    (ordered : Ordered (key ∘ queue.heap) (queue.curSize + 1)) (room : queue.curSize + 1 ≤ queue.maxSize)
    (earlier : slot < queue.curSize) (found : queue.heap queue.curSize = some moved) :
    ∃ next, queue.refill slot = .ok next ∧
      Sifted (queue.moveTo slot moved) (queue.moveTo slot moved).heap queue.curSize next := by
  obtain ⟨last, foundLast, named, _⟩ := placed queue.curSize (by omega)
  cases found.symm.trans foundLast
  have sifting := moveTo_sifting placed earlier found
  have keys : key ∘ Function.update (queue.moveTo slot moved).heap slot (some moved) =
      Function.update (key ∘ queue.heap) slot moved.timerValue := by
    rw [moveTo_heap, Function.update_idem, Function.comp_update, key_some]
  have copied : queue.copy slot moved = .ok (queue.moveTo slot moved) := copy_ok (by omega) named
  have whole := moveTo_curSize queue slot moved
  have size := moveTo_maxSize queue slot moved
  have fits : queue.curSize ≤ (queue.moveTo slot moved).maxSize := by omega
  rw [refill, if_pos earlier]
  simp only [node_ok (show queue.curSize < queue.maxSize by omega) found, ok_bind, copied, aceHeapParent_eq]
  by_cases root : slot = 0
  · subst root
    have read : (queue.moveTo 0 moved).node (parent 0) = .ok moved :=
      node_ok (by rw [parent_zero]; omega) (by simp)
    simp only [read, ok_bind, ge_iff_le, le_rfl, if_true]
    apply reheapDown_sifted sifting fits whole named
    rw [keys]
    exact (ordered.mono (Nat.le_succ _)).sinking_update earlier fun positive => absurd positive (lt_irrefl 0)
  · have higher := parent_lt (Nat.pos_of_ne_zero root)
    obtain ⟨above, foundAbove, _⟩ := placed (parent slot) (by omega)
    have read : (queue.moveTo slot moved).node (parent slot) = .ok above := by
      apply node_ok (by omega)
      rw [moveTo_heap, Function.update_of_ne (by omega), foundAbove]
    have aboveKey : (key ∘ queue.heap) (parent slot) = above.timerValue := by simp [foundAbove]
    simp only [read, ok_bind]
    split
    next late =>
      apply reheapDown_sifted sifting fits whole named
      rw [keys]
      apply (ordered.mono (Nat.le_succ _)).sinking_update earlier
      intro _
      rw [aboveKey]
      exact late
    next early =>
      apply reheapUp_sifted sifting fits named
      rw [keys]
      apply (ordered.mono (Nat.le_succ _)).rising_update earlier
      rw [aboveKey]
      exact not_le.mp early

/-- The heap loses the entry at `slot`; the ids of the others go on knowing
their slots. -/
theorem refill_ok {slot : Nat} {node : TimerNode τ} (placed : Placed queue (queue.curSize + 1))
    (ordered : Ordered (key ∘ queue.heap) (queue.curSize + 1)) (room : queue.curSize + 1 ≤ queue.maxSize)
    (inside : slot ≤ queue.curSize) (found : queue.heap slot = some node) :
    ∃ heap timerIds, queue.refill slot = .ok { queue with heap, timerIds } ∧
      (contents queue.heap (queue.curSize + 1)).Perm (some node :: contents heap queue.curSize) ∧
      Placed { queue with heap, timerIds } queue.curSize ∧ Ordered (key ∘ heap) queue.curSize ∧
      ∀ timerId, (∀ other, some other ∈ contents heap queue.curSize → other.timerId ≠ timerId) →
        timerIds timerId = queue.timerIds timerId := by
  have taken := contents_remove queue.heap inside
  rw [found] at taken
  rcases lt_or_eq_of_le inside with earlier | rfl
  · obtain ⟨moved, foundLast, _⟩ := placed queue.curSize (by omega)
    rw [foundLast] at taken
    obtain ⟨next, refilled, same, placed', ordered', frame, others⟩ :=
      moveTo_reheap placed ordered room earlier foundLast
    refine ⟨next.heap, next.timerIds, ?_, taken.trans (same.symm.cons _), ?_, ordered', ?_⟩
    · rw [refilled, frame]
      rfl
    · rw [frame] at placed'
      exact placed'
    · intro timerId absent
      have absent' : ∀ node, some node ∈ contents (queue.moveTo slot moved).heap queue.curSize →
          node.timerId ≠ timerId := fun node member => absent node (same.mem_iff.mpr member)
      have foreign := absent' moved (mem_contents earlier (Function.update_self ..))
      rw [others timerId absent', moveTo_timerIds, Function.update_of_ne (Ne.symm foreign)]
  · have unmoved : contents (Function.update queue.heap queue.curSize (queue.heap queue.curSize)) queue.curSize =
        contents queue.heap queue.curSize := by rw [Function.update_eq_self]
    rw [unmoved] at taken
    exact ⟨queue.heap, queue.timerIds, if_neg (lt_irrefl _), taken, fun i below => placed i (by omega),
      ordered.mono (by omega), fun _ _ => rfl⟩

private theorem armed_perm {heap : Nat → Option (TimerNode τ)} {count : Nat} {node : TimerNode τ}
    (same : (contents queue.heap queue.curSize).Perm (some node :: contents heap count))
    (left : next.heap = heap) (size : next.curSize = count) : queue.armed.Perm (node :: next.armed) := by
  rw [armed_contents, armed_contents, left, size]
  exact same.filterMap id

def takenOut (queue : TimerHeap τ) (count : Nat) (node : TimerNode τ) (heap : Nat → Option (TimerNode τ))
    (timerIds : Nat → Int) : TimerHeap τ :=
  { queue with
    curSize := count
    curLimbo := queue.curLimbo + 1
    heap
    timerIds := Function.update timerIds node.timerId (-2) }

private theorem takenOut_linked {count : Nat} {node : TimerNode τ} {heap : Nat → Option (TimerNode τ)}
    {timerIds : Nat → Int} (linked : Linked queue held) (named : node.timerId < queue.maxSize)
    (placed : Placed { queue with curSize := count, heap, timerIds } count)
    (idsSame : (ids queue held).Perm (ids (queue.takenOut count node heap timerIds) (node :: held)))
    (others : ∀ timerId, (∀ other, some other ∈ contents heap count → other.timerId ≠ timerId) →
      timerIds timerId = queue.timerIds timerId) :
    Linked (queue.takenOut count node heap timerIds) (node :: held) := by
  have distinct := idsSame.nodup_iff.mp linked.nodup
  rw [ids, List.map_append] at distinct
  obtain ⟨_, keptDistinct, apart⟩ := List.nodup_append.mp distinct
  have foreign : ∀ kept ∈ node :: held, ∀ other, some other ∈ contents heap count → other.timerId ≠ kept.timerId := by
    intro kept member other inHeap
    exact apart _ (List.mem_map_of_mem (mem_armed.mpr inHeap)) _ (List.mem_map_of_mem member)
  refine ⟨?_, ?_, keptDistinct, ?_⟩
  · intro i below
    obtain ⟨other, found, namedOther, back⟩ := placed i below
    have different := foreign node List.mem_cons_self other (mem_contents below found)
    exact ⟨other, found, namedOther, by simpa [takenOut, different] using back⟩
  · intro kept member
    by_cases same : kept.timerId = node.timerId
    · exact ⟨same ▸ named, by simp [takenOut, same]⟩
    · have earlier : kept ∈ held := by
        rcases List.mem_cons.mp member with rfl | earlier
        · exact absurd rfl same
        · exact earlier
      refine ⟨(linked.limbo kept earlier).1, ?_⟩
      show Function.update timerIds node.timerId (-2) kept.timerId = -2
      rw [Function.update_of_ne same, others _ (foreign kept member)]
      exact (linked.limbo kept earlier).2
  · intro timerId inside used
    by_contra absent
    have different : timerId ≠ node.timerId := by
      rintro rfl
      exact absent (mem_ids.mpr (.inr ⟨node, List.mem_cons_self, rfl⟩))
    have unmoved : (queue.takenOut count node heap timerIds).timerIds timerId = queue.timerIds timerId := by
      show Function.update timerIds node.timerId (-2) timerId = queue.timerIds timerId
      rw [Function.update_of_ne different]
      apply others
      intro other inHeap same
      exact absent (mem_ids.mpr (.inl ⟨other, mem_armed.mpr inHeap, same⟩))
    rw [Free, unmoved] at used
    exact absent (idsSame.mem_iff.mp (linked.used timerId inside used))

theorem remove_ok {slot : Nat} {node : TimerNode τ} (valid : Valid queue held) (inside : slot < queue.curSize)
    (found : queue.heap slot = some node) :
    ∃ next, queue.remove slot = .ok (node, next) ∧ Becomes queue next (node :: held) ∧
      queue.armed.Perm (node :: next.armed) := by
  have room := valid.room
  obtain ⟨count, total⟩ : ∃ count, queue.curSize = count + 1 := ⟨queue.curSize - 1, by omega⟩
  obtain ⟨node', found', named, _⟩ := valid.placed slot inside
  cases found.symm.trans found'
  obtain ⟨heap, timerIds, refilled, same, placed, ordered, others⟩ :=
    @refill_ok τ { queue with curSize := count } slot node (total ▸ valid.placed) (total ▸ valid.ordered)
      (show count + 1 ≤ queue.maxSize by omega) (show slot ≤ count by omega) found
  have armedSame : queue.armed.Perm (node :: (queue.takenOut count node heap timerIds).armed) := by
    apply armed_perm _ rfl rfl
    rw [total]
    exact same
  have idsSame : (ids queue held).Perm (ids (queue.takenOut count node heap timerIds) (node :: held)) :=
    ((armedSame.append_right held).trans List.perm_middle.symm).map _
  have linked := takenOut_linked valid.toLinked named placed idsSame others
  refine ⟨queue.takenOut count node heap timerIds, ?_, ⟨⟨linked, ordered, ?_, ?_, ?_⟩, le_rfl⟩, armedSame⟩
  · rw [remove, node_ok (by omega) found, ok_bind, decrement_ok (by omega), ok_bind, total, Nat.add_sub_cancel, refilled,
      ok_bind, setIdSlot, if_pos (show node.timerId < queue.maxSize from named)]
    rfl
  · show queue.curLimbo + 1 = (node :: held).length
    rw [valid.limboCount, List.length_cons]
  · show count + (queue.curLimbo + 1) + 2 ≤ queue.maxSize
    omega
  · exact valid.covered linked idsSame.symm rfl rfl valid.pool

def pushed (queue : TimerHeap τ) (timerId : Nat) : TimerHeap τ :=
  { queue with
    timerIds := Function.update queue.timerIds timerId (-1)
    timerIdsMinFree :=
      if timerId < queue.timerIdsMinFree ∧ timerId ≤ queue.timerIdsCurr then timerId else queue.timerIdsMinFree }

theorem free_pushed {timerId other : Nat} :
    Free (queue.pushed timerId) other ↔ Free queue other ∨ other = timerId := by
  by_cases same : other = timerId
  · subst same
    simp [Free, pushed]
  · simp [Free, pushed, same]

theorem pushFreelist_ok {timerId size limbo : Nat} (named : timerId < queue.maxSize)
    (counted : queue.countOut (queue.timerIds timerId) = .ok { queue with curSize := size, curLimbo := limbo }) :
    queue.pushFreelist timerId = .ok { queue.pushed timerId with curSize := size, curLimbo := limbo } := by
  rw [pushFreelist, idSlot_ok named, ok_bind, counted, ok_bind, setIdSlot, if_pos (show timerId < queue.maxSize from named),
    ok_bind, pushed]
  split <;> rfl

/-- What `push_freelist` leaves of a node in limbo. -/
def givenBack (queue : TimerHeap τ) (timerId : Nat) : TimerHeap τ :=
  { queue.pushed timerId with curLimbo := queue.curLimbo - 1 }

private theorem givenBack_linked {node : TimerNode τ} (linked : Linked queue (node :: held)) :
    Linked (queue.givenBack node.timerId) held := by
  have distinct := linked.distinct
  rw [List.map_cons, List.nodup_cons] at distinct
  have foreign : ∀ other ∈ held, other.timerId ≠ node.timerId := by
    intro other member same
    exact distinct.1 (same ▸ List.mem_map_of_mem member)
  refine ⟨?_, ?_, distinct.2, ?_⟩
  · intro i below
    obtain ⟨other, found, named, back⟩ := linked.placed i below
    have different : other.timerId ≠ node.timerId := by
      intro same
      rw [same, (linked.limbo node List.mem_cons_self).2] at back
      omega
    exact ⟨other, found, named, by simpa [givenBack, pushed, different] using back⟩
  · intro other member
    obtain ⟨named, away⟩ := linked.limbo other (List.mem_cons_of_mem _ member)
    exact ⟨named, by simpa [givenBack, pushed, foreign other member] using away⟩
  · intro timerId inside used
    have used := not_or.mp (fun unused => used (free_pushed.mpr unused))
    rcases mem_ids.mp (linked.used timerId inside used.1) with armed | ⟨other, member, rfl⟩
    · exact mem_ids.mpr (.inl armed)
    · rcases List.mem_cons.mp member with rfl | kept
      · exact absurd rfl used.2
      · exact mem_ids.mpr (.inr ⟨other, kept, rfl⟩)

theorem freeNode_ok {node : TimerNode τ} (valid : Valid queue (node :: held)) :
    ∃ next, queue.freeNode node = .ok next ∧ Becomes queue next held ∧ next.armed = queue.armed := by
  obtain ⟨named, away⟩ := valid.limbo node List.mem_cons_self
  have limbo := valid.limboCount
  have room := valid.room
  rw [List.length_cons] at limbo
  refine ⟨queue.givenBack node.timerId, ?_,
    ⟨⟨givenBack_linked valid.toLinked, valid.ordered, ?_, ?_, ?_⟩, le_rfl⟩, rfl⟩
  · apply pushFreelist_ok named
    rw [away, countOut, if_pos rfl, decrement_ok (by omega)]
    rfl
  · show queue.curLimbo - 1 = held.length
    omega
  · show queue.curSize + (queue.curLimbo - 1) + 2 ≤ queue.maxSize
    omega
  · apply (valid.pool.push node.timerId).congr
    intro other _
    exact free_pushed

/-- What `insert` makes of a queue with room for the node: `away` are the nodes
out of the heap before, `new` among them if it comes back. -/
structure Joins (queue : TimerHeap τ) (away held : List (TimerNode τ)) (new : TimerNode τ) : Prop where
  linked : Linked queue away
  kept : ∀ node ∈ held, node ∈ away
  left : ∀ node ∈ away, node ∈ held ∨ node.timerId = new.timerId
  distinct : (held.map TimerNode.timerId).Nodup
  fresh : new.timerId ∉ ids queue held
  named : new.timerId < queue.maxSize
  ordered : Ordered (key ∘ queue.heap) queue.curSize
  space : queue.curSize + 1 ≤ queue.maxSize

section
variable {away : List (TimerNode τ)} {new : TimerNode τ}

theorem Joins.mem_ids (joins : Joins queue away held new) {timerId : Nat} (different : timerId ≠ new.timerId) :
    timerId ∈ ids queue away ↔ timerId ∈ ids queue held := by
  rw [TimerHeap.mem_ids, TimerHeap.mem_ids]
  apply or_congr_right
  constructor
  · rintro ⟨node, member, rfl⟩
    rcases joins.left node member with kept | same
    · exact ⟨node, kept, rfl⟩
    · exact absurd same different
  · rintro ⟨node, member, rfl⟩
    exact ⟨node, joins.kept node member, rfl⟩

theorem mem_entries {node : TimerNode τ}
    (member : some node ∈ contents (Function.update queue.heap queue.curSize (some new)) (queue.curSize + 1)) :
    node = new ∨ node ∈ queue.armed := by
  obtain ⟨i, inside, found⟩ := List.mem_map.mp member
  have below := List.mem_range.mp inside
  by_cases last : i = queue.curSize
  · subst last
    rw [Function.update_self] at found
    exact .inl (Option.some.inj found).symm
  · rw [Function.update_of_ne last] at found
    exact .inr (mem_armed_slot.mpr ⟨i, by omega, found⟩)

theorem Joins.reheap (joins : Joins queue away held new) :
    ∃ reached, queue.reheapUp new queue.curSize (aceHeapParent queue.curSize) = .ok reached ∧
      Sifted queue (Function.update queue.heap queue.curSize (some new)) (queue.curSize + 1) reached := by
  have sifting : Sifting queue (Function.update queue.heap queue.curSize (some new)) (queue.curSize + 1) new queue
      queue.curSize := by
    refine ⟨Nat.lt_succ_self _, .refl _, ?_, rfl, fun _ _ => rfl⟩
    intro i below apart
    obtain ⟨node, found, named, back⟩ := joins.linked.placed i (by omega)
    refine ⟨node, found, named, ?_, back⟩
    intro same
    exact joins.fresh (TimerHeap.mem_ids.mpr (.inl ⟨node, mem_armed_slot.mpr ⟨i, by omega, found⟩, same⟩))
  apply reheapUp_sifted sifting joins.space joins.named
  rw [Function.comp_update]
  exact joins.ordered.rising_last _

private theorem sifted_armed {reached : TimerHeap τ}
    (sifted : Sifted queue (Function.update queue.heap queue.curSize (some new)) (queue.curSize + 1) reached) :
    ({ reached with curSize := queue.curSize + 1 } : TimerHeap τ).armed.Perm (new :: queue.armed) := by
  have unmoved : contents (Function.update queue.heap queue.curSize (some new)) queue.curSize =
      contents queue.heap queue.curSize :=
    contents_congr fun i below => Function.update_of_ne (Nat.ne_of_lt below) ..
  have entries : contents (Function.update queue.heap queue.curSize (some new)) (queue.curSize + 1) =
      contents queue.heap queue.curSize ++ [some new] := by
    rw [contents_succ, Function.update_self, unmoved]
  have same := sifted.same.filterMap id
  rw [entries, List.filterMap_append, ← armed_contents queue] at same
  rw [armed_contents]
  exact same.trans List.perm_append_comm

private theorem mem_ids_joined (armedSame : next.armed.Perm (new :: queue.armed)) {timerId : Nat} :
    timerId ∈ ids next held ↔ timerId = new.timerId ∨ timerId ∈ ids queue held := by
  rw [ids, ((armedSame.append_right held).map _).mem_iff, List.cons_append, List.map_cons, List.mem_cons]
  rfl

theorem Joins.joined (joins : Joins queue away held new) {reached : TimerHeap τ}
    (sifted : Sifted queue (Function.update queue.heap queue.curSize (some new)) (queue.curSize + 1) reached) :
    Linked { reached with curSize := queue.curSize + 1 } held := by
  have size : reached.maxSize = queue.maxSize := by rw [sifted.frame]
  have armedSame := sifted_armed sifted
  refine ⟨sifted.placed, ?_, joins.distinct, ?_⟩
  · intro node member
    obtain ⟨named, outside⟩ := joins.linked.limbo node (joins.kept node member)
    refine ⟨size ▸ named, ?_⟩
    show reached.timerIds node.timerId = -2
    rw [sifted.others node.timerId ?_, outside]
    intro other inHeap same
    rcases mem_entries inHeap with rfl | inQueue
    · exact joins.fresh (TimerHeap.mem_ids.mpr (.inr ⟨node, member, same.symm⟩))
    · have back := (joins.linked.placed.armed inQueue).2.1
      rw [same, outside] at back
      omega
  · intro timerId inside used
    by_contra absent
    rw [TimerHeap.mem_ids, not_or] at absent
    have different : timerId ≠ new.timerId := by
      rintro rfl
      exact absent.1 ⟨new, armedSame.mem_iff.mpr List.mem_cons_self, rfl⟩
    have unmoved : reached.timerIds timerId = queue.timerIds timerId := by
      apply sifted.others
      intro node inHeap same
      rcases mem_entries inHeap with rfl | inQueue
      · exact different same.symm
      · exact absent.1 ⟨node, armedSame.mem_iff.mpr (List.mem_cons_of_mem _ inQueue), same⟩
    rw [Free, unmoved] at used
    rcases TimerHeap.mem_ids.mp ((joins.mem_ids different).mp (joins.linked.used timerId (size ▸ inside) used)) with
      ⟨node, inQueue, same⟩ | inHeld
    · exact absent.1 ⟨node, armedSame.mem_iff.mpr (List.mem_cons_of_mem _ inQueue), same⟩
    · exact absent.2 inHeld

theorem Joins.valid (joins : Joins queue away held new) (limboCount : queue.curLimbo = held.length)
    (room : queue.curSize + queue.curLimbo + 3 ≤ queue.maxSize)
    (pool : Covered (fun other => Free queue other ∧ other ≠ new.timerId) queue.maxSize queue.timerIdsCurr
      queue.timerIdsMinFree) :
    ∃ reached, queue.reheapUp new queue.curSize (aceHeapParent queue.curSize) = .ok reached ∧
      Valid { reached with curSize := reached.curSize + 1 } held ∧
      ({ reached with curSize := reached.curSize + 1 } : TimerHeap τ).armed.Perm (new :: queue.armed) ∧
      reached.maxSize = queue.maxSize := by
  obtain ⟨reached, sifts, sifted⟩ := joins.reheap
  have armedSame := sifted_armed sifted
  have linked := joins.joined sifted
  have count : reached.curSize = queue.curSize := by rw [sifted.frame]
  have size : reached.maxSize = queue.maxSize := by rw [sifted.frame]
  have limbo : reached.curLimbo = queue.curLimbo := by rw [sifted.frame]
  have curr : reached.timerIdsCurr = queue.timerIdsCurr := by rw [sifted.frame]
  have remembered : reached.timerIdsMinFree = queue.timerIdsMinFree := by rw [sifted.frame]
  rw [← count] at armedSame linked
  refine ⟨reached, sifts, ⟨linked, ?_, ?_, ?_, ?_⟩, armedSame, size⟩
  · rw [count]
    exact sifted.ordered
  · exact limbo.trans limboCount
  · show reached.curSize + 1 + reached.curLimbo + 2 ≤ reached.maxSize
    omega
  · rw [← size, ← curr, ← remembered] at pool
    apply pool.congr
    intro timerId inside
    rw [linked.free_iff inside, joins.linked.free_iff (size ▸ inside)]
    by_cases same : timerId = new.timerId
    · simp [mem_ids_joined armedSame, same]
    · simp only [mem_ids_joined armedSame, joins.mem_ids same, same, false_or, ne_eq, not_false_eq_true, and_true]

end

theorem grown_heap {i : Nat} (inside : i < queue.maxSize) : queue.growHeap.heap i = queue.heap i := if_pos inside

theorem grown_timerIds {timerId : Nat} (inside : timerId < queue.maxSize) :
    queue.growHeap.timerIds timerId = queue.timerIds timerId := if_pos inside

private theorem grown_contents (inside : queue.curSize ≤ queue.maxSize) :
    contents queue.growHeap.heap queue.curSize = contents queue.heap queue.curSize :=
  contents_congr fun _ below => grown_heap (below.trans_le inside)

theorem grown_armed (inside : queue.curSize ≤ queue.maxSize) : queue.growHeap.armed = queue.armed := by
  rw [armed_contents, armed_contents queue, ← grown_contents inside]
  rfl

/-- The new ids are free: -2 is not among the values they get. -/
theorem grown_free {timerId : Nat} (big : 2 ≤ queue.maxSize) :
    Free queue.growHeap timerId ↔ timerId < queue.maxSize → Free queue timerId := by
  by_cases inside : timerId < queue.maxSize
  · rw [Free, grown_timerIds inside]
    simp [inside, Free]
  · have value : queue.growHeap.timerIds timerId = -(timerId + 1) := if_neg inside
    rw [Free, value]
    simp only [inside, false_implies, iff_true]
    omega

private theorem grown_linked (linked : Linked queue held) (inside : queue.curSize ≤ queue.maxSize)
    (big : 2 ≤ queue.maxSize) :
    Linked queue.growHeap held := by
  have larger : queue.maxSize ≤ queue.growHeap.maxSize := by
    show queue.maxSize ≤ queue.maxSize * 2
    omega
  refine ⟨?_, ?_, linked.distinct, ?_⟩
  · intro i below
    obtain ⟨node, found, named, back⟩ := linked.placed i below
    refine ⟨node, ?_, named.trans_le larger, ?_⟩
    · rw [grown_heap (below.trans_le inside), found]
    · rw [grown_timerIds named, back]
  · intro node member
    obtain ⟨named, away⟩ := linked.limbo node member
    exact ⟨named.trans_le larger, (grown_timerIds named).trans away⟩
  · intro timerId _ used
    rw [grown_free big, Classical.not_imp] at used
    rw [ids, grown_armed inside]
    exact linked.used timerId used.1 used.2

/-- `insert` on a queue whose pool has given out the id of the node. A heap
that is nearly full grows first. -/
theorem insert_ok {away : List (TimerNode τ)} {new : TimerNode τ} (joins : Joins queue away held new)
    (limboCount : queue.curLimbo = held.length) (big : 2 ≤ queue.maxSize)
    (pool : Covered (fun other => Free queue other ∧ other ≠ new.timerId) queue.maxSize queue.timerIdsCurr
      queue.timerIdsMinFree)
    (single : queue.curSize + queue.curLimbo + 2 ≥ queue.maxSize →
      ∃ lost, ∀ timerId, timerId < queue.maxSize → Free queue timerId ∧ timerId ≠ new.timerId → timerId = lost)
    (fits : queue.curSize + queue.curLimbo + 2 ≤ queue.maxSize) :
    ∃ next, queue.insert new = .ok next ∧ Becomes queue next held ∧ next.armed.Perm (new :: queue.armed) := by
  rw [insert]
  split
  next full =>
    have below : queue.curSize ≤ queue.maxSize := by omega
    have larger : queue.maxSize ≤ queue.growHeap.maxSize := by
      show queue.maxSize ≤ queue.maxSize * 2
      omega
    have fresh : new.timerId ∉ ids queue.growHeap held := by
      rw [ids, grown_armed below]
      exact joins.fresh
    have ordered : Ordered (key ∘ queue.growHeap.heap) queue.curSize := by
      intro i positive inside
      have above := parent_lt positive
      show key (queue.growHeap.heap (parent i)) ≤ key (queue.growHeap.heap i)
      rw [grown_heap (by omega), grown_heap (by omega)]
      exact joins.ordered i positive inside
    have grown : Joins queue.growHeap away held new :=
      { joins with
        linked := grown_linked joins.linked below big
        fresh
        named := joins.named.trans_le larger
        ordered
        space := joins.space.trans larger }
    have covered : Covered (fun other => Free queue.growHeap other ∧ other ≠ new.timerId) queue.growHeap.maxSize
        queue.timerIdsCurr queue.growHeap.maxSize := by
      apply pool.grow larger _ (single full)
      rintro timerId inside ⟨unused, different⟩
      exact ⟨(grown_free big).mp unused inside, different⟩
    have room : queue.curSize + queue.curLimbo + 3 ≤ queue.growHeap.maxSize := by
      show queue.curSize + queue.curLimbo + 3 ≤ queue.maxSize * 2
      omega
    obtain ⟨reached, sifts, valid, armedSame, size⟩ := grown.valid limboCount room covered
    rw [grown_armed below] at armedSame
    exact ⟨_, by simp [sifts], ⟨valid, larger.trans_eq size.symm⟩, armedSame⟩
  next calm =>
    obtain ⟨reached, sifts, valid, armedSame, size⟩ := joins.valid limboCount (by omega) pool
    exact ⟨_, by simp [sifts], ⟨valid, size.ge⟩, armedSame⟩

theorem scheduleI_ok (valid : Valid queue held) (type : τ) (act : Nat) (futureTime interval : Int) :
    ∃ timerId next, queue.scheduleI type act futureTime interval = .ok (Int.ofNat timerId, next) ∧ Becomes queue next held ∧
      next.armed.Perm ({ type, act, timerValue := futureTime, interval, timerId } :: queue.armed) ∧
      timerId ∉ ids queue held := by
  have room := valid.room
  have limbo := valid.limboCount
  have exact' : ∀ timerId, timerId < queue.maxSize → (Free queue timerId ↔ timerId ∉ ids queue held) :=
    fun _ inside => valid.free_iff inside
  have inside : ∀ timerId, timerId ∈ ids queue held → timerId < queue.maxSize := fun _ => valid.below
  have length := valid.length_ids
  obtain ⟨one, two, first, second, different, firstFree, secondFree⟩ :=
    two_free valid.nodup exact' inside (by omega)
  obtain ⟨timerId, minFree, popped, named, unused, covered⟩ :=
    popFreelist_ok valid.pool first second different firstFree secondFree
  have absent := (valid.free_iff named).mp unused
  have joins : Joins { queue with timerIdsCurr := timerId, timerIdsMinFree := minFree } held held
      { type, act, timerValue := futureTime, interval, timerId } := by
    refine ⟨⟨valid.placed, valid.limbo, valid.distinct, valid.used⟩, fun _ member => member, fun _ => .inl,
      valid.distinct, absent, named, valid.ordered, ?_⟩
    show queue.curSize + 1 ≤ queue.maxSize
    omega
  have single : queue.curSize + queue.curLimbo + 2 ≥ queue.maxSize →
      ∃ lost, ∀ other, other < queue.maxSize → Free queue other ∧ other ≠ timerId → other = lost := by
    intro full
    have used : (timerId :: ids queue held).Nodup := List.nodup_cons.mpr ⟨absent, valid.nodup⟩
    apply single_free used
    · intro other below
      rw [exact' other below, List.mem_cons, not_or, and_comm]
    · intro other member
      rcases List.mem_cons.mp member with rfl | member
      · exact named
      · exact inside other member
    · rw [List.length_cons]
      omega
  obtain ⟨next, inserted, becomes, armedSame⟩ :=
    insert_ok joins limbo (show 2 ≤ queue.maxSize by omega) covered single room
  refine ⟨timerId, next, ?_, ⟨becomes.valid, becomes.larger⟩, armedSame, absent⟩
  rw [scheduleI, if_pos (by omega), popped]
  simp [inserted]

theorem reschedule_ok {node new : TimerNode τ} (valid : Valid queue (node :: held))
    (same : new.timerId = node.timerId) :
    ∃ next, queue.reschedule new = .ok next ∧ Becomes queue next held ∧ next.armed.Perm (new :: queue.armed) := by
  obtain ⟨named, away⟩ := valid.limbo node List.mem_cons_self
  have room := valid.room
  have limbo := valid.limboCount
  rw [List.length_cons] at limbo
  have distinct := valid.distinct
  rw [List.map_cons, List.nodup_cons] at distinct
  have fresh : new.timerId ∉ ids queue held := by
    intro member
    rcases mem_ids.mp member with ⟨other, armed, equal⟩ | ⟨other, kept, equal⟩
    · have back := (valid.placed.armed armed).2.1
      rw [equal, same, away] at back
      omega
    · exact distinct.1 (same ▸ equal ▸ List.mem_map_of_mem kept)
  have joins : Joins { queue with curLimbo := queue.curLimbo - 1 } (node :: held) held new := by
    refine ⟨⟨valid.placed, valid.limbo, valid.distinct, valid.used⟩, fun _ => List.mem_cons_of_mem _, ?_, distinct.2,
      fresh, same ▸ named, valid.ordered, ?_⟩
    · intro other member
      rcases List.mem_cons.mp member with rfl | kept
      · exact .inr same.symm
      · exact .inl kept
    · show queue.curSize + 1 ≤ queue.maxSize
      omega
  have pool : Covered (fun other => Free queue other ∧ other ≠ new.timerId) queue.maxSize queue.timerIdsCurr
      queue.timerIdsMinFree := by
    apply valid.pool.congr
    intro other _
    constructor
    · exact And.left
    · intro unused
      refine ⟨unused, ?_⟩
      rintro rfl
      exact unused.2 (same ▸ away)
  obtain ⟨next, inserted, becomes, armedSame⟩ :=
    insert_ok joins (show queue.curLimbo - 1 = held.length by omega) (show 2 ≤ queue.maxSize by omega) pool
      (fun full => absurd (show queue.curSize + (queue.curLimbo - 1) + 2 ≥ queue.maxSize from full) (by omega))
      (show queue.curSize + (queue.curLimbo - 1) + 2 ≤ queue.maxSize by omega)
  refine ⟨next, ?_, ⟨becomes.valid, becomes.larger⟩, armedSame⟩
  rw [reschedule, idSlot_ok (same ▸ named), ok_bind, same, if_pos away, decrement_ok (by omega)]
  simp [inserted]

end IoTGateway.TimerHeap
