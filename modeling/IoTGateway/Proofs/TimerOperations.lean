import IoTGateway.Proofs.TimerHeap

/-! The operations of the timer heap that its callers use, each by what it does
to the timers in the heap. -/

namespace IoTGateway.TimerHeap

open BinaryHeaps IdPools

variable {τ : Type} {queue next : TimerHeap τ} {held : List (TimerNode τ)}

theorem initial_valid {size : Nat} (big : 2 ≤ size) : Valid (ofSize size : TimerHeap τ) [] := by
  have free : ∀ timerId, Free (ofSize size : TimerHeap τ) timerId := by
    intro timerId
    refine ⟨?_, ?_⟩
    · show (-1 : Int) < 0
      omega
    · show (-1 : Int) ≠ -2
      omega
  refine ⟨⟨?_, ?_, List.nodup_nil, ?_⟩, ?_, rfl, ?_, covered_initial (show 0 < size by omega) (free 0)⟩
  · intro i below
    exact absurd below (Nat.not_lt_zero i)
  · intro node member
    exact absurd member List.not_mem_nil
  · intro timerId _ used
    exact absurd (free timerId) used
  · intro i _ below
    exact absurd below (Nat.not_lt_zero i)
  · show 0 + 0 + 2 ≤ size
    omega

theorem Valid.least (valid : Valid queue held) {root : TimerNode τ} (found : queue.heap 0 = some root) :
    ∀ node ∈ queue.armed, root.timerValue ≤ node.timerValue := by
  intro node member
  obtain ⟨i, below, foundNode⟩ := mem_armed_slot.mp member
  have order := valid.ordered.root_least below
  simpa [found, foundNode] using order

theorem removeFirst_ok (valid : Valid queue held) (filled : queue.curSize ≠ 0) :
    ∃ node next, queue.earliestTime = .ok node.timerValue ∧ queue.removeFirst = .ok (some node, next) ∧
      Becomes queue next (node :: held) ∧ queue.armed.Perm (node :: next.armed) ∧
      ∀ other ∈ queue.armed, node.timerValue ≤ other.timerValue := by
  have positive := Nat.pos_of_ne_zero filled
  have room := valid.room
  obtain ⟨node, found, _⟩ := valid.placed 0 positive
  obtain ⟨next, removed, becomes, armedSame⟩ := remove_ok valid positive found
  have read := node_ok (show 0 < queue.maxSize by omega) found
  refine ⟨node, next, ?_, ?_, becomes, armedSame, valid.least found⟩
  · rw [earliestTime, read]
    rfl
  · rw [removeFirst, if_neg filled, removed]
    rfl

theorem idSlot_absent (valid : Valid queue held) {timerId : Nat} (inside : timerId < queue.maxSize)
    (absent : ∀ node ∈ queue.armed, node.timerId ≠ timerId) : queue.timerIds timerId < 0 := by
  by_contra negative
  have used : ¬ Free queue timerId := fun free => negative free.1
  rcases mem_ids.mp (valid.used timerId inside used) with ⟨node, armed, same⟩ | ⟨node, kept, rfl⟩
  · exact absent node armed same
  · rw [(valid.limbo node kept).2] at negative
    omega

theorem cancel_armed (valid : Valid queue held) {node : TimerNode τ} (member : node ∈ queue.armed) :
    ∃ next, queue.cancel node.timerId = .ok (some node.act, next) ∧ Becomes queue next held ∧
      queue.armed.Perm (node :: next.armed) := by
  obtain ⟨named, _, i, below, found, back⟩ := valid.placed.armed member
  have room := valid.room
  obtain ⟨middle, removed, taken, armedSame⟩ := remove_ok valid below found
  obtain ⟨next, freed, becomes, same⟩ := freeNode_ok taken.valid
  refine ⟨next, ?_, taken.trans becomes, same ▸ armedSame⟩
  have known : ¬ ((node.timerId : Int) < 0 ∨ (node.timerId : Int).toNat > queue.maxSize) := by omega
  have slot : ¬ ((i : Int) < 0) := by omega
  rw [cancel, if_neg known, Int.toNat_natCast, idSlot_ok named, ok_bind, back, if_neg slot, Int.toNat_natCast,
    node_ok (by omega) found]
  simp [removed, freed]

theorem cancel_absent (valid : Valid queue held) {timerId : Int} (inside : timerId ≠ queue.maxSize)
    (absent : ∀ node ∈ queue.armed, (node.timerId : Int) ≠ timerId) : queue.cancel timerId = .ok (none, queue) := by
  rw [cancel]
  split
  · rfl
  next known =>
    have named : timerId.toNat < queue.maxSize := by omega
    have negative := idSlot_absent valid named fun node member same => absent node member (by omega)
    simp only [idSlot_ok named, ok_bind, negative, if_true, pure_eq_ok]

/-- The id just past the end passes the range check. -/
theorem cancel_outside (queue : TimerHeap τ) :
    queue.cancel queue.maxSize = .error (.readOutside queue.maxSize) := by
  have passes : ¬ ((queue.maxSize : Int) < 0 ∨ (queue.maxSize : Int).toNat > queue.maxSize) := by omega
  rw [cancel, if_neg passes, Int.toNat_natCast, idSlot, if_neg (lt_irrefl _)]
  rfl

def withInterval (timerId : Nat) (interval : Int) (node : TimerNode τ) : TimerNode τ :=
  if node.timerId = timerId then { node with interval } else node

private theorem withInterval_same (timerId : Nat) (interval : Int) (node : TimerNode τ) :
    (withInterval timerId interval node).timerId = node.timerId ∧
      (withInterval timerId interval node).timerValue = node.timerValue := by
  rw [withInterval]
  split <;> exact ⟨rfl, rfl⟩

private theorem mapped_valid (valid : Valid queue held) {f : TimerNode τ → TimerNode τ}
    (same : ∀ node, (f node).timerId = node.timerId ∧ (f node).timerValue = node.timerValue)
    {heap : Nat → Option (TimerNode τ)} (entries : ∀ i, i < queue.curSize → heap i = (queue.heap i).map f) :
    Valid { queue with heap } held ∧ ({ queue with heap } : TimerHeap τ).armed = queue.armed.map f := by
  have armedSame : ({ queue with heap } : TimerHeap τ).armed = queue.armed.map f := by
    rw [armed, armed, List.map_filterMap]
    apply List.filterMap_congr
    intro i member
    exact entries i (List.mem_range.mp member)
  have sameIds : ids { queue with heap } held = ids queue held := by
    rw [ids, ids, armedSame, List.map_append, List.map_append, List.map_map]
    congr 1
    exact List.map_congr_left fun node _ => (same node).1
  have keys : ∀ i, i < queue.curSize → key (heap i) = key (queue.heap i) := by
    intro i below
    obtain ⟨node, found, _⟩ := valid.placed i below
    rw [entries i below, found, Option.map_some, key_some, key_some, (same node).2]
  refine ⟨⟨⟨?_, valid.limbo, valid.distinct, ?_⟩, ?_, valid.limboCount, valid.room, valid.pool⟩, armedSame⟩
  · intro i below
    obtain ⟨node, found, named, back⟩ := valid.placed i below
    refine ⟨f node, ?_, ?_, ?_⟩
    · rw [show ({ queue with heap } : TimerHeap τ).heap i = heap i from rfl, entries i below, found, Option.map_some]
    · rw [(same node).1]
      exact named
    · rw [(same node).1]
      exact back
  · intro timerId inside used
    rw [sameIds]
    exact valid.used timerId inside used
  · intro i positive below
    have above := parent_lt positive
    show key (heap (parent i)) ≤ key (heap i)
    rw [keys i below, keys (parent i) (lt_trans above below)]
    exact valid.ordered i positive below

theorem resetInterval_armed (valid : Valid queue held) {node : TimerNode τ} (member : node ∈ queue.armed)
    (interval : Int) :
    ∃ next, queue.resetInterval node.timerId interval = .ok (0, next) ∧ Becomes queue next held ∧
      next.armed = queue.armed.map (withInterval node.timerId interval) := by
  obtain ⟨named, _, i, below, found, back⟩ := valid.placed.armed member
  have room := valid.room
  have entries : ∀ j, j < queue.curSize → Function.update queue.heap i (some { node with interval }) j =
      (queue.heap j).map (withInterval node.timerId interval) := by
    intro j inside
    by_cases same : j = i
    · subst same
      simp [found, withInterval]
    · obtain ⟨other, foundOther, _, backOther⟩ := valid.placed j inside
      have different : other.timerId ≠ node.timerId := by
        intro equal
        rw [equal, back] at backOther
        omega
      simp [same, foundOther, withInterval, different]
  obtain ⟨valid', armedSame⟩ := mapped_valid valid (withInterval_same node.timerId interval) entries
  refine ⟨_, ?_, ⟨valid', le_rfl⟩, armedSame⟩
  have known : ¬ ((node.timerId : Int) < 0 ∨ (node.timerId : Int).toNat > queue.maxSize) := by omega
  have slot : ¬ ((i : Int) < 0) := by omega
  rw [resetInterval, if_neg known, Int.toNat_natCast, idSlot_ok named, ok_bind, back, if_neg slot, Int.toNat_natCast,
    node_ok (by omega) found]
  simp

theorem resetInterval_absent (valid : Valid queue held) {timerId : Int} (inside : timerId ≠ queue.maxSize)
    (absent : ∀ node ∈ queue.armed, (node.timerId : Int) ≠ timerId) (interval : Int) :
    queue.resetInterval timerId interval = .ok (-1, queue) := by
  rw [resetInterval]
  split
  · rfl
  next known =>
    have named : timerId.toNat < queue.maxSize := by omega
    have negative := idSlot_absent valid named fun node member same => absent node member (by omega)
    simp only [idSlot_ok named, ok_bind, negative, if_true, pure_eq_ok]

theorem resetInterval_outside (queue : TimerHeap τ) (interval : Int) :
    queue.resetInterval queue.maxSize interval = .error (.readOutside queue.maxSize) := by
  have passes : ¬ ((queue.maxSize : Int) < 0 ∨ (queue.maxSize : Int).toNat > queue.maxSize) := by omega
  rw [resetInterval, if_neg passes, Int.toNat_natCast, idSlot, if_neg (lt_irrefl _)]
  rfl

section
variable {type : τ}

/-- `cancel (type)` under way: the slots before `i` hold other types, and what
is gone from the heap has the type. -/
structure Cancelling (queue : TimerHeap τ) (held : List (TimerNode τ)) (type : τ) (state : TimerHeap τ × Nat × Nat) :
    Prop where
  becomes : Becomes queue state.1 held
  inside : state.2.1 ≤ state.1.curSize
  passed : ∀ i node, i < state.2.1 → state.1.heap i = some node → node.type ≠ type
  taken : ∃ removed : List (TimerNode τ), queue.armed.Perm (removed ++ state.1.armed) ∧
    (∀ node ∈ removed, node.type = type) ∧ removed.length = state.2.2

theorem Cancelling.bounded {state : TimerHeap τ × Nat × Nat} (cancelling : Cancelling queue held type state)
    (valid : Valid queue held) : state.1.curSize ≤ queue.curSize := by
  obtain ⟨removed, same, _⟩ := cancelling.taken
  have total := same.length_eq
  rw [List.length_append, valid.placed.length_armed, cancelling.becomes.valid.placed.length_armed] at total
  omega

theorem Cancelling.remove {queue' : TimerHeap τ} {i cancelled : Nat} {node : TimerNode τ}
    (cancelling : Cancelling queue held type (queue', i, cancelled)) (below : i < queue'.curSize)
    (found : queue'.heap i = some node) (ours : node.type = type) :
    ∃ middle next, queue'.remove i = .ok (node, middle) ∧ middle.freeNode node = .ok next ∧
      Cancelling queue held type (next, 0, cancelled + 1) ∧ next.curSize + 1 = queue'.curSize := by
  obtain ⟨becomes, _, _, removed, same, earlier, count⟩ := cancelling
  obtain ⟨middle, taken, becomes', armedSame⟩ := remove_ok becomes.valid below found
  obtain ⟨next, freed, becomes'', armedNext⟩ := freeNode_ok becomes'.valid
  have whole := (becomes.trans becomes').trans becomes''
  rw [← armedNext] at armedSame
  refine ⟨middle, next, taken, freed, ⟨whole, Nat.zero_le _, ?_, node :: removed, ?_, ?_, ?_⟩, ?_⟩
  · intro j _ before
    exact absurd before (Nat.not_lt_zero j)
  · exact same.trans ((armedSame.append_left removed).trans List.perm_middle)
  · intro other member
    rcases List.mem_cons.mp member with rfl | member
    · exact ours
    · exact earlier other member
  · rw [List.length_cons, count]
  · have counts := armedSame.length_eq
    rw [List.length_cons, becomes.valid.placed.length_armed, whole.valid.placed.length_armed] at counts
    exact counts.symm

theorem Cancelling.pass {queue' : TimerHeap τ} {i cancelled : Nat} {node : TimerNode τ}
    (cancelling : Cancelling queue held type (queue', i, cancelled)) (below : i < queue'.curSize)
    (found : queue'.heap i = some node) (foreign : node.type ≠ type) :
    Cancelling queue held type (queue', i + 1, cancelled) := by
  obtain ⟨becomes, _, passed, taken⟩ := cancelling
  refine ⟨becomes, below, ?_, taken⟩
  intro j other earlier foundOther
  by_cases here : j = i
  · subst here
    cases found.symm.trans foundOther
    exact foreign
  · have before : j < i := Nat.lt_of_le_of_ne (Nat.le_of_lt_succ earlier) here
    exact passed j other before foundOther

theorem Cancelling.done [DecidableEq τ] {queue' : TimerHeap τ} {i cancelled : Nat}
    (cancelling : Cancelling queue held type (queue', i, cancelled)) (atEnd : ¬ i < queue'.curSize) :
    cancelled = (queue.armed.filter (·.type = type)).length ∧
      queue'.armed.Perm (queue.armed.filter (·.type ≠ type)) := by
  obtain ⟨_, _, passed, removed, same, ours, count⟩ := cancelling
  have rest : ∀ node ∈ queue'.armed, node.type ≠ type := by
    intro node member
    obtain ⟨j, below, found⟩ := mem_armed_slot.mp member
    exact passed j node (lt_of_lt_of_le below (not_lt.mp atEnd)) found
  have allOurs : removed.filter (·.type = type) = removed := List.filter_eq_self.mpr (by simpa using ours)
  have noneOurs : queue'.armed.filter (·.type = type) = [] := List.filter_eq_nil_iff.mpr (by simpa using rest)
  have noneOther : removed.filter (·.type ≠ type) = [] := List.filter_eq_nil_iff.mpr (by simpa using ours)
  have allOther : queue'.armed.filter (·.type ≠ type) = queue'.armed := List.filter_eq_self.mpr (by simpa using rest)
  refine ⟨?_, ?_⟩
  · have filtered := (same.filter (·.type = type)).length_eq
    rw [List.filter_append, allOurs, noneOurs, List.append_nil] at filtered
    exact count.symm.trans filtered.symm
  · have filtered := same.filter (·.type ≠ type)
    rw [List.filter_append, noneOther, allOther, List.nil_append] at filtered
    exact filtered.symm

theorem cancelType_ok [DecidableEq τ] (valid : Valid queue held) (type : τ) :
    ∃ next, queue.cancelType type = .ok ((queue.armed.filter (·.type = type)).length, next) ∧ Becomes queue next held ∧
      next.armed.Perm (queue.armed.filter (·.type ≠ type)) := by
  have advances : Loops.Advances (cancelTypeRound type) (Cancelling queue held type)
      (fun result => result.1 = (queue.armed.filter (·.type = type)).length ∧ Becomes queue result.2 held ∧
        result.2.armed.Perm (queue.armed.filter (·.type ≠ type)))
      (fun state => state.1.curSize * (queue.curSize + 1) + (state.1.curSize - state.2.1)) := by
    rintro ⟨queue', i, cancelled⟩ cancelling
    have room := cancelling.becomes.valid.room
    have bounded := cancelling.bounded valid
    simp only at room bounded ⊢
    rw [cancelTypeRound]
    split
    next below =>
      obtain ⟨node, found, _⟩ := cancelling.becomes.valid.placed i below
      rw [node_ok (show i < queue'.maxSize by omega) found, ok_bind]
      split
      next ours =>
        obtain ⟨middle, next, taken, freed, again, smaller⟩ := cancelling.remove below found ours
        refine .inl ⟨(next, 0, cancelled + 1), by simp [taken, freed], again, ?_⟩
        show next.curSize * (queue.curSize + 1) + (next.curSize - 0) <
          queue'.curSize * (queue.curSize + 1) + (queue'.curSize - i)
        rw [← smaller, Nat.add_mul]
        omega
      next foreign =>
        refine .inl ⟨(queue', i + 1, cancelled), rfl, cancelling.pass below found foreign, ?_⟩
        show queue'.curSize * (queue.curSize + 1) + (queue'.curSize - (i + 1)) <
          queue'.curSize * (queue.curSize + 1) + (queue'.curSize - i)
        omega
    next atEnd =>
      obtain ⟨count, same⟩ := cancelling.done atEnd
      exact .inr ⟨(cancelled, queue'), rfl, count, cancelling.becomes, same⟩
  have initial : Cancelling queue held type (queue, 0, 0) :=
    ⟨⟨valid, le_rfl⟩, Nat.zero_le _, fun i _ below => absurd below (Nat.not_lt_zero i), [], .refl _,
      fun _ member => absurd member List.not_mem_nil, rfl⟩
  have enough : queue.curSize * (queue.curSize + 1) + (queue.curSize - 0) < (queue.curSize + 1) * (queue.curSize + 1) := by
    rw [Nat.add_mul queue.curSize 1]
    omega
  obtain ⟨⟨cancelled, next⟩, finished, total, becomes, same⟩ :=
    Loops.iterate_total advances ((queue.curSize + 1) * (queue.curSize + 1)) (queue, 0, 0) initial enough
  refine ⟨next, ?_, becomes, same⟩
  rw [cancelType, finished, ← total]
  rfl

end

/-- `close` under way: the nodes of the first slots are freed, their slots are
not touched. -/
structure Closing (queue : TimerHeap τ) (i : Nat) (state : TimerHeap τ) : Prop where
  frame : state = { queue with
    curSize := queue.curSize - i
    timerIds := state.timerIds
    timerIdsMinFree := state.timerIdsMinFree }
  gone : ∀ j node, j < i → queue.heap j = some node → state.timerIds node.timerId = -1
  kept : ∀ timerId, (∀ j node, j < i → queue.heap j = some node → node.timerId ≠ timerId) →
    state.timerIds timerId = queue.timerIds timerId
  pool : Covered (Free state) queue.maxSize queue.timerIdsCurr state.timerIdsMinFree

theorem Closing.round {i : Nat} {state : TimerHeap τ} {node : TimerNode τ} (closing : Closing queue i state)
    (placed : Placed queue queue.curSize) (room : queue.curSize ≤ queue.maxSize) (below : i < queue.curSize)
    (found : queue.heap i = some node) (deleted : List (τ × Nat)) :
    ∃ after, closeRound (deleted, state) i = .ok (deleted ++ [(node.type, node.act)], after) ∧
      Closing queue (i + 1) after := by
  obtain ⟨frame, gone, kept, pool⟩ := closing
  obtain ⟨node', found', named, back⟩ := placed i below
  cases found.symm.trans found'
  have apart : ∀ j other, j < i → queue.heap j = some other → other.timerId ≠ node.timerId := by
    intro j other earlier foundOther same
    obtain ⟨other', foundOther', _, backOther⟩ := placed j (lt_trans earlier below)
    cases foundOther.symm.trans foundOther'
    rw [same, back] at backOther
    omega
  have size : state.maxSize = queue.maxSize := by rw [frame]
  have count : state.curSize = queue.curSize - i := by rw [frame]
  have curr : state.timerIdsCurr = queue.timerIdsCurr := by rw [frame]
  have heap : state.heap = queue.heap := by rw [frame]
  have slot : state.timerIds node.timerId = i := (kept _ apart).trans back
  have freed : state.freeNode node = .ok { state.pushed node.timerId with
      curSize := queue.curSize - (i + 1)
      curLimbo := state.curLimbo } := by
    apply pushFreelist_ok (size ▸ named)
    rw [slot, countOut, if_neg (by omega), decrement_ok (by omega), ok_bind, count, Nat.sub_sub]
    rfl
  refine ⟨{ state.pushed node.timerId with curSize := queue.curSize - (i + 1), curLimbo := state.curLimbo }, ?_,
    ⟨?_, ?_, ?_, ?_⟩⟩
  · rw [closeRound, node_ok (show i < state.maxSize by omega) (heap ▸ found), ok_bind, freed]
    rfl
  · rw [frame]
    rfl
  · intro j other earlier foundOther
    by_cases here : j = i
    · subst here
      cases found.symm.trans foundOther
      exact Function.update_self ..
    · have before : j < i := Nat.lt_of_le_of_ne (Nat.le_of_lt_succ earlier) here
      exact (Function.update_of_ne (apart j other before foundOther) ..).trans (gone j other before foundOther)
  · intro timerId absent
    have different := absent i node (Nat.lt_succ_self i) found
    refine (Function.update_of_ne (Ne.symm different) ..).trans (kept timerId ?_)
    intro j other earlier
    exact absent j other (Nat.lt_succ_of_lt earlier)
  · have widened := pool.push node.timerId
    rw [← curr] at widened ⊢
    apply widened.congr
    intro other _
    exact free_pushed

theorem Closing.finish {state : TimerHeap τ} (closing : Closing queue queue.curSize state) (valid : Valid queue held) :
    Becomes queue state held ∧ state.armed = [] := by
  obtain ⟨frame, gone, kept, pool⟩ := closing
  have empty : state.curSize = 0 := by
    rw [frame]
    exact Nat.sub_self _
  have size : state.maxSize = queue.maxSize := by rw [frame]
  have limbo : state.curLimbo = queue.curLimbo := by rw [frame]
  have curr : state.timerIdsCurr = queue.timerIdsCurr := by rw [frame]
  have none : state.armed = [] := by
    rw [armed, empty]
    rfl
  have room := valid.room
  refine ⟨⟨⟨⟨?_, ?_, valid.distinct, ?_⟩, ?_, limbo.trans valid.limboCount, by omega, ?_⟩, size.ge⟩, none⟩
  · intro i below
    exact absurd (empty ▸ below) (Nat.not_lt_zero i)
  · intro node member
    obtain ⟨named, away⟩ := valid.limbo node member
    refine ⟨size ▸ named, (kept _ ?_).trans away⟩
    intro j other below found same
    obtain ⟨other', found', _, back⟩ := valid.placed j below
    cases found.symm.trans found'
    rw [same, away] at back
    omega
  · intro timerId inside used
    rw [ids, none, List.nil_append]
    by_cases freed : ∃ j node, j < queue.curSize ∧ queue.heap j = some node ∧ node.timerId = timerId
    · obtain ⟨j, node, below, found, rfl⟩ := freed
      refine absurd ?_ used
      rw [Free, gone j node below found]
      omega
    · have same : state.timerIds timerId = queue.timerIds timerId :=
        kept timerId fun j node below found equal => freed ⟨j, node, below, found, equal⟩
      rw [Free, same] at used
      rcases mem_ids.mp (valid.used timerId (size ▸ inside) used) with ⟨node, armed, equal⟩ | ⟨node, member, equal⟩
      · obtain ⟨j, below, found⟩ := mem_armed_slot.mp armed
        exact absurd ⟨j, node, below, found, equal⟩ freed
      · exact List.mem_map.mpr ⟨node, member, equal⟩
  · intro i _ below
    exact absurd (empty ▸ below) (Nat.not_lt_zero i)
  · rw [size, curr]
    exact pool

/-- Every timer in the heap is deleted, and its handler told so once. -/
theorem close_ok (valid : Valid queue held) :
    ∃ next, queue.close = .ok (queue.armed.map fun node => (node.type, node.act), next) ∧ Becomes queue next held ∧
      next.armed = [] := by
  have room := valid.room
  have rounds : ∀ i, i ≤ queue.curSize → ∃ state, (List.range i).foldlM closeRound ([], queue) =
      .ok (((List.range i).filterMap queue.heap).map fun node => (node.type, node.act), state) ∧
        Closing queue i state := by
    intro i below
    induction i with
    | zero =>
      exact ⟨queue, rfl, rfl, fun j _ earlier => absurd earlier (Nat.not_lt_zero j), fun _ _ => rfl, valid.pool⟩
    | succ i ih =>
      obtain ⟨state, folded, closing⟩ := ih (by omega)
      obtain ⟨node, found, _⟩ := valid.placed i below
      obtain ⟨after, taken, closing'⟩ := closing.round valid.placed (by omega) below found
        (((List.range i).filterMap queue.heap).map fun node => (node.type, node.act))
      refine ⟨after, ?_, closing'⟩
      rw [List.range_succ, List.foldlM_append, folded]
      simp [taken, found, List.filterMap_append]
  obtain ⟨state, folded, closing⟩ := rounds queue.curSize le_rfl
  exact ⟨state, folded, closing.finish valid⟩

end IoTGateway.TimerHeap
