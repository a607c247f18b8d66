import IoTGateway.Proofs.TimerQueue

/-! Expiration. The handlers are called in the loop, and may arm further timers:
an invariant over the calls made so far says what they do. -/

namespace IoTGateway.TimerHeap

variable {τ ρ : Type} {queue next : TimerHeap τ}

def Due (curTime : Int) (node : TimerNode τ) : Prop := node.timerValue ≤ curTime

instance (curTime : Int) : DecidablePred (Due curTime : TimerNode τ → Prop) :=
  fun node => inferInstanceAs (Decidable (node.timerValue ≤ curTime))

/-- A handler returns from every call, keeps the invariant, and arms or cancels
no timer that is due. -/
structure Orderly (upcall : Upcall τ ρ) (curTime : Int) (invariant : List (DispatchInfo τ) → TimerHeap τ → ρ → Prop) :
    Prop where
  returns : ∀ calls current node rest middle state, invariant calls current state → Valid middle [] →
    current.armed.Perm (node :: rest) → middle.armed.Perm (again node curTime ++ rest) → node.timerValue ≤ curTime →
    ∃ next after, upcall node.getDispatchInfo (middle, state) = .ok (next, after) ∧ Becomes middle next [] ∧
      invariant (calls ++ [node.getDispatchInfo]) next after ∧
      (timers next).filter (Due curTime) = (timers middle).filter (Due curTime)

structure Expiring (queue : TimerHeap τ) (curTime : Int) (invariant : List (DispatchInfo τ) → TimerHeap τ → ρ → Prop)
    (state : TimerHeap τ × ρ × Nat) (dispatched : List (TimerNode τ)) : Prop where
  becomes : Becomes queue state.1 []
  kept : invariant (dispatched.map TimerNode.getDispatchInfo) state.1 state.2.1
  count : state.2.2 = dispatched.length
  split : (timers queue).filter (Due curTime) = ↑dispatched + (timers state.1).filter (Due curTime)
  sorted : dispatched.Pairwise fun one two => one.timerValue ≤ two.timerValue
  before : ∀ one ∈ dispatched, ∀ two ∈ (timers state.1).filter (Due curTime), one.timerValue ≤ two.timerValue

theorem due_card_le {held : List (TimerNode τ)} (valid : Valid queue held) (curTime : Int) :
    ((timers queue).filter (Due curTime)).card ≤ queue.curSize := by
  have all : ((timers queue).filter (Due curTime)).card ≤ (timers queue).card :=
    Multiset.card_le_card (Multiset.filter_le ..)
  rwa [show (timers queue).card = queue.armed.length from rfl, valid.placed.length_armed] at all

private theorem again_later {node : TimerNode τ} {curTime : Int} (due : node.timerValue ≤ curTime) :
    ∀ other ∈ again node curTime, ¬ Due curTime other := by
  intro other member
  rw [again] at member
  split at member
  next periodic =>
    obtain ⟨periods, _, moved, ahead, _⟩ := recompute_grid periodic due
    rw [List.mem_singleton, moved] at member
    subst member
    exact not_le.mpr ahead
  next => exact absurd member List.not_mem_nil

private theorem filter_again {node : TimerNode τ} {curTime : Int} (due : node.timerValue ≤ curTime)
    (rest : Multiset (TimerNode τ)) :
    (↑(again node curTime) + rest).filter (Due curTime) = rest.filter (Due curTime) := by
  rw [Multiset.filter_add, Multiset.filter_eq_nil.mpr, Multiset.zero_add]
  intro other member
  exact again_later due other (Multiset.mem_coe.mp member)

section
variable {upcall : Upcall τ ρ} {curTime : Int} {invariant : List (DispatchInfo τ) → TimerHeap τ → ρ → Prop}

theorem Expiring.round {current : TimerHeap τ} {state : ρ} {number : Nat} {dispatched : List (TimerNode τ)}
    (expiring : Expiring queue curTime invariant (current, state, number) dispatched)
    (orderly : Orderly upcall curTime invariant) {due : TimerNode τ} (member : due ∈ current.armed)
    (expired : due.timerValue ≤ curTime) :
    ∃ node next after, expireRound upcall curTime (current, state, number) = .ok (.inl (next, after, number + 1)) ∧
      Expiring queue curTime invariant (next, after, number + 1) (dispatched ++ [node]) ∧
      ((timers next).filter (Due curTime)).card < ((timers current).filter (Due curTime)).card := by
  obtain ⟨becomes, kept, count, split, sorted, before⟩ := expiring
  simp only at becomes kept count split before
  obtain ⟨node, rest, middle, answered, taken, whole, left, first, least⟩ :=
    dispatchInfo_due becomes.valid member expired
  obtain ⟨next, after, called, becomes', kept', same⟩ :=
    orderly.returns _ current node rest middle state kept taken.valid whole left first
  have current' : timers current = node ::ₘ ↑rest := timers_cons whole
  have middle' : timers middle = ↑(again node curTime) + ↑rest := by
    rw [timers, Multiset.coe_add]
    exact Multiset.coe_eq_coe.mpr left
  have rests : (timers next).filter (Due curTime) = Multiset.filter (Due curTime) ↑rest := by
    rw [same, middle', filter_again first]
  have current'' : (timers current).filter (Due curTime) = node ::ₘ (timers next).filter (Due curTime) := by
    rw [current', Multiset.filter_cons_of_pos _ (show Due curTime node from first), rests]
  refine ⟨node, next, after, ?_, ⟨(becomes.trans taken).trans becomes', ?_, ?_, ?_, ?_, ?_⟩, ?_⟩
  · simp [expireRound, answered, called]
  · rw [List.map_append]
    exact kept'
  · rw [List.length_append, count]
    rfl
  · rw [split, current'', ← Multiset.coe_add, ← Multiset.singleton_add, ← Multiset.add_assoc]
    rfl
  · rw [List.pairwise_append]
    refine ⟨sorted, List.pairwise_singleton .., ?_⟩
    intro one earlier two last
    rw [List.mem_singleton] at last
    subst last
    apply before one earlier
    rw [current'']
    exact Multiset.mem_cons_self ..
  · intro one earlier two remaining
    rcases List.mem_append.mp earlier with earlier | last
    · apply before one earlier
      rw [current'']
      exact Multiset.mem_cons_of_mem remaining
    · rw [List.mem_singleton] at last
      subst last
      simp only [rests] at remaining
      have inRest := Multiset.mem_coe.mp (Multiset.mem_of_mem_filter remaining)
      exact least two (whole.mem_iff.mpr (List.mem_cons_of_mem _ inRest))
  · rw [current'', Multiset.card_cons]
    exact Nat.lt_succ_self _

/-- Every timer that is due is called once, the earlier first, and none is due
afterwards. -/
theorem expire_orderly (orderly : Orderly upcall curTime invariant) (valid : Valid queue []) {start : ρ}
    (initial : invariant [] queue start) {fuel : Nat} (enough : ((timers queue).filter (Due curTime)).card < fuel) :
    ∃ next after, ∃ dispatched : List (TimerNode τ),
      queue.expire upcall start curTime fuel = .ok (next, after, dispatched.length) ∧ Becomes queue next [] ∧
      invariant (dispatched.map TimerNode.getDispatchInfo) next after ∧
      (timers queue).filter (Due curTime) = ↑dispatched ∧
      dispatched.Pairwise (fun one two => one.timerValue ≤ two.timerValue) ∧
      ∀ node ∈ next.armed, curTime < node.timerValue := by
  have advances : Loops.Advances (expireRound upcall curTime)
      (fun state => ∃ dispatched : List (TimerNode τ), Expiring queue curTime invariant state dispatched)
      (fun result => ∃ dispatched, Expiring queue curTime invariant result dispatched ∧
        ∀ node ∈ result.1.armed, curTime < node.timerValue)
      (fun state => ((timers state.1).filter (Due curTime)).card) := by
    rintro ⟨current, state, number⟩ ⟨dispatched, expiring⟩
    by_cases present : ∃ node ∈ current.armed, node.timerValue ≤ curTime
    · obtain ⟨due, member, expired⟩ := present
      obtain ⟨node, next, after, round, expiring', smaller⟩ := expiring.round orderly member expired
      exact .inl ⟨(next, after, number + 1), round, ⟨_, expiring'⟩, smaller⟩
    · have later : ∀ node ∈ current.armed, curTime < node.timerValue :=
        fun node member => not_le.mp fun due => present ⟨node, member, due⟩
      refine .inr ⟨(current, state, number), ?_, dispatched, expiring, later⟩
      simp [expireRound, dispatchInfo_idle expiring.becomes.valid later]
  have fresh : Expiring queue curTime invariant (queue, start, 0) [] :=
    ⟨⟨valid, le_rfl⟩, initial, rfl, (Multiset.zero_add _).symm, .nil, fun one member => absurd member List.not_mem_nil⟩
  rw [expire]
  split
  next empty =>
    have none : queue.armed = [] := armed_empty (isEmpty_iff.mp empty)
    refine ⟨queue, start, [], rfl, ⟨valid, le_rfl⟩, initial, ?_, .nil, ?_⟩
    · rw [timers, none]
      rfl
    · rw [none]
      exact fun node member => absurd member List.not_mem_nil
  next =>
    obtain ⟨⟨next, after, number⟩, finished, dispatched, expiring, later⟩ :=
      Loops.iterate_total advances fuel (queue, start, 0) ⟨[], fresh⟩ enough
    have emptied : (timers next).filter (Due curTime) = 0 :=
      Multiset.filter_eq_nil.mpr fun node member => not_le.mpr (later node member)
    obtain ⟨becomes, kept, count, split, sorted, _⟩ := expiring
    simp only at becomes kept count split later
    rw [emptied, Multiset.add_zero] at split
    refine ⟨next, after, dispatched, ?_, becomes, kept, split, sorted, later⟩
    rw [finished, count]
    rfl

/-- The handler, with a record of its calls. -/
def recorded (upcall : Upcall τ ρ) : Upcall τ (ρ × List (DispatchInfo τ))
  | info, (queue, state) => do
    let (queue, after) ← upcall info (queue, state.1)
    return (queue, (after, state.2 ++ [info]))

private theorem recorded_orderly (orderly : Orderly upcall curTime invariant) :
    Orderly (recorded upcall) curTime (fun calls queue state => invariant calls queue state.1 ∧ state.2 = calls) := by
  refine ⟨?_⟩
  rintro calls current node rest middle ⟨state, record⟩ ⟨kept, same⟩ valid whole left due
  obtain ⟨next, after, called, becomes, kept', filtered⟩ :=
    orderly.returns calls current node rest middle state kept valid whole left due
  refine ⟨next, (after, record ++ [node.getDispatchInfo]), ?_, becomes, ⟨kept', ?_⟩, filtered⟩
  · simp [recorded, called]
  · rw [← same]

/-- The calls of one expiration: each timer that was due, once, in the order of
their times; it returns, and no timer left is due. -/
theorem expire_calls (orderly : Orderly upcall curTime invariant) (valid : Valid queue []) (start : ρ)
    (initial : invariant [] queue start) {fuel : Nat} (enough : ((timers queue).filter (Due curTime)).card < fuel) :
    ∃ next after, ∃ dispatched : List (TimerNode τ),
      queue.expire (recorded upcall) (start, []) curTime fuel =
        .ok (next, (after, dispatched.map TimerNode.getDispatchInfo), dispatched.length) ∧
      (timers queue).filter (Due curTime) = ↑dispatched ∧
      dispatched.Pairwise (fun one two => one.timerValue ≤ two.timerValue) ∧
      ∀ node ∈ next.armed, curTime < node.timerValue := by
  have unrecorded : (fun calls queue (state : ρ × List (DispatchInfo τ)) => invariant calls queue state.1 ∧ state.2 = calls)
      [] queue (start, []) := ⟨initial, rfl⟩
  obtain ⟨next, ⟨after, record⟩, dispatched, expired, _, ⟨_, same⟩, all, sorted, later⟩ :=
    expire_orderly (recorded_orderly orderly) valid unrecorded enough
  rw [show record = _ from same] at expired
  exact ⟨next, after, dispatched, expired, all, sorted, later⟩

def quiet : Upcall Bool Unit := fun _ state => .ok state

private theorem quiet_orderly (curTime : Int) : Orderly quiet curTime fun _ _ _ => True :=
  ⟨fun _ _ _ _ middle state _ valid _ _ _ => ⟨middle, state, rfl, ⟨valid, le_rfl⟩, trivial, rfl⟩⟩

theorem expire_calls_twice : ∃ queue next : TimerHeap Bool, ∃ dispatched : List (TimerNode Bool),
    Histories.Run serve (ofSize 2)
      [(.schedule true 0 8 0, .timerId 1), (.schedule false 0 5 0, .timerId 2)] queue ∧
    queue.expire (recorded quiet) ((), []) 9 3 =
      .ok (next, ((), dispatched.map TimerNode.getDispatchInfo), dispatched.length) ∧
    (timers queue).filter (Due 9) = ↑dispatched ∧
    dispatched.Pairwise (fun one two => one.timerValue ≤ two.timerValue) ∧
    ∀ node ∈ next.armed, 9 < node.timerValue := by
  have first := Histories.Run.step (.start : Histories.Run serve (ofSize 2 : TimerHeap Bool) [] _)
    (rfl : serve (ofSize 2 : TimerHeap Bool) (.schedule true 0 8 0) = .ok (.timerId 1, _))
  have run := first.step (rfl : serve _ (.schedule false 0 5 0) = .ok (.timerId 2, _))
  obtain ⟨valid, _⟩ := issued_inside (by decide) run
  obtain ⟨next, after, dispatched, expired, all, sorted, later⟩ :=
    expire_calls (quiet_orderly 9) valid () trivial (Nat.lt_succ_of_le (due_card_le valid 9))
  exact ⟨_, next, dispatched, run, expired, all, sorted, later⟩

end

end IoTGateway.TimerHeap
