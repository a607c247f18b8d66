import Mathlib.Data.Multiset.Filter
import Mathlib.Data.Multiset.MapFold
import IoTGateway.Lib.Refinement
import IoTGateway.Proofs.TimerOperations
import IoTGateway.TimerQueue

/-! The timer queue is a bag of timers: what each request may answer and do to
the bag, without heap, slots or free ids, and that the queue keeps to it. -/

namespace IoTGateway.TimerHeap

open BinaryHeaps IdPools

variable {τ ρ : Type} {queue next : TimerHeap τ} {held : List (TimerNode τ)}

theorem isEmpty_iff : queue.isEmpty = true ↔ queue.curSize = 0 := by simp [isEmpty]

theorem armed_empty (empty : queue.curSize = 0) : queue.armed = [] := by
  rw [armed, empty]
  rfl

/-- Missed expirations of a periodic timer are skipped: it stays on its grid and
comes next after `curTime`, within one interval. -/
theorem recompute_grid {node : TimerNode τ} {curTime : Int} (periodic : 0 < node.interval)
    (due : node.timerValue ≤ curTime) :
    ∃ periods : Nat, 1 ≤ periods ∧
      recomputeNextAbsIntervalTime node curTime =
        { node with timerValue := node.timerValue + periods * node.interval } ∧
      curTime < node.timerValue + periods * node.interval ∧
      node.timerValue + periods * node.interval ≤ curTime + node.interval := by
  have split := Int.emod_add_mul_ediv (curTime - node.timerValue) node.interval
  have low := Int.emod_nonneg (curTime - node.timerValue) (ne_of_gt periodic)
  have high := Int.emod_lt_of_pos (curTime - node.timerValue) periodic
  have whole : 0 ≤ (curTime - node.timerValue) / node.interval := Int.ediv_nonneg (by omega) periodic.le
  obtain ⟨missed, count⟩ := Int.eq_ofNat_of_zero_le whole
  have product : ((missed + 1 : Nat) : Int) * node.interval = node.interval * ↑missed + node.interval := by
    rw [Int.natCast_add, Int.natCast_one, Int.add_mul, Int.one_mul, Int.mul_comm]
  rw [count] at split
  have value : curTime + (node.interval - (curTime - node.timerValue) % node.interval) =
      node.timerValue + ((missed + 1 : Nat) : Int) * node.interval := by omega
  refine ⟨missed + 1, by omega, ?_, by omega, by omega⟩
  simp only [recomputeNextAbsIntervalTime, if_pos due, value]

def again (node : TimerNode τ) (curTime : Int) : List (TimerNode τ) :=
  if node.interval > 0 then [recomputeNextAbsIntervalTime node curTime] else []

theorem dispatchInfo_idle (valid : Valid queue held) {curTime : Int}
    (later : ∀ node ∈ queue.armed, curTime < node.timerValue) : queue.dispatchInfo curTime = .ok (none, queue) := by
  rw [dispatchInfo]
  split
  · rfl
  next filled =>
    obtain ⟨node, _, earliest, _, _, armedSame, _⟩ := removeFirst_ok valid fun empty => filled (isEmpty_iff.mpr empty)
    have ahead := later node (armedSame.mem_iff.mpr List.mem_cons_self)
    rw [earliest, ok_bind, if_neg (not_le.mpr ahead)]
    rfl

theorem dispatchInfo_due (valid : Valid queue held) {curTime : Int} {due : TimerNode τ} (member : due ∈ queue.armed)
    (expired : due.timerValue ≤ curTime) :
    ∃ node rest next, queue.dispatchInfo curTime = .ok (some node.getDispatchInfo, next) ∧ Becomes queue next held ∧
      queue.armed.Perm (node :: rest) ∧ next.armed.Perm (again node curTime ++ rest) ∧
      node.timerValue ≤ curTime ∧ ∀ other ∈ queue.armed, node.timerValue ≤ other.timerValue := by
  have filled : queue.curSize ≠ 0 := by
    intro empty
    rw [armed_empty empty] at member
    exact absurd member List.not_mem_nil
  obtain ⟨node, middle, earliest, removed, taken, armedSame, least⟩ := removeFirst_ok valid filled
  have first := (least due member).trans expired
  have occupied : ¬ queue.isEmpty = true := fun empty => filled (isEmpty_iff.mp empty)
  rw [dispatchInfo, if_neg occupied, earliest, ok_bind, if_pos first, removed, ok_bind]
  by_cases periodic : node.interval > 0
  · have sameId : (recomputeNextAbsIntervalTime node curTime).timerId = node.timerId := by
      rw [recomputeNextAbsIntervalTime, if_pos first]
    obtain ⟨next, inserted, becomes, joined⟩ := reschedule_ok taken.valid sameId
    refine ⟨node, middle.armed, next, ?_, taken.trans becomes, armedSame, ?_, first, least⟩
    · simp only [if_pos periodic, inserted, ok_bind, pure_eq_ok]
    · rw [again, if_pos periodic]
      exact joined
  · obtain ⟨next, freed, becomes, same⟩ := freeNode_ok taken.valid
    refine ⟨node, middle.armed, next, ?_, taken.trans becomes, armedSame, ?_, first, least⟩
    · simp only [if_neg periodic, freed, ok_bind, pure_eq_ok]
    · rw [again, if_neg periodic, same]
      exact .refl _

def timers (queue : TimerHeap τ) : Multiset (TimerNode τ) := queue.armed

/-- What a request may do to a bag of timers. -/
inductive Allows [DecidableEq τ] : Multiset (TimerNode τ) → Request τ → Answer τ → Multiset (TimerNode τ) → Prop where
  | schedule {bag type act futureTime interval timerId} (fresh : ∀ node ∈ bag, node.timerId ≠ timerId) :
      Allows bag (.schedule type act futureTime interval) (.timerId (Int.ofNat timerId))
        ({ type, act, timerValue := futureTime, interval, timerId } ::ₘ bag)
  | cancel {bag node} : Allows (node ::ₘ bag) (.cancel node.timerId) (.cancelled (some node.act)) bag
  | cancelNone {bag timerId} (absent : ∀ node ∈ bag, (node.timerId : Int) ≠ timerId) :
      Allows bag (.cancel timerId) (.cancelled none) bag
  | cancelType {bag type} :
      Allows bag (.cancelType type) (.cancellations (bag.filter (·.type = type)).card) (bag.filter (·.type ≠ type))
  | resetInterval {bag node interval} (member : node ∈ bag) :
      Allows bag (.resetInterval node.timerId interval) (.result 0) (bag.map (withInterval node.timerId interval))
  | resetNone {bag timerId interval} (absent : ∀ node ∈ bag, (node.timerId : Int) ≠ timerId) :
      Allows bag (.resetInterval timerId interval) (.result (-1)) bag
  | idle {bag} {curTime : Int} (later : ∀ node ∈ bag, curTime < node.timerValue) :
      Allows bag (.dispatch curTime) (.dispatched none) bag
  | once {bag node} {curTime : Int} (due : node.timerValue ≤ curTime)
      (least : ∀ other ∈ bag, node.timerValue ≤ other.timerValue)
      (single : node.interval ≤ 0) :
      Allows (node ::ₘ bag) (.dispatch curTime) (.dispatched (some node.getDispatchInfo)) bag
  | periodic {bag node} {curTime : Int} {periods : Nat} (due : node.timerValue ≤ curTime)
      (least : ∀ other ∈ bag, node.timerValue ≤ other.timerValue) (positive : 0 < node.interval)
      (ahead : curTime < node.timerValue + periods * node.interval)
      (soon : node.timerValue + periods * node.interval ≤ curTime + node.interval) :
      Allows (node ::ₘ bag) (.dispatch curTime) (.dispatched (some node.getDispatchInfo))
        ({ node with timerValue := node.timerValue + periods * node.interval } ::ₘ bag)
  | close {bag handlers} (all : bag.map (fun node => (node.type, node.act)) = ↑handlers) :
      Allows bag .close (.deleted handlers) 0

def Holds (queue : TimerHeap τ) (bag : Multiset (TimerNode τ)) : Prop := Valid queue [] ∧ bag = timers queue

theorem timers_cons {node : TimerNode τ} {rest : List (TimerNode τ)} (same : queue.armed.Perm (node :: rest)) :
    timers queue = node ::ₘ rest := by
  rw [timers, Multiset.cons_coe]
  exact Multiset.coe_eq_coe.mpr same

theorem absent_iff {timerId : Int} :
    (∀ node ∈ timers queue, (node.timerId : Int) ≠ timerId) ↔ ∀ node ∈ queue.armed, (node.timerId : Int) ≠ timerId := by
  simp only [timers, Multiset.mem_coe]

section
variable [DecidableEq τ]

/-- The requests that no queue answers: both look at the entry just past the
end of the id array. -/
def Outside (queue : TimerHeap τ) : Request τ → Prop
  | .cancel timerId => timerId = queue.maxSize
  | .resetInterval timerId _ => timerId = queue.maxSize
  | _ => False

theorem dispatch_allowed (valid : Valid queue []) (curTime : Int) :
    ∃ info next, queue.dispatchInfo curTime = .ok (info, next) ∧ Becomes queue next [] ∧
      Allows (timers queue) (.dispatch curTime) (.dispatched info) (timers next) := by
  by_cases present : ∃ node ∈ queue.armed, node.timerValue ≤ curTime
  · obtain ⟨due, member, expired⟩ := present
    obtain ⟨node, rest, next, answered, becomes, before, after, first, least⟩ := dispatchInfo_due valid member expired
    have restLeast : ∀ other ∈ (rest : Multiset (TimerNode τ)), node.timerValue ≤ other.timerValue := by
      intro other inRest
      exact least other (before.mem_iff.mpr (List.mem_cons_of_mem _ inRest))
    refine ⟨_, next, answered, becomes, ?_⟩
    rw [timers_cons before]
    by_cases positive : 0 < node.interval
    · obtain ⟨periods, _, moved, ahead, soon⟩ := recompute_grid positive first
      rw [again, if_pos positive, moved, List.singleton_append] at after
      rw [timers_cons after]
      exact .periodic first restLeast positive ahead soon
    · rw [again, if_neg positive, List.nil_append] at after
      have same : timers next = rest := Multiset.coe_eq_coe.mpr after
      rw [same]
      exact .once first restLeast (not_lt.mp positive)
  · have later : ∀ node ∈ queue.armed, curTime < node.timerValue :=
      fun node member => not_le.mp fun due => present ⟨node, member, due⟩
    exact ⟨none, queue, dispatchInfo_idle valid later, ⟨valid, le_rfl⟩, .idle later⟩

/-- Every request is answered as a bag of timers would, except one that names
the id just past the end. -/
theorem serve_allowed (valid : Valid queue []) {request : Request τ} (inside : ¬ Outside queue request) :
    ∃ answer next, queue.serve request = .ok (answer, next) ∧ Becomes queue next [] ∧
      Allows (timers queue) request answer (timers next) := by
  cases request with
  | schedule type act futureTime interval =>
    obtain ⟨timerId, next, scheduled, becomes, same, fresh⟩ := scheduleI_ok valid type act futureTime interval
    refine ⟨.timerId timerId, next, by simp [serve, scheduled], becomes, ?_⟩
    have after : timers next = { type, act, timerValue := futureTime, interval, timerId } ::ₘ timers queue :=
      timers_cons same
    rw [after]
    apply Allows.schedule
    intro node member equal
    exact fresh (mem_ids.mpr (.inl ⟨node, member, equal⟩))
  | cancel timerId =>
    by_cases present : ∃ node ∈ queue.armed, (node.timerId : Int) = timerId
    · obtain ⟨node, member, rfl⟩ := present
      obtain ⟨next, cancelled, becomes, same⟩ := cancel_armed valid member
      refine ⟨.cancelled (some node.act), next, by simp [serve, cancelled], becomes, ?_⟩
      rw [timers_cons same]
      exact .cancel
    · have absent : ∀ node ∈ queue.armed, (node.timerId : Int) ≠ timerId :=
        fun node member equal => present ⟨node, member, equal⟩
      exact ⟨.cancelled none, queue, by simp [serve, cancel_absent valid inside absent], ⟨valid, le_rfl⟩,
        .cancelNone (absent_iff.mpr absent)⟩
  | cancelType type =>
    obtain ⟨next, cancelled, becomes, same⟩ := cancelType_ok valid type
    refine ⟨.cancellations (queue.armed.filter (·.type = type)).length, next, by simp [serve, cancelled], becomes, ?_⟩
    have left : timers next = (timers queue).filter (·.type ≠ type) := by
      rw [timers, timers, Multiset.filter_coe]
      exact Multiset.coe_eq_coe.mpr same
    have number : (queue.armed.filter (·.type = type)).length = ((timers queue).filter (·.type = type)).card := by
      rw [timers, Multiset.filter_coe, Multiset.coe_card]
    rw [left, number]
    exact .cancelType
  | resetInterval timerId interval =>
    by_cases present : ∃ node ∈ queue.armed, (node.timerId : Int) = timerId
    · obtain ⟨node, member, rfl⟩ := present
      obtain ⟨next, reset, becomes, same⟩ := resetInterval_armed valid member interval
      refine ⟨.result 0, next, by simp [serve, reset], becomes, ?_⟩
      have mapped : timers next = (timers queue).map (withInterval node.timerId interval) := by
        rw [timers, timers, same, Multiset.map_coe]
      rw [mapped]
      exact .resetInterval member
    · have absent : ∀ node ∈ queue.armed, (node.timerId : Int) ≠ timerId :=
        fun node member equal => present ⟨node, member, equal⟩
      exact ⟨.result (-1), queue, by simp [serve, resetInterval_absent valid inside absent], ⟨valid, le_rfl⟩,
        .resetNone (absent_iff.mpr absent)⟩
  | dispatch curTime =>
    obtain ⟨info, next, answered, becomes, allowed⟩ := dispatch_allowed valid curTime
    exact ⟨.dispatched info, next, by simp [serve, answered], becomes, allowed⟩
  | close =>
    obtain ⟨next, closed, becomes, none⟩ := close_ok valid
    refine ⟨.deleted (queue.armed.map fun node => (node.type, node.act)), next, by simp [serve, closed], becomes, ?_⟩
    have emptied : timers next = 0 := by
      rw [timers, none]
      rfl
    rw [emptied]
    exact .close rfl

theorem serve_outside {request : Request τ} (outside : Outside queue request) :
    queue.serve request = .error (.readOutside queue.maxSize) := by
  cases request with
  | cancel timerId =>
    cases outside
    rw [serve, cancel_outside]
    rfl
  | resetInterval timerId interval =>
    cases outside
    rw [serve, resetInterval_outside]
    rfl
  | schedule type act futureTime interval => exact absurd outside id
  | cancelType type => exact absurd outside id
  | dispatch curTime => exact absurd outside id
  | close => exact absurd outside id

def Request.names : Request τ → Option Int
  | .cancel timerId => some timerId
  | .resetInterval timerId _ => some timerId
  | _ => none

theorem serve_valid {request : Request τ} {answer : Answer τ} (valid : Valid queue [])
    (served : queue.serve request = .ok (answer, next)) :
    Becomes queue next [] ∧ Allows (timers queue) request answer (timers next) := by
  have inside : ¬ Outside queue request := by
    intro outside
    rw [serve_outside outside] at served
    cases served
  obtain ⟨answer', next', served', becomes, allowed⟩ := serve_allowed valid inside
  rw [served] at served'
  cases served'
  exact ⟨becomes, allowed⟩

theorem serve_implements :
    Refinements.Implements (serve : TimerHeap τ → Request τ → Checked (Answer τ × TimerHeap τ)) Allows Holds := by
  rintro queue bag request answer next ⟨valid, rfl⟩ served
  obtain ⟨becomes, allowed⟩ := serve_valid valid served
  exact ⟨_, allowed, becomes.valid, rfl⟩

theorem issued_inside {size : Nat} (big : 2 ≤ size) {history : List (Request τ × Answer τ)}
    (run : Histories.Run serve (ofSize size) history queue) :
    Valid queue [] ∧ ∀ request (timerId : Int), (request, .timerId timerId) ∈ history → timerId < queue.maxSize := by
  induction run with
  | start => exact ⟨initial_valid big, fun request timerId member => absurd member List.not_mem_nil⟩
  | @step history state event response next run answered ih =>
    obtain ⟨valid, issued⟩ := ih
    obtain ⟨becomes, allowed⟩ := serve_valid valid answered
    refine ⟨becomes.valid, ?_⟩
    intro request timerId member
    rcases List.mem_append.mp member with earlier | last
    · have known := issued request timerId earlier
      have larger := becomes.larger
      omega
    · obtain ⟨rfl, same⟩ := Prod.mk.inj (List.mem_singleton.mp last)
      generalize before : timers state = bag at allowed
      generalize after : timers next = bag' at allowed
      cases allowed with
      | schedule fresh =>
        cases same
        have armed : _ ∈ next.armed := Multiset.mem_coe.mp (by
          show _ ∈ timers next
          rw [after]
          exact Multiset.mem_cons_self _ _)
        have named := (becomes.valid.placed.armed armed).1
        exact Int.ofNat_lt.mpr named
      | _ => cases same

/-- Over every run the queue is a bag of timers with distinct ids, and it
answers every request whose id it handed out before. -/
theorem timer_queue_refines {size : Nat} (big : 2 ≤ size) {history : List (Request τ × Answer τ)}
    (run : Histories.Run serve (ofSize size) history queue) :
    Refinements.Trace Allows 0 history (timers queue) ∧ ((timers queue).map TimerNode.timerId).Nodup ∧
      ∀ request : Request τ,
        (∀ timerId ∈ request.names, timerId < 0 ∨ ∃ earlier, (earlier, .timerId timerId) ∈ history) →
        ∃ answer next, queue.serve request = .ok (answer, next) ∧ Allows (timers queue) request answer (timers next) := by
  obtain ⟨valid, issued⟩ := issued_inside big run
  obtain ⟨bag, trace, _, rfl⟩ := serve_implements.trace run ⟨initial_valid big, rfl⟩
  refine ⟨trace, ?_, ?_⟩
  · rw [timers, Multiset.map_coe, Multiset.coe_nodup]
    exact valid.placed.nodup_armed
  · intro request known
    have inside : ¬ Outside queue request := by
      intro outside
      have within : ∀ timerId, timerId ∈ request.names → timerId < queue.maxSize := by
        intro timerId named
        rcases known timerId named with negative | ⟨earlier, member⟩
        · omega
        · exact issued earlier timerId member
      cases request with
      | cancel timerId =>
        have := within timerId rfl
        cases outside
        omega
      | resetInterval timerId interval =>
        have := within timerId rfl
        cases outside
        omega
      | _ => exact outside
    obtain ⟨answer, next, served, _, allowed⟩ := serve_allowed valid inside
    exact ⟨answer, next, served, allowed⟩

theorem timer_queue_refines_cancel : ∃ queue : TimerHeap Bool,
    Histories.Run serve (ofSize 2) [(.schedule true 7 5 0, .timerId 1)] queue ∧
      Refinements.Trace Allows 0 [(.schedule true 7 5 0, .timerId 1)] (timers queue) ∧
      ∃ answer next, queue.serve (.cancel 1) = .ok (answer, next) := by
  have run := Histories.Run.step (.start : Histories.Run serve (ofSize 2 : TimerHeap Bool) [] _)
    (rfl : serve (ofSize 2 : TimerHeap Bool) (.schedule true 7 5 0) = .ok (.timerId 1, _))
  obtain ⟨trace, _, serves⟩ := timer_queue_refines (by decide) run
  obtain ⟨answer, next, served, _⟩ := serves (.cancel 1) (by
    intro timerId named
    cases named
    exact .inr ⟨_, List.mem_singleton.mpr rfl⟩)
  exact ⟨_, run, trace, answer, next, served⟩

/-- The range check lets one id too many through: in every state reached,
exactly the requests that name it do not return. -/
theorem serve_returns_iff {size : Nat} (big : 2 ≤ size) {history : List (Request τ × Answer τ)}
    (run : Histories.Run serve (ofSize size) history queue) (request : Request τ) :
    (∃ answer next, queue.serve request = .ok (answer, next)) ↔ request.names ≠ some (queue.maxSize : Int) := by
  obtain ⟨valid, _⟩ := issued_inside big run
  have outside_iff : Outside queue request ↔ request.names = some (queue.maxSize : Int) := by
    cases request <;> simp [Outside, Request.names]
  rw [ne_eq, ← outside_iff]
  constructor
  · rintro ⟨answer, next, served⟩ outside
    rw [serve_outside outside] at served
    cases served
  · intro inside
    obtain ⟨answer, next, served, _⟩ := serve_allowed valid inside
    exact ⟨answer, next, served⟩

theorem serve_returns_iff_last :
    ¬ ∃ answer next, (ofSize 2 : TimerHeap Bool).serve (.cancel 2) = .ok (answer, next) := by
  rw [serve_returns_iff (by decide) .start]
  simp [Request.names, ofSize]

end

end IoTGateway.TimerHeap
