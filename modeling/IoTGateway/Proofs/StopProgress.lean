import IoTGateway.Lib.Progress
import IoTGateway.Proofs.Shutdown

/-! `Gateway::Stop` comes to its end beside the net thread: nothing blocks it for
good, once the flag is set only callbacks delay it, and every object is deleted
once. -/

namespace IoTGateway.Proofs.StopProgress
open Transitions Shutdown

def stopDeletes : List Object := gatewayStop.filterMap object?

/-- Nothing frees the mutex and the context of a wrapper. -/
def leaked : Object → Bool
  | .coapMutex _ | .coapCtx _ => true
  | _ => false

private theorem stopDeletes_perm : stopDeletes.Perm (gatewayInit.filter (!leaked ·)) := by decide

structure Stopping (gateway : Gateway) : Prop where
  ordered : Ordered gateway
  flagged : .setBreakFlag ∉ gateway.todo → gateway.breakNetsvcThreadFlag = true
  deletions : stopDeletes = gateway.deleted.reverse ++ gateway.todo.filterMap object?

theorem running_stopping : Stopping Gateway.running where
  ordered := running_ordered
  flagged := by decide
  deletions := by decide

private theorem perform_flag {gateway next : Gateway} {action : Action} (taken : gateway.perform action = some next) :
    next.breakNetsvcThreadFlag = true ↔ action = .setBreakFlag ∨ gateway.breakNetsvcThreadFlag = true := by
  cases action with
  | deleteWrapper service =>
    simp only [Gateway.perform] at taken
    split at taken <;> cases taken <;> simp
  | wait =>
    simp only [Gateway.perform, Option.ite_none_right_eq_some, Option.some.injEq] at taken
    obtain ⟨_, rfl⟩ := taken
    simp
  | _ =>
    cases taken
    simp

theorem main_step {gateway next : Gateway} (taken : gateway.step .main = some next) : ∃ action,
    gateway.todo = action :: next.todo ∧
      (next.breakNetsvcThreadFlag = true ↔ action = .setBreakFlag ∨ gateway.breakNetsvcThreadFlag = true) := by
  rw [Gateway.step] at taken
  cases todo : gateway.todo with
  | nil => simp [todo] at taken
  | cons action rest =>
    simp only [todo, Option.map_eq_some_iff] at taken
    obtain ⟨acted, performed, rfl⟩ := taken
    have flag := perform_flag performed
    exact ⟨action, rfl, flag⟩

theorem step_stopping : Keeps Gateway.step Stopping := by
  intro gateway move next stopping taken
  have ordered := step_ordered gateway move next stopping.ordered taken
  rcases step_cases stopping.ordered taken with ⟨action, rfl, todo, -, -, deleted, -⟩ | ⟨_, _, -, -, rfl⟩ | ⟨-, _, -, rfl⟩
  · obtain ⟨same, here, flag⟩ := main_step taken
    obtain rfl : action = same := (List.cons.inj (todo.symm.trans here)).1
    refine ⟨ordered, ?_, ?_⟩
    · intro passed
      rw [flag]
      by_cases now : action = .setBreakFlag
      · exact .inl now
      · refine .inr (stopping.flagged ?_)
        simp [todo, Ne.symm now, passed]
    · rw [stopping.deletions, todo, deleted]
      cases deletes : object? action <;> simp [deletes]
  · exact ⟨ordered, stopping.flagged, stopping.deletions⟩
  · exact ⟨ordered, stopping.flagged, stopping.deletions⟩

/-- When `Stop` comes to its wait, the flag is set. -/
theorem waiting_flagged {gateway : Gateway} (stopping : Stopping gateway) {rest : List Action}
    (waits : gateway.todo = .wait :: rest) : gateway.breakNetsvcThreadFlag = true := by
  have all : ∀ left ∈ gatewayStop.tails, left.head? = some .wait → .setBreakFlag ∉ left := by decide
  apply stopping.flagged
  exact all _ ((List.mem_tails _ _).mpr stopping.ordered.rest) (by rw [waits]; rfl)

/-- The steps of the net thread until it exits, once it finds the flag set. -/
def turnsLeft : NetThread → Nat
  | .called _ _ => 5
  | .inWrapper _ _ _ => 4
  | .scheduleTimer _ => 3
  | .handleEvents => 2
  | .checkFlag => 1
  | .exited => 0

def stepsLeft (gateway : Gateway) : Nat := gateway.todo.length + turnsLeft gateway.thread

def Finished (gateway : Gateway) : Prop := gateway.todo = [] ∧ gateway.thread = .exited

theorem main_lowers {gateway next : Gateway} (ordered : Ordered gateway) (taken : gateway.step .main = some next) :
    stepsLeft next < stepsLeft gateway := by
  rcases step_cases ordered taken with ⟨action, -, todo, thread, -⟩ | ⟨_, _, other, -⟩ | ⟨other, -⟩
  · simp [stepsLeft, todo, thread]
  · cases other
  · cases other

theorem proceed_lowers {gateway next : Gateway} (ordered : Ordered gateway)
    (flag : gateway.breakNetsvcThreadFlag = true) (taken : gateway.proceed = some next) :
    stepsLeft next < stepsLeft gateway := by
  obtain ⟨thread, goes, rfl⟩ := proceed_goes ordered taken
  generalize running : gateway.thread = before at goes
  rw [stepsLeft, stepsLeft, running]
  cases goes with
  | loops => simp [Gateway.proceed, running, flag] at taken
  | _ => simp [turnsLeft]

theorem proceed_enabled {gateway : Gateway} (ordered : Ordered gateway) (runs : gateway.thread ≠ .exited) :
    ∃ next, gateway.proceed = some next := by
  rw [Gateway.proceed]
  cases running : gateway.thread with
  | called service callback => simp [ordered.pointer service]
  | inWrapper service callback wrapper => cases callback <;> simp
  | checkFlag => by_cases flag : gateway.breakNetsvcThreadFlag = true <;> simp [flag]
  | exited => exact absurd running runs
  | _ => simp

theorem main_enabled {gateway : Gateway} {action : Action} {rest : List Action} (ordered : Ordered gateway)
    (todo : gateway.todo = action :: rest) (returns : action = .wait → gateway.thread = .exited) :
    ∃ next, gateway.step .main = some next := by
  rw [Gateway.step, todo]
  cases action with
  | deleteWrapper service => simp [Gateway.perform, ordered.pointer service]
  | wait => simp [Gateway.perform, returns rfl]
  | _ => simp [Gateway.perform]

theorem stop_progresses : Progresses Gateway.step Stopping Finished stepsLeft := by
  intro gateway stopping unfinished
  cases todo : gateway.todo with
  | nil =>
    have exited := stopping.ordered.waited (by simp [todo])
    exact absurd ⟨todo, exited⟩ unfinished
  | cons action rest =>
    by_cases returns : action = .wait → gateway.thread = .exited
    · obtain ⟨next, taken⟩ := main_enabled stopping.ordered todo returns
      exact ⟨.main, next, taken, main_lowers stopping.ordered taken⟩
    · obtain ⟨rfl, runs⟩ := Classical.not_imp.mp returns
      obtain ⟨next, taken⟩ := proceed_enabled stopping.ordered runs
      exact ⟨.net, next, taken, proceed_lowers stopping.ordered (waiting_flagged stopping todo) taken⟩

def delivers : Move → Bool
  | .deliver _ _ => true
  | _ => false

structure Flagged (gateway : Gateway) : Prop where
  stopping : Stopping gateway
  flag : gateway.breakNetsvcThreadFlag = true

theorem step_flagged : Keeps Gateway.step Flagged := by
  intro gateway move next flagged taken
  refine ⟨step_stopping gateway move next flagged.stopping taken, ?_⟩
  rcases step_cases flagged.stopping.ordered taken with ⟨_, rfl, -⟩ | ⟨_, _, -, -, rfl⟩ | ⟨-, _, -, rfl⟩
  · obtain ⟨_, _, flag⟩ := main_step taken
    exact flag.mpr (.inr flagged.flag)
  · exact flagged.flag
  · exact flagged.flag

/-- A delivery sets the net thread back by three steps, any other move is one
step to the end. -/
theorem flagged_spends {gateway next : Gateway} {move : Move} (flagged : Flagged gateway)
    (taken : gateway.step move = some next) :
    stepsLeft next + (if delivers move then 0 else 1) ≤ stepsLeft gateway + (if delivers move then 3 else 0) := by
  cases move with
  | main => exact main_lowers flagged.stopping.ordered taken
  | deliver service callback =>
    simp only [Gateway.step, Option.ite_none_right_eq_some, Option.some.injEq] at taken
    obtain ⟨idle, rfl⟩ := taken
    simp [delivers, stepsLeft, turnsLeft, idle]
  | net => exact proceed_lowers flagged.stopping.ordered flagged.flag taken

private theorem weighed (moves : List Move) (weight : Nat) :
    (moves.map fun move => if delivers move then weight else 0).sum = weight * moves.countP delivers ∧
      (moves.map fun move => if delivers move then 0 else 1).sum = moves.countP (!delivers ·) := by
  induction moves with
  | nil => simp
  | cons move moves ih =>
    obtain ⟨heavy, light⟩ := ih
    cases delivered : delivers move <;> simp [delivered, heavy, light, Nat.mul_add] <;> omega

private theorem deliveries_delay {gateway last : Gateway} {moves : List Move} (flagged : Flagged gateway)
    (path : Path Gateway.step gateway moves last) :
    moves.countP (!delivers ·) ≤ stepsLeft gateway + 3 * moves.countP delivers := by
  have paid := path.budget step_flagged flagged fun _ _ _ held taken => flagged_spends held taken
  obtain ⟨gained, spent⟩ := weighed moves 3
  omega

/-- `Stop` can always come to its end, in few steps; with the flag set nothing but
deliveries delays it; it is stuck nowhere else; no object is deleted twice, and
what `Init` created is deleted in the end, but for mutexes and contexts. -/
structure Ends (gateway : Gateway) : Prop where
  possible : ∃ moves last, Path Gateway.step gateway moves last ∧ Finished last ∧ moves.length ≤ stepsLeft gateway
  delayed : gateway.breakNetsvcThreadFlag = true → ∀ moves last, Path Gateway.step gateway moves last →
    moves.countP (!delivers ·) ≤ stepsLeft gateway + 3 * moves.countP delivers
  stuck : (∀ move, gateway.step move = none) → Finished gateway
  once : gateway.deleted.Nodup
  all : Finished gateway → gateway.deleted.Perm (gatewayInit.filter (!leaked ·))

theorem Stopping.ends {gateway : Gateway} (stopping : Stopping gateway) : Ends gateway := by
  have different : stopDeletes.Nodup := by decide
  refine ⟨?_, ?_, ?_, ?_, ?_⟩
  · obtain ⟨moves, last, path, finished, short⟩ := stop_progresses.reaches step_stopping stopping
    exact ⟨moves, last, path, finished, by omega⟩
  · intro flag moves last path
    exact deliveries_delay ⟨stopping, flag⟩ path
  · intro stuck
    by_contra unfinished
    obtain ⟨move, next, taken, _⟩ := stop_progresses gateway stopping unfinished
    rw [stuck move] at taken
    cases taken
  · rw [stopping.deletions] at different
    exact (List.reverse_perm _).nodup_iff.mp (List.nodup_append.mp different).1
  · intro finished
    have all := stopDeletes_perm
    rw [stopping.deletions, finished.1, List.filterMap_nil, List.append_nil] at all
    exact (List.reverse_perm _).symm.trans all

theorem stop_ends {moves : List Move} {state : Gateway} (path : Path Gateway.step Gateway.running moves state) :
    Ends state :=
  (path.invariant step_stopping running_stopping).ends

/-- `Stop` waits while a timer of the proxy fires. -/
theorem stop_ends_waiting : Ends { Gateway.running with
    todo := .wait :: cfgServiceClose ++ fwProxyServiceClose ++ gatewayClose
    thread := .called .proxy .handleTimeout
    breakNetsvcThreadFlag := true
    deleted := [.lookupResource, .rdResource, .coapWrapper .rd] } :=
  @stop_ends [.main, .main, .main, .net, .net, .main, .main, .deliver .proxy .handleTimeout, .main] _ (path_of_run rfl)

structure Serving (gateway : Gateway) : Prop where
  todo : gateway.todo = .wait :: gatewayStop
  flag : gateway.breakNetsvcThreadFlag = false
  deleted : gateway.deleted = []
  runs : gateway.thread ≠ .exited

theorem step_serving : Keeps Gateway.step Serving := by
  intro gateway move next serving taken
  cases move with
  | main => simp [Gateway.step, Gateway.perform, serving.todo, serving.runs] at taken
  | deliver service callback =>
    simp only [Gateway.step, Option.ite_none_right_eq_some, Option.some.injEq] at taken
    obtain ⟨_, rfl⟩ := taken
    exact ⟨serving.todo, serving.flag, serving.deleted, by simp⟩
  | net =>
    have goesOn {thread : NetThread} (runs : thread ≠ .exited) : Serving { gateway with thread := thread } :=
      ⟨serving.todo, serving.flag, serving.deleted, runs⟩
    simp only [Gateway.step, Gateway.proceed] at taken
    split at taken
    next => exact Option.some.inj taken ▸ goesOn (by simp)
    next =>
      split at taken
      · exact Option.some.inj taken ▸ goesOn (by simp)
      · exact Option.some.inj taken ▸ goesOn (by simp)
      · cases taken
    next => exact Option.some.inj taken ▸ goesOn (by simp)
    next => exact Option.some.inj taken ▸ goesOn (by simp)
    next => exact Option.some.inj taken ▸ goesOn (by simp)
    next =>
      split at taken
      next set =>
        rw [serving.flag] at set
        cases set
      next => exact Option.some.inj taken ▸ goesOn (by simp)
    next => cases taken

theorem Serving.safe {gateway : Gateway} (serving : Serving gateway) : Safe gateway :=
  ⟨by simp [serving.deleted], by simp [serving.deleted]⟩

structure Alone (gateway : Gateway) : Prop where
  stopping : Stopping gateway
  exited : gateway.thread = .exited

theorem step_alone : Keeps Gateway.step Alone := by
  intro gateway move next alone taken
  refine ⟨step_stopping gateway move next alone.stopping taken, ?_⟩
  rcases step_cases alone.stopping.ordered taken with ⟨_, -, -, thread, -⟩ | ⟨_, _, -, idle, -⟩ | ⟨-, _, goes, -⟩
  · rw [thread, alone.exited]
  · simp [alone.exited] at idle
  · rw [alone.exited] at goes
    cases goes

theorem Alone.safe {gateway : Gateway} (alone : Alone gateway) : Safe gateway :=
  ⟨by simp [alone.exited], by simp [alone.exited, callee]⟩

theorem main_serving : Serving (Gateway.main true) := ⟨rfl, rfl, rfl, by decide⟩

theorem main_alone : Alone (Gateway.main false) where
  stopping := ⟨⟨List.suffix_rfl, fun _ => rfl, fun _ => rfl, running_ordered.early, by simp [Gateway.main]⟩,
    running_stopping.flagged, running_stopping.deletions⟩
  exited := rfl

/-- Whatever comes of activating the net thread, no callback of the program uses
what is deleted: with the thread, `main` stays in `Start` and deletes nothing;
without it, `Stop` comes to its end. -/
theorem main_safe {activated : Bool} {moves : List Move} {state : Gateway}
    (path : Path Gateway.step (Gateway.main activated) moves state) :
    Safe state ∧ (activated = true → Serving state) ∧ (activated = false → Ends state) := by
  cases activated with
  | true =>
    have serving := path.invariant step_serving main_serving
    exact ⟨serving.safe, fun _ => serving, by simp⟩
  | false =>
    have alone := path.invariant step_alone main_alone
    exact ⟨alone.safe, by simp, fun _ => alone.stopping.ends⟩

def served : Gateway := { Gateway.running with todo := .wait :: gatewayStop, thread := .inWrapper .rd .handleInput (.coapWrapper .rd) }

theorem main_safe_served :
    Safe served ∧ (true = true → Serving served) ∧ (true = false → Ends served) :=
  @main_safe true [.net, .net, .deliver .rd .handleInput, .net] served (path_of_run rfl)

end IoTGateway.Proofs.StopProgress
