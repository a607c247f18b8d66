import Mathlib.Data.List.Infix
import IoTGateway.Gateway
import IoTGateway.Lib.Transition

/-! Every interleaving of `Gateway::Stop` with the net thread. The net service is
closed after `RDService`, whose wrapper a callback may still use; all that is
deleted after the wait is safe. -/

namespace IoTGateway.Proofs.Shutdown
open Transitions

def callee : NetThread → Option Service
  | .called service _ => some service
  | .inWrapper service _ _ => some service
  | .scheduleTimer service => some service
  | _ => none

/-- The service whose callback has not finished with the wrapper. -/
def wrapperUser : NetThread → Option Service
  | .called service _ => some service
  | .inWrapper service _ _ => some service
  | _ => none

structure Safe (gateway : Gateway) : Prop where
  wrapper : ∀ service callback wrapper, gateway.thread = .inWrapper service callback wrapper →
    wrapper ∉ gateway.deleted
  service : ∀ service, callee gateway.thread = some service → .service service ∉ gateway.deleted

/-- Nothing is delivered to `RDService` once its wrapper is deleted, and the
wrapper is not deleted under a callback. -/
def leavesRdAlone (gateway : Gateway) : Move → Bool
  | .main => gateway.todo.head? ≠ some (.deleteWrapper .rd) || wrapperUser gateway.thread ≠ some .rd
  | .deliver service _ => service ≠ .rd || .coapWrapper .rd ∉ gateway.deleted
  | .net => true

def object? : Action → Option Object
  | .deleteWrapper service => some (.coapWrapper service)
  | .delete object => some object
  | _ => none

def rdObjects : List Object := [.coapWrapper .rd, .rdResource, .lookupResource]

inductive Goes : NetThread → NetThread → Prop where
  | returns : Goes .handleEvents .checkFlag
  | enters service callback : Goes (.called service callback) (.inWrapper service callback (.coapWrapper service))
  | handled service wrapper : Goes (.inWrapper service .handleInput wrapper) .handleEvents
  | timedOut service wrapper : Goes (.inWrapper service .handleTimeout wrapper) (.scheduleTimer service)
  | scheduled service : Goes (.scheduleTimer service) .handleEvents
  | loops : Goes .checkFlag .handleEvents
  | breaks : Goes .checkFlag .exited

theorem goes_inWrapper {thread service callback wrapper} (goes : Goes thread (.inWrapper service callback wrapper)) :
    thread = .called service callback ∧ wrapper = .coapWrapper service := by
  cases goes
  exact ⟨rfl, rfl⟩

theorem goes_wrapperUser {before after service} (goes : Goes before after) (user : wrapperUser after = some service) :
    wrapperUser before = some service := by
  cases goes with
  | enters => exact user
  | _ => simp [wrapperUser] at user

/-- What the order of `Stop` keeps, whatever the net thread does. -/
structure Ordered (gateway : Gateway) : Prop where
  rest : gateway.todo <:+ gatewayStop
  pointer : ∀ service, gateway.coapWrapper service = some (.coapWrapper service)
  waited : .wait ∉ gateway.todo → gateway.thread = .exited
  early : ∀ object ∈ gateway.deleted, object ∈ rdObjects ∨ .wait ∉ gateway.todo
  entered : ∀ service callback wrapper, gateway.thread = .inWrapper service callback wrapper →
    wrapper = .coapWrapper service

theorem proceed_goes {gateway next : Gateway} (ordered : Ordered gateway) (taken : gateway.proceed = some next) :
    ∃ thread, Goes gateway.thread thread ∧ next = { gateway with thread := thread } := by
  rw [Gateway.proceed] at taken
  cases running : gateway.thread with
  | handleEvents =>
    simp only [running, Option.some.injEq] at taken
    exact ⟨_, .returns, taken.symm⟩
  | called service callback =>
    simp only [running, ordered.pointer service, Option.some.injEq] at taken
    exact ⟨_, .enters service callback, taken.symm⟩
  | inWrapper service callback wrapper =>
    cases callback with
    | handleInput =>
      simp only [running, Option.some.injEq] at taken
      exact ⟨_, .handled service wrapper, taken.symm⟩
    | handleTimeout =>
      simp only [running, Option.some.injEq] at taken
      exact ⟨_, .timedOut service wrapper, taken.symm⟩
  | scheduleTimer service =>
    simp only [running, Option.some.injEq] at taken
    exact ⟨_, .scheduled service, taken.symm⟩
  | checkFlag =>
    simp only [running] at taken
    split at taken
    · cases taken
      exact ⟨_, .breaks, rfl⟩
    · cases taken
      exact ⟨_, .loops, rfl⟩
  | exited => simp [running] at taken

private theorem perform_some {gateway next : Gateway} {action : Action} (ordered : Ordered gateway)
    (taken : gateway.perform action = some next) :
    next.thread = gateway.thread ∧ next.coapWrapper = gateway.coapWrapper ∧
      next.deleted = (object? action).toList ++ gateway.deleted ∧ (action = .wait → gateway.thread = .exited) := by
  cases action with
  | deleteWrapper service =>
    simp only [Gateway.perform, ordered.pointer service, Option.some.injEq] at taken
    subst taken
    simp [object?]
  | delete object =>
    cases taken
    simp [object?]
  | setBreakFlag | endReactorEventLoop | closeReactor =>
    cases taken
    simp [object?]
  | wait =>
    simp only [Gateway.perform, Option.ite_none_right_eq_some, Option.some.injEq] at taken
    obtain ⟨exited, rfl⟩ := taken
    simp [object?, exited]

theorem step_cases {gateway next : Gateway} {move : Move} (ordered : Ordered gateway)
    (taken : gateway.step move = some next) :
    (∃ action, move = .main ∧ gateway.todo = action :: next.todo ∧ next.thread = gateway.thread ∧
      next.coapWrapper = gateway.coapWrapper ∧ next.deleted = (object? action).toList ++ gateway.deleted ∧
      (action = .wait → gateway.thread = .exited)) ∨
    (∃ service callback, move = .deliver service callback ∧ gateway.thread = .handleEvents ∧
      next = { gateway with thread := .called service callback }) ∨
    (move = .net ∧ ∃ thread, Goes gateway.thread thread ∧ next = { gateway with thread := thread }) := by
  cases move with
  | main =>
    rw [Gateway.step] at taken
    cases todo : gateway.todo with
    | nil => simp [todo] at taken
    | cons action rest =>
      simp only [todo, Option.map_eq_some_iff] at taken
      obtain ⟨acted, performed, rfl⟩ := taken
      obtain ⟨thread, pointer, deleted, waits⟩ := perform_some ordered performed
      exact .inl ⟨action, rfl, rfl, thread, pointer, deleted, waits⟩
  | deliver service callback =>
    simp only [Gateway.step, Option.ite_none_right_eq_some, Option.some.injEq] at taken
    obtain ⟨idle, rfl⟩ := taken
    exact .inr (.inl ⟨service, callback, rfl, idle, rfl⟩)
  | net => exact .inr (.inr ⟨rfl, proceed_goes ordered taken⟩)

private theorem deletes_early {action : Action} {rest : List Action} (left : action :: rest <:+ gatewayStop) :
    ∀ object, object? action = some object → object ∈ rdObjects ∨ .wait ∉ rest := by
  have all : ∀ left ∈ gatewayStop.tails, ∀ action ∈ left.head?, ∀ object ∈ object? action,
      object ∈ rdObjects ∨ .wait ∉ left.tail := by decide
  intro object deletes
  exact all _ ((List.mem_tails _ _).mpr left) action rfl object deletes

private theorem deletes_wrapper {action : Action} (inStop : action ∈ gatewayStop)
    (deletes : object? action = some (.coapWrapper .rd)) : action = .deleteWrapper .rd := by
  have all : ∀ action ∈ gatewayStop, object? action = some (.coapWrapper .rd) → action = .deleteWrapper .rd := by
    decide
  exact all action inStop deletes

theorem running_ordered : Ordered Gateway.running where
  rest := List.suffix_rfl
  pointer _ := rfl
  waited := by decide
  early := by simp [Gateway.running]
  entered := by simp [Gateway.running]

theorem step_ordered : Keeps Gateway.step Ordered := by
  intro gateway move next ordered taken
  rcases step_cases ordered taken with ⟨action, -, todo, thread, pointer, deleted, waits⟩ |
    ⟨service, callback, -, idle, rfl⟩ | ⟨-, thread, goes, rfl⟩
  · have rest := ordered.rest
    rw [todo] at rest
    refine ⟨(List.suffix_cons action next.todo).trans rest, ?_, ?_, ?_, ?_⟩
    · intro service
      rw [pointer]
      exact ordered.pointer service
    · intro waited
      rw [thread]
      by_cases waiting : action = .wait
      · exact waits waiting
      · apply ordered.waited
        simp [todo, Ne.symm waiting, waited]
    · intro object member
      rw [deleted, List.mem_append, Option.mem_toList] at member
      rcases member with now | before
      · exact deletes_early rest object now
      · rcases ordered.early object before with early | waited
        · exact .inl early
        · exact .inr fun later => waited (by simp [todo, later])
    · rw [thread]
      exact ordered.entered
  · have waiting : Action.wait ∈ gateway.todo := by
      by_contra waited
      simp [ordered.waited waited] at idle
    exact ⟨ordered.rest, ordered.pointer, fun waited => absurd waiting waited, ordered.early, by simp⟩
  · have waiting : Action.wait ∈ gateway.todo := by
      by_contra waited
      rw [ordered.waited waited] at goes
      cases goes
    refine ⟨ordered.rest, ordered.pointer, fun waited => absurd waiting waited, ordered.early, ?_⟩
    intro service callback wrapper inside
    subst inside
    exact (goes_inWrapper goes).2

theorem reachable_ordered {labels state} (path : Path Gateway.step Gateway.running labels state) : Ordered state :=
  path.invariant step_ordered running_ordered

theorem deleted_early {gateway : Gateway} (ordered : Ordered gateway) (runs : gateway.thread ≠ .exited) :
    ∀ object ∈ gateway.deleted, object ∈ rdObjects := by
  intro object member
  rcases ordered.early object member with early | waited
  · exact early
  · exact absurd (ordered.waited waited) runs

structure Apart (gateway : Gateway) : Prop where
  ordered : Ordered gateway
  untouched : wrapperUser gateway.thread = some .rd → .coapWrapper .rd ∉ gateway.deleted

theorem Apart.safe {gateway : Gateway} (apart : Apart gateway) : Safe gateway where
  wrapper := by
    intro service callback wrapper inside
    obtain rfl := apart.ordered.entered service callback wrapper inside
    cases service with
    | rd => exact apart.untouched (by rw [inside]; rfl)
    | proxy =>
      intro member
      have early := deleted_early apart.ordered (by simp [inside]) _ member
      simp [rdObjects] at early
  service := by
    intro service called member
    have runs : gateway.thread ≠ .exited := by
      intro exited
      simp [exited, callee] at called
    have early := deleted_early apart.ordered runs _ member
    simp [rdObjects] at early

private theorem restricted_apart : Keeps (restrict leavesRdAlone Gateway.step) Apart := by
  intro gateway move next apart restricted
  obtain ⟨alone, taken⟩ := restrict_some.mp restricted
  refine ⟨step_ordered gateway move next apart.ordered taken, ?_⟩
  rcases step_cases apart.ordered taken with ⟨action, rfl, todo, thread, -, deleted, -⟩ |
    ⟨service, callback, rfl, -, rfl⟩ | ⟨-, thread, goes, rfl⟩
  · intro user member
    rw [thread] at user
    rw [deleted, List.mem_append, Option.mem_toList] at member
    rcases member with now | before
    · have inStop : action ∈ gatewayStop := apart.ordered.rest.subset (by simp [todo])
      obtain rfl := deletes_wrapper inStop now
      simp [leavesRdAlone, todo, user] at alone
    · exact apart.untouched user before
  · intro user
    obtain rfl : service = .rd := by simpa [wrapperUser] using user
    simpa [leavesRdAlone] using alone
  · intro user
    exact apart.untouched (goes_wrapperUser goes user)

def Doomed (gateway : Gateway) : Prop :=
  .coapWrapper .rd ∈ gateway.deleted ∧ ∃ callback, gateway.thread = .called .rd callback

theorem step_doomed {gateway next : Gateway} {move : Move} (ordered : Ordered gateway)
    (taken : gateway.step move = some next) (safe : Safe next) (against : leavesRdAlone gateway move = false) :
    Doomed next := by
  have kept := step_ordered gateway move next ordered taken
  rcases step_cases ordered taken with ⟨action, rfl, todo, thread, -, deleted, -⟩ |
    ⟨service, callback, rfl, -, rfl⟩ | ⟨rfl, -⟩
  · simp only [leavesRdAlone, todo, List.head?_cons, ne_eq, Option.some.injEq, decide_not, Bool.or_eq_false_iff,
      Bool.not_eq_false', decide_eq_true_eq] at against
    obtain ⟨rfl, user⟩ := against
    have gone : .coapWrapper .rd ∈ next.deleted := by simp [deleted, object?]
    rw [← thread] at user
    cases running : next.thread with
    | called service callback =>
      obtain rfl : service = .rd := by simpa [running, wrapperUser] using user
      exact ⟨gone, callback, running⟩
    | inWrapper service callback wrapper =>
      obtain rfl : service = .rd := by simpa [running, wrapperUser] using user
      obtain rfl := kept.entered _ callback wrapper running
      exact absurd gone (safe.wrapper _ callback _ running)
    | _ => simp [running, wrapperUser] at user
  · simp only [leavesRdAlone, ne_eq, decide_not, Bool.or_eq_false_iff, Bool.not_eq_false', decide_eq_true_eq] at against
    obtain ⟨rfl, gone⟩ := against
    exact ⟨gone, callback, rfl⟩
  · cases against

theorem doomed_step {gateway next : Gateway} {move : Move} (ordered : Ordered gateway)
    (taken : gateway.step move = some next) (safe : Safe next) (doomed : Doomed gateway) : Doomed next := by
  obtain ⟨gone, callback, called⟩ := doomed
  rcases step_cases ordered taken with ⟨action, -, -, thread, -, deleted, -⟩ |
    ⟨service, other, -, idle, -⟩ | ⟨-, thread, goes, rfl⟩
  · refine ⟨?_, callback, thread.trans called⟩
    rw [deleted]
    exact List.mem_append_right _ gone
  · simp [called] at idle
  · rw [called] at goes
    cases goes
    exact absurd gone (safe.wrapper .rd callback _ rfl)

/-- A run that leaves `RDService` alone is safe in all its states, and a safe run
in which the net thread has come to its end leaves `RDService` alone. -/
theorem stop_safe_iff (moves : List Move) (state : Gateway) :
    (Path (restrict leavesRdAlone Gateway.step) Gateway.running moves state →
      Throughout Safe Gateway.step Gateway.running moves state) ∧
    (state.thread = .exited → Throughout Safe Gateway.step Gateway.running moves state →
      Path (restrict leavesRdAlone Gateway.step) Gateway.running moves state) := by
  constructor
  · intro restricted
    apply restricted.throughout
    intro moves state path
    have initial : Apart Gateway.running := ⟨running_ordered, by simp [Gateway.running, wrapperUser]⟩
    exact (path.invariant restricted_apart initial).safe
  · intro exited throughout
    have alone : Path (restrict leavesRdAlone Gateway.step) Gateway.running moves state ∨ Doomed state :=
      throughout.restrict
        (fun _ _ _ _ path taken safe against => step_doomed (reachable_ordered path) taken safe against)
        (fun _ _ _ _ path taken safe doomed => doomed_step (reachable_ordered path) taken safe doomed)
    rcases alone with restricted | ⟨-, callback, called⟩
    · exact restricted
    · rw [called] at exited
      cases exited

/-- `Stop` runs while a timer of the proxy fires, and comes to its end. -/
theorem stop_during_proxy : Throughout Safe Gateway.step Gateway.running
    [.deliver .rd .handleInput, .net, .net, .deliver .proxy .handleTimeout, .main, .net, .main, .main, .main, .net,
      .main, .net, .main, .net, .net, .main, .main, .main, .main, .main, .main, .main]
    { todo := [], thread := .exited, breakNetsvcThreadFlag := true,
      coapWrapper := fun service => some (.coapWrapper service),
      deleted := [.svcConf, .svcNet, .service .rd, .service .proxy, .coapWrapper .proxy, .conf, .lookupResource,
        .rdResource, .coapWrapper .rd] } :=
  (stop_safe_iff _ _).1 (path_of_run rfl)

/-- A datagram after `svc_rd_->Close()` is handled in the deleted wrapper. -/
theorem closed_wrapper_used : ¬ ∀ moves state, Path Gateway.step Gateway.running moves state → Safe state := by
  intro safe
  have reached : Path Gateway.step Gateway.running [.main, .deliver .rd .handleInput, .net]
      { Gateway.running with
        todo := gatewayStop.tail
        thread := .inWrapper .rd .handleInput (.coapWrapper .rd)
        deleted := [.coapWrapper .rd] } := path_of_run rfl
  exact (safe _ _ reached).wrapper .rd .handleInput (.coapWrapper .rd) rfl (List.mem_singleton.mpr rfl)

end IoTGateway.Proofs.Shutdown
