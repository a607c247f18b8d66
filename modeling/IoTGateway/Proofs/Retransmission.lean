import IoTGateway.Lib.DeltaQueue
import IoTGateway.Proofs.RetransmissionLoop

/-! Which PDUs the loop of `time_out` retransmits. The times of the queue count
from the base, the loop compares them with the clock itself; both agree for a
PDU as long as the base does not matter to it. -/

namespace IoTGateway.Proofs.Retransmission

def entry (node : CoapQueueT) : Nat × Transaction := (node.t.toNat, node.toTransaction)

def entries (queue : List CoapQueueT) : List (Nat × Transaction) := queue.map entry

def schedule (queue : List CoapQueueT) : List (Nat × Transaction) := DeltaQueues.due 0 (entries queue)

/-- A queue as `net.h` describes it: every due time, counted from the base, is a
tick count, and no PDU is queued twice. -/
structure Encodes (queue : List CoapQueueT) : Prop where
  fits : DeltaQueues.span (entries queue) < 2 ^ 32
  unique : (queue.map fun node => node.pdu).Nodup

private theorem schedule_pdus (queue : List CoapQueueT) :
    (schedule queue).map (fun item => item.2.pdu) = queue.map fun node => node.pdu := by
  have items := congrArg (List.map Transaction.pdu) (DeltaQueues.due_items 0 (entries queue))
  rw [entries, List.map_map, List.map_map, List.map_map] at items
  exact items

private theorem entries_insert (queue : List CoapQueueT) (node : CoapQueueT) :
    entries (coapInsertNode queue node) = DeltaQueues.insert (entry node) (entries queue) := by
  induction queue generalizing node with
  | nil => rfl
  | cons q rest ih =>
    unfold coapInsertNode
    by_cases earlier : node.t < q.t
    · have smaller := UInt32.lt_iff_toNat_lt.mp earlier
      simp only [entries, List.map_cons, DeltaQueues.insert, entry, earlier, smaller, ite_true,
        UInt32.toNat_sub_of_le _ _ (UInt32.le_of_lt earlier)]
    · have later : q.t ≤ node.t := UInt32.not_lt.mp earlier
      have larger : ¬ node.t.toNat < q.t.toNat := fun less => earlier (UInt32.lt_iff_toNat_lt.mpr less)
      simp only [entries, List.map_cons, DeltaQueues.insert, entry, earlier, larger, ite_false] at ih ⊢
      rw [ih]
      simp only [UInt32.toNat_sub_of_le _ _ later]

private theorem popNext_entries {ctx next : CoapContextT} {node : CoapQueueT}
    (fits : DeltaQueues.span (entries ctx.sendqueue) < 2 ^ 32)
    (popped : coapPopNext ctx = some (node, next)) : ∃ rest, entries ctx.sendqueue = entry node :: rest ∧
      entries next.sendqueue = DeltaQueues.raise node.t.toNat rest := by
  unfold coapPopNext at popped
  split at popped
  · cases popped
  next single =>
    cases popped
    exact ⟨[], by simp [single, entries], rfl⟩
  next first head rest queue =>
    cases popped
    rw [queue] at fits ⊢
    refine ⟨entries (head :: rest), rfl, ?_⟩
    have bound : head.t.toNat + node.t.toNat < 2 ^ 32 := by
      simp only [entries, DeltaQueues.span, List.map_cons, entry, List.sum_cons] at fits
      omega
    simp only [entries, List.map_cons, DeltaQueues.raise, entry, UInt32.toNat_add, Nat.mod_eq_of_lt bound]

private theorem fits_insert {queue : List CoapQueueT} (fits : DeltaQueues.span (entries queue) < 2 ^ 32)
    (node : CoapQueueT) :
    DeltaQueues.span (entries (coapInsertNode queue node)) < 2 ^ 32 := by
  rw [entries_insert, DeltaQueues.span_insert]
  exact Nat.max_lt.mpr ⟨UInt32.toNat_lt _, fits⟩

theorem fits_pop {ctx next : CoapContextT} {node : CoapQueueT}
    (fits : DeltaQueues.span (entries ctx.sendqueue) < 2 ^ 32)
    (popped : coapPopNext ctx = some (node, next)) : DeltaQueues.span (entries next.sendqueue) < 2 ^ 32 := by
  obtain ⟨rest, whole, left⟩ := popNext_entries fits popped
  rw [left]
  rw [whole] at fits
  cases rest with
  | nil => simp [DeltaQueues.raise, DeltaQueues.span]
  | cons head rest =>
    rw [DeltaQueues.span_raise _ (by simp)]
    simpa [DeltaQueues.span, entry] using fits

/-- A send queue in the hands of libcoap: nodes are put in and taken out. -/
inductive Built : CoapContextT → Prop where
  | empty (base : UInt32) : Built { sendqueueBasetime := base, sendqueue := [] }
  | insert {ctx} (built : Built ctx) (node : CoapQueueT) :
      Built { ctx with sendqueue := coapInsertNode ctx.sendqueue node }
  | pop {ctx next node} (built : Built ctx) (popped : coapPopNext ctx = some (node, next)) : Built next

theorem Built.fits {ctx : CoapContextT} (built : Built ctx) : DeltaQueues.span (entries ctx.sendqueue) < 2 ^ 32 := by
  induction built with
  | empty base => simp [entries, DeltaQueues.span]
  | insert built node ih => exact fits_insert ih node
  | pop built popped ih => exact fits_pop ih popped

/-- A PDU is taken off while its time does not exceed the clock reading, and
comes back as often as it has retransmissions left. -/
def retransmission (due : Transaction → UInt32) (now : UInt32) : Retries.Policy (Nat × Transaction) where
  ready item := item.1 ≤ now.toNat
  again item :=
    if item.2.retransmitCnt < coapDefaultMaxRetransmit then
      some ((due item.2).toNat, { item.2 with retransmitCnt := item.2.retransmitCnt + 1 })
    else none
  budget item := coapDefaultMaxRetransmit.toNat - item.2.retransmitCnt.toNat
  spends := by
    intro item next back
    split at back
    next left =>
      obtain rfl := Option.some.inj back
      exact RetransmissionLoop.retrying.spends (if_pos left)
    next => cases back

section
variable (due : Transaction → UInt32) (coapSendImpl : Transaction → Int) (now : UInt32)

private theorem schedule_round {ctx next : CoapContextT} {node : CoapQueueT}
    (fits : DeltaQueues.span (entries ctx.sendqueue) < 2 ^ 32) (popped : coapPopNext ctx = some (node, next)) :
    ∃ rest, schedule ctx.sendqueue = entry node :: rest ∧
      (schedule (coapRetransmit due coapSendImpl next node).sendqueue).Perm
        (((retransmission due now).again (entry node)).toList ++ rest) ∧
      DeltaQueues.span (entries (coapRetransmit due coapSendImpl next node).sendqueue) < 2 ^ 32 := by
  obtain ⟨rest, whole, left⟩ := popNext_entries fits popped
  have behind : schedule next.sendqueue = DeltaQueues.due node.t.toNat rest := by
    rw [schedule, left, DeltaQueues.due_raise, Nat.zero_add]
  refine ⟨DeltaQueues.due node.t.toNat rest, ?_, ?_, ?_⟩
  · rw [schedule, whole, DeltaQueues.due, Nat.zero_add]
    rfl
  · rw [← behind]
    simp only [coapRetransmit, retransmission, entry]
    split
    next =>
      have placed := DeltaQueues.due_insert 0
        ((due node.toTransaction).toNat, { node.toTransaction with retransmitCnt := node.retransmitCnt + 1 })
        (entries next.sendqueue)
      rw [Nat.zero_add] at placed
      rw [schedule, entries_insert]
      exact placed
    next => exact List.Perm.refl _
  · simp only [coapRetransmit]
    split
    next => exact fits_insert (fits_pop fits popped) _
    next => exact fits_pop fits popped

structure Serving (due : Transaction → UInt32) (now : UInt32) (start : List (Nat × Transaction))
    (state : Retransmitting) : Prop where
  fits : DeltaQueues.span (entries state.ctx.sendqueue) < 2 ^ 32
  accounts : (retransmission due now).Accounts start (schedule state.ctx.sendqueue) (state.handed.map entry)

theorem serving_of_serves {before after : CoapContextT} {handed : List CoapQueueT}
    (fits : DeltaQueues.span (entries before.sendqueue) < 2 ^ 32)
    (serves : RetransmissionLoop.Serves (coapRetransmit due coapSendImpl) now before handed after) :
    Serving due now (schedule before.sendqueue) { ctx := after, handed } := by
  induction serves with
  | start => exact ⟨fits, Retries.Policy.Accounts.initial _ _⟩
  | @pop handed ctx node next serves ready popped ih =>
    obtain ⟨rest, whole, put, kept⟩ := schedule_round due coapSendImpl now ih.fits popped
    have accounts := ih.accounts
    rw [whole] at accounts
    have served : (retransmission due now).ready (entry node) = true := by
      simpa [retransmission, entry] using UInt32.le_iff_toNat_le.mp ready
    refine ⟨kept, ?_⟩
    rw [List.map_append]
    exact accounts.serve served put

private theorem all_waiting {ctx : CoapContextT} (waiting : ∀ head, coapPeekNext ctx = some head → now < head.t) :
    ∀ item ∈ schedule ctx.sendqueue, (retransmission due now).ready item = false := by
  rw [coapPeekNext] at waiting
  cases queue : ctx.sendqueue with
  | nil => simp [schedule, entries, DeltaQueues.due]
  | cons first rest =>
    have above : now.toNat < first.t.toNat := UInt32.lt_iff_toNat_lt.mp (waiting first (by simp [queue]))
    intro item member
    have bounds := (DeltaQueues.due_sorted (0 + first.t.toNat) (entries rest)).1
    rcases List.mem_cons.mp member with rfl | behind
    · simpa [retransmission, entry] using above
    · have := bounds item behind
      simp only [retransmission, decide_eq_false_iff_not]
      omega

/-- `time_out` returns; it has handed over, in some order, what each PDU is due
by the clock reading, and left the rest. -/
theorem timeOut_serves (ctx : CoapContextT) (fits : DeltaQueues.span (entries ctx.sendqueue) < 2 ^ 32) :
    ∃ state delay, timeOut due coapSendImpl ctx now = .ok (state, delay) ∧
      (state.handed.map entry).Perm ((schedule ctx.sendqueue).flatMap (retransmission due now).servings) ∧
      (schedule state.ctx.sendqueue).Perm ((schedule ctx.sendqueue).flatMap (retransmission due now).remains) := by
  obtain ⟨state, returned, serving, waiting⟩ :=
    RetransmissionLoop.timeOutWith_returns (RetransmissionLoop.retransmits_coapRetransmit due coapSendImpl) ctx now
  have accounts := (serving_of_serves due coapSendImpl now fits serving.serves).accounts
  obtain ⟨served, kept⟩ := accounts.finish (all_waiting due now waiting)
  exact ⟨state, _, returned, served, kept⟩

end

/-- The clock reading so many ticks after the base; it wraps. -/
def clockReading (ctx : CoapContextT) (elapsed : Nat) : UInt32 := ctx.sendqueueBasetime + UInt32.ofNat elapsed

/-- Just the PDUs that are due were handed over, each once, and none that is due
is left. -/
structure OnTime (elapsed : Nat) (ctx : CoapContextT) (state : Retransmitting) : Prop where
  handed : (state.handed.map fun node => node.pdu).Perm
    (((schedule ctx.sendqueue).filter (·.1 ≤ elapsed)).map fun item => item.2.pdu)
  left : ∀ item ∈ schedule state.ctx.sendqueue, elapsed < item.1

/-- The reading tells the same as the elapsed ticks about a PDU: whether it is
due, and that it is not due again once it was put back. -/
structure ToldRight (due : Transaction → UInt32) (now : UInt32) (elapsed : Nat) (item : Nat × Transaction) : Prop where
  first : item.1 ≤ elapsed ↔ item.1 ≤ now.toNat
  again : item.1 ≤ elapsed → item.2.retransmitCnt < coapDefaultMaxRetransmit →
    elapsed < (due item.2).toNat ∧ now.toNat < (due item.2).toNat

section
variable (due : Transaction → UInt32) (now : UInt32) (elapsed : Nat)

/-- What becomes of one PDU is right: it is served once if it is due and not at
all if it is not, and is left undue. -/
def ServedRight (item : Nat × Transaction) : Prop :=
  ((retransmission due now).servings item).length = (if item.1 ≤ elapsed then 1 else 0) ∧
    ∀ rest ∈ (retransmission due now).remains item, elapsed < rest.1

variable {due now elapsed} {item : Nat × Transaction}

private theorem ready_iff : (retransmission due now).ready item = true ↔ item.1 ≤ now.toNat := by
  simp [retransmission]

theorem servedRight_waiting (waiting : ¬ item.1 ≤ now.toNat) :
    ServedRight due now elapsed item ↔ ToldRight due now elapsed item := by
  have quiet : (retransmission due now).ready item = false := Bool.eq_false_iff.mpr (mt ready_iff.mp waiting)
  rw [ServedRight, Retries.Policy.servings_waiting _ quiet, Retries.Policy.remains_waiting _ quiet]
  constructor
  · intro served
    have later := served.2 item (List.mem_singleton_self _)
    exact ⟨iff_of_false (by omega) waiting, fun overdue => by omega⟩
  · intro told
    have later : ¬ item.1 ≤ elapsed := mt told.first.mp waiting
    exact ⟨by simp [later], by simpa using Nat.lt_of_not_le later⟩

theorem servedRight_dropped (ready : item.1 ≤ now.toNat) (spent : ¬ item.2.retransmitCnt < coapDefaultMaxRetransmit) :
    ServedRight due now elapsed item ↔ ToldRight due now elapsed item := by
  have gone : (retransmission due now).again item = none := by simp [retransmission, spent]
  rw [ServedRight, Retries.Policy.servings_ready _ (ready_iff.mpr ready),
    Retries.Policy.remains_ready _ (ready_iff.mpr ready), gone]
  simp only [Option.toList_none, List.flatMap_nil, List.length_singleton]
  constructor
  · intro served
    have once := served.1
    exact ⟨iff_of_true (by by_contra early; simp [early] at once) ready, fun _ more => absurd more spent⟩
  · intro told
    simp [told.first.mpr ready]

theorem servedRight_again (ready : item.1 ≤ now.toNat) (left : item.2.retransmitCnt < coapDefaultMaxRetransmit) :
    ServedRight due now elapsed item ↔ ToldRight due now elapsed item := by
  have back : (retransmission due now).again item =
      some ((due item.2).toNat, { item.2 with retransmitCnt := item.2.retransmitCnt + 1 }) := by
    simp [retransmission, left]
  rw [ServedRight, Retries.Policy.servings_ready _ (ready_iff.mpr ready),
    Retries.Policy.remains_ready _ (ready_iff.mpr ready), back]
  simp only [Option.toList_some, List.flatMap_singleton, List.length_cons]
  by_cases soon : (due item.2).toNat ≤ now.toNat
  · rw [Retries.Policy.servings_ready _ (ready_iff.mpr soon)]
    refine iff_of_false ?_ ?_
    · intro served
      have once := served.1
      simp only [List.length_cons] at once
      split at once <;> omega
    · intro told
      have := (told.again (told.first.mpr ready) left).2
      omega
  · have waits : (retransmission due now).ready
        ((due item.2).toNat, { item.2 with retransmitCnt := item.2.retransmitCnt + 1 }) = false :=
      Bool.eq_false_iff.mpr (mt ready_iff.mp soon)
    rw [Retries.Policy.servings_waiting _ waits, Retries.Policy.remains_waiting _ waits]
    constructor
    · intro served
      obtain ⟨once, undue⟩ := served
      have later := undue _ (List.mem_singleton_self _)
      exact ⟨iff_of_true (by by_contra early; simp [early] at once) ready, fun _ _ => ⟨later, by omega⟩⟩
    · intro told
      have overdue := told.first.mpr ready
      simpa [overdue] using (told.again overdue left).1

theorem servedRight_iff : ServedRight due now elapsed item ↔ ToldRight due now elapsed item := by
  by_cases ready : item.1 ≤ now.toNat
  · by_cases left : item.2.retransmitCnt < coapDefaultMaxRetransmit
    · exact servedRight_again ready left
    · exact servedRight_dropped ready left
  · exact servedRight_waiting ready

end

theorem again_pdu (due : Transaction → UInt32) (now : UInt32) {item next : Nat × Transaction}
    (back : (retransmission due now).again item = some next) : next.2.pdu = item.2.pdu := by
  simp only [retransmission] at back
  split at back
  · rw [← Option.some.inj back]
  · cases back

section
variable {due : Transaction → UInt32} {now : UInt32} (elapsed : Nat) {queue handed left : List CoapQueueT}

theorem handed_iff (unique : (queue.map fun node => node.pdu).Nodup)
    (served : (handed.map entry).Perm ((schedule queue).flatMap (retransmission due now).servings)) :
    (handed.map fun node => node.pdu).Perm (((schedule queue).filter (·.1 ≤ elapsed)).map fun item => item.2.pdu) ↔
      ∀ item ∈ schedule queue,
        ((retransmission due now).servings item).length = if item.1 ≤ elapsed then 1 else 0 := by
  let pdu := fun item : Nat × Transaction => item.2.pdu
  have counted : (handed.map fun node => node.pdu).Perm
      (Retries.copies pdu (fun item => ((retransmission due now).servings item).length) (schedule queue)) := by
    have named := served.map pdu
    rw [List.map_map, List.map_flatMap] at named
    refine named.trans (List.Perm.of_eq (List.flatMap_congr ?_))
    intro item _
    exact Retries.map_servings pdu (again_pdu due now) item
  have wanted := Retries.copies_filter pdu (fun item : Nat × Transaction => decide (item.1 ≤ elapsed)) (schedule queue)
  simp only [decide_eq_true_eq] at wanted
  rw [← Retries.copies_perm pdu ((schedule_pdus queue).symm ▸ unique), wanted]
  exact ⟨counted.symm.trans, counted.trans⟩

private theorem left_iff (kept : (schedule left).Perm ((schedule queue).flatMap (retransmission due now).remains)) :
    (∀ item ∈ schedule left, elapsed < item.1) ↔
      ∀ item ∈ schedule queue, ∀ rest ∈ (retransmission due now).remains item, elapsed < rest.1 := by
  simp only [kept.mem_iff, List.mem_flatMap, forall_exists_index, and_imp]
  constructor
  · intro all item member rest inside
    exact all rest item member inside
  · intro all rest item member inside
    exact all item member rest inside

end

/-- The call hands over just what is due, once, exactly when the wrapped clock
reading tells right about every PDU in the queue. -/
theorem timeOut_onTime_iff (due : Transaction → UInt32) (coapSendImpl : Transaction → Int) (ctx : CoapContextT)
    (encodes : Encodes ctx.sendqueue) (elapsed : Nat) : ∃ state delay,
    timeOut due coapSendImpl ctx (clockReading ctx elapsed) = .ok (state, delay) ∧
      (OnTime elapsed ctx state ↔
        ∀ item ∈ schedule ctx.sendqueue, ToldRight due (clockReading ctx elapsed) elapsed item) := by
  obtain ⟨state, delay, returned, served, kept⟩ :=
    timeOut_serves due coapSendImpl (clockReading ctx elapsed) ctx encodes.fits
  refine ⟨state, delay, returned, ?_⟩
  have once := handed_iff elapsed encodes.unique served
  have undue := left_iff elapsed kept
  constructor
  · intro onTime item member
    exact servedRight_iff.mp ⟨once.mp onTime.handed item member, undue.mp onTime.left item member⟩
  · intro told
    refine ⟨once.mpr ?_, undue.mpr ?_⟩ <;> intro item member
    · exact (servedRight_iff.mpr (told item member)).1
    · exact (servedRight_iff.mpr (told item member)).2

def early : CoapContextT where
  sendqueueBasetime := 0
  sendqueue := [{ retransmitCnt := 0, timeout := 2048, pdu := 1, t := 100, id := 24806 },
    { retransmitCnt := 4, timeout := 2048, pdu := 2, t := 50, id := 24806 }]

theorem timeOut_onTime_early : ∃ state delay,
    timeOut (fun item => 120 + item.timeout) (fun _ => 24806) early (clockReading early 120) = .ok (state, delay) ∧
      (OnTime 120 early state ↔ ∀ item ∈ schedule early.sendqueue,
        ToldRight (fun item => 120 + item.timeout) (clockReading early 120) 120 item) :=
  timeOut_onTime_iff (fun item => 120 + item.timeout) (fun _ => 24806) early ⟨by decide, by decide⟩ 120

def later : CoapContextT where
  sendqueueBasetime := 1000
  sendqueue := [{ retransmitCnt := 0, timeout := 2048, pdu := 1, t := 2048, id := 24806 }]

/-- After 1100 ticks the PDU is retransmitted, 948 ticks early, although it goes
back for a full timeout from then. -/
theorem retransmitted_early : Encodes later.sendqueue ∧ schedule later.sendqueue = [(2048, ⟨0, 2048, 1⟩)] ∧
    ∃ state delay, timeOut (fun item => 1100 + item.timeout) (fun _ => 24806) later (clockReading later 1100) = .ok (state, delay) ∧
      state.handed = later.sendqueue ∧ ¬ OnTime 1100 later state := by
  refine ⟨⟨by decide, by decide⟩, by decide,
    { ctx := { later with sendqueue := [{ retransmitCnt := 1, timeout := 2048, pdu := 1, t := 3148, id := 24806 }] },
      handed := later.sendqueue }, { tvSec := 2, tvUsec := 0 }, by decide, rfl, fun onTime => ?_⟩
  have alike := onTime.handed.length_eq
  revert alike
  decide

end IoTGateway.Proofs.Retransmission
