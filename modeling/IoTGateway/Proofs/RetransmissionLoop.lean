import IoTGateway.Lib.Retry
import IoTGateway.SendQueue

/-! The loop of `time_out` over any `coap_retransmit`. A node may go back in
front of all the others and be ready at once, so what falls from round to round
is the number of retransmissions left, not the length of the queue. -/

namespace IoTGateway.Proofs.RetransmissionLoop

theorem retransmitCnt_succ {count : UInt8} (left : count < coapDefaultMaxRetransmit) :
    (count + 1).toNat = count.toNat + 1 := by
  have below := UInt8.lt_iff_toNat_lt.mp left
  rw [UInt8.toNat_add]
  exact Nat.mod_eq_of_lt (Nat.lt_of_le_of_lt below (by decide))

private theorem popNext_of_peekNext {ctx : CoapContextT} {node : CoapQueueT} (peeked : coapPeekNext ctx = some node) :
    (coapPopNext ctx).map Prod.fst = some node := by
  unfold coapPeekNext at peeked
  unfold coapPopNext
  split <;> simp_all

def transactions (queue : List CoapQueueT) : List Transaction := queue.map CoapQueueT.toTransaction

theorem transactions_pop {ctx rest : CoapContextT} {node : CoapQueueT} (popped : coapPopNext ctx = some (node, rest)) :
    transactions ctx.sendqueue = node.toTransaction :: transactions rest.sendqueue := by
  unfold coapPopNext at popped
  split at popped
  · cases popped
  next single =>
    cases popped
    rw [single]
    rfl
  next queue =>
    cases popped
    rw [queue]
    rfl

/-- The times play no part: any node may turn out to be ready. -/
def retrying : Retries.Policy Transaction where
  ready _ := true
  again item :=
    if item.retransmitCnt < coapDefaultMaxRetransmit then some { item with retransmitCnt := item.retransmitCnt + 1 }
    else none
  budget item := coapDefaultMaxRetransmit.toNat - item.retransmitCnt.toNat
  spends := by
    intro item next back
    split at back
    next left =>
      obtain rfl := Option.some.inj back
      have below := UInt8.lt_iff_toNat_lt.mp left
      simp only [retransmitCnt_succ left]
      omega
    next => cases back

theorem again_pdu {item next : Transaction} (back : retrying.again item = some next) : next.pdu = item.pdu := by
  simp only [retrying] at back
  split at back
  · rw [← Option.some.inj back]
  · cases back

theorem weight_transactions (queue : List CoapQueueT) :
    retrying.weight (transactions queue) = retransmissionsLeft queue := by
  simp only [Retries.Policy.weight, transactions, retransmissionsLeft, List.map_map]
  rfl

/-- Each node that was popped went to `coap_retransmit` right then: `handed`
lists them in this order, and `after` is the context they left. -/
inductive Serves (retransmit : CoapContextT → CoapQueueT → CoapContextT) (now : UInt32) (before : CoapContextT) :
    List CoapQueueT → CoapContextT → Prop where
  | start : Serves retransmit now before [] before
  | pop {handed ctx node rest} (serves : Serves retransmit now before handed ctx) (ready : node.t ≤ now)
      (popped : coapPopNext ctx = some (node, rest)) :
      Serves retransmit now before (handed ++ [node]) (retransmit rest node)

section
variable {retransmit : CoapContextT → CoapQueueT → CoapContextT} (law : Retransmits retransmit)

include law in
theorem transactions_retransmit (ctx : CoapContextT) (node : CoapQueueT) :
    (transactions (retransmit ctx node).sendqueue).Perm
      ((retrying.again node.toTransaction).toList ++ transactions ctx.sendqueue) := by
  by_cases left : node.retransmitCnt < coapDefaultMaxRetransmit
  · obtain ⟨front, back, before, after⟩ := law.again ctx node left
    simp only [transactions, before, after, retrying, left, ite_true, Option.toList_some, List.singleton_append]
    exact List.perm_middle
  · simp only [transactions, law.drop ctx node left, retrying, left, ite_false, Option.toList_none, List.nil_append]
    exact List.Perm.refl _

structure Serving (retransmit : CoapContextT → CoapQueueT → CoapContextT) (now : UInt32) (before : CoapContextT)
    (state : Retransmitting) : Prop where
  serves : Serves retransmit now before state.handed state.ctx
  balance : retrying.Balance Transaction.pdu (transactions before.sendqueue) (transactions state.ctx.sendqueue)
    (transactions state.handed)

include law in
private theorem retransmitRoundWith_advances (now : UInt32) (before : CoapContextT) :
    Loops.Advances (retransmitRoundWith retransmit now) (Serving retransmit now before)
      (fun state => Serving retransmit now before state ∧
        ∀ head, coapPeekNext state.ctx = some head → now < head.t)
      fun state => retransmissionsLeft state.ctx.sendqueue := by
  intro state serving
  unfold retransmitRoundWith
  cases peeked : coapPeekNext state.ctx with
  | none => exact Or.inr ⟨state, rfl, serving, by simp [peeked]⟩
  | some nextpdu =>
    by_cases ready : nextpdu.t ≤ now
    · have popped := popNext_of_peekNext peeked
      cases taken : coapPopNext state.ctx with
      | none => simp [taken] at popped
      | some pair =>
        obtain ⟨node, rest⟩ := pair
        obtain rfl : node = nextpdu := by simpa [taken] using popped
        have put := transactions_retransmit law rest node
        have balance := serving.balance
        rw [transactions_pop taken] at balance
        refine Or.inl ⟨{ ctx := retransmit rest node, handed := state.handed ++ [node] }, by simp [ready],
          ⟨serving.serves.pop ready taken, ?_⟩, ?_⟩
        · have kept := balance.serve again_pdu put
          rwa [← show transactions (state.handed ++ [node]) = transactions state.handed ++ [node.toTransaction] from
            List.map_append] at kept
        · have lighter := Retries.Policy.weight_serve put
          rwa [← transactions_pop taken, weight_transactions, weight_transactions] at lighter
    · refine Or.inr ⟨state, by simp [ready], serving, ?_⟩
      intro head same
      obtain rfl : nextpdu = head := Option.some.inj (peeked.symm.trans same)
      exact UInt32.not_le.mp ready

include law in
/-- The call returns; the head it leaves is not due by the reading, and the
delay is computed from that head. -/
theorem timeOutWith_returns (ctx : CoapContextT) (now : UInt32) : ∃ state,
    timeOutWith retransmit ctx now = .ok (state, timerDelay (coapPeekNext state.ctx) now) ∧
      Serving retransmit now ctx state ∧ ∀ head, coapPeekNext state.ctx = some head → now < head.t := by
  obtain ⟨state, returned, serving, waiting⟩ := Loops.iterate_total (retransmitRoundWith_advances law now ctx)
    (retransmissionsLeft ctx.sendqueue + 1) { ctx } ⟨.start, .initial _ _⟩ (Nat.lt_succ_self _)
  exact ⟨state, by simp only [timeOutWith, returned, ok_bind, pure_eq_ok], serving, waiting⟩

end

def dropped (handed : List CoapQueueT) : List CoapQueueT :=
  handed.filter fun node => ¬ node.retransmitCnt < coapDefaultMaxRetransmit

def pdus (queue : List CoapQueueT) : List Nat := queue.map fun node => node.pdu

theorem transactions_pdus (queue : List CoapQueueT) : (transactions queue).map Transaction.pdu = pdus queue := by
  simp only [transactions, pdus, List.map_map, Function.comp_def]

private theorem last_transactions (handed : List CoapQueueT) :
    (retrying.last (transactions handed)).map Transaction.pdu = pdus (dropped handed) := by
  induction handed with
  | nil => rfl
  | cons node handed ih =>
    simp only [transactions, List.map_cons, Retries.Policy.last, List.filter_cons, retrying, dropped, pdus] at ih ⊢
    by_cases left : node.retransmitCnt < coapDefaultMaxRetransmit
    · simpa [left] using ih
    · simpa [left] using ih

/-- The node is still queued and was not dropped, or the other way round, and
either of it just once. -/
def KeptOrDropped (pdu : Nat) (queue handed : List CoapQueueT) : Prop :=
  ((pdus queue).count pdu = 1 ∧ pdu ∉ pdus (dropped handed)) ∨ (pdu ∉ pdus queue ∧ (pdus (dropped handed)).count pdu = 1)

private theorem keptOrDropped {start queue handed : List CoapQueueT} (unique : (pdus start).Nodup)
    (balance : retrying.Balance Transaction.pdu (transactions start) (transactions queue) (transactions handed))
    {node : CoapQueueT} (member : node ∈ start) : KeptOrDropped node.pdu queue handed := by
  have counted := balance.names.count_eq node.pdu
  have once : (pdus start).count node.pdu = 1 :=
    List.count_eq_one_of_mem unique (List.mem_map.mpr ⟨node, member, rfl⟩)
  rw [last_transactions, List.count_append, transactions_pdus, transactions_pdus, once] at counted
  rcases Nat.eq_zero_or_pos ((pdus queue).count node.pdu) with gone | still
  · exact Or.inr ⟨List.count_eq_zero.mp gone, by omega⟩
  · exact Or.inl ⟨by omega, List.count_eq_zero.mp (by omega)⟩

section
variable {retransmit : CoapContextT → CoapQueueT → CoapContextT} (law : Retransmits retransmit)

include law in
private theorem counts_bounded {now : UInt32} {before after : CoapContextT} {handed : List CoapQueueT}
    (serves : Serves retransmit now before handed after)
    (counts : ∀ item ∈ transactions before.sendqueue, item.retransmitCnt ≤ coapDefaultMaxRetransmit) :
    (∀ item ∈ transactions after.sendqueue, item.retransmitCnt ≤ coapDefaultMaxRetransmit) ∧
      ∀ node ∈ handed, node.retransmitCnt ≤ coapDefaultMaxRetransmit := by
  induction serves with
  | start => exact ⟨counts, fun node member => absurd member List.not_mem_nil⟩
  | @pop handed ctx node rest serves ready popped ih =>
    obtain ⟨queued, served⟩ := ih
    rw [transactions_pop popped] at queued
    have bounded : node.retransmitCnt ≤ coapDefaultMaxRetransmit := queued _ List.mem_cons_self
    constructor
    · intro item member
      rcases List.mem_append.mp ((transactions_retransmit law rest node).subset member) with back | waiting
      · simp only [retrying, Option.mem_toList, Option.ite_none_right_eq_some] at back
        obtain ⟨left, same⟩ := back
        obtain rfl := Option.some.inj same
        have below := UInt8.lt_iff_toNat_lt.mp left
        rw [UInt8.le_iff_toNat_le, retransmitCnt_succ left]
        exact below
      · exact queued item (List.mem_cons_of_mem _ waiting)
    · intro other member
      rcases List.mem_append.mp member with earlier | last
      · exact served other earlier
      · rw [List.mem_singleton.mp last]
        exact bounded

/-- The number of rounds a queue is good for when no count exceeds the limit. -/
def retransmissionBudget (queue : List CoapQueueT) : Nat :=
  (queue.map fun node => coapDefaultMaxRetransmit.toNat + 1 - node.retransmitCnt.toNat).sum

private theorem retransmissionsLeft_bounded {queue : List CoapQueueT}
    (counts : ∀ node ∈ queue, node.retransmitCnt ≤ coapDefaultMaxRetransmit) :
    retransmissionsLeft queue = retransmissionBudget queue := by
  unfold retransmissionsLeft retransmissionBudget
  congr 1
  apply List.map_congr_left
  intro node member
  have := UInt8.le_iff_toNat_le.mp (counts node member)
  omega

/-- The call lost nothing: every node it found is still queued or was dropped,
and what was dropped had no retransmissions left. -/
structure LosesNothing (before : List CoapQueueT) (state : Retransmitting) : Prop where
  accounted : (pdus state.ctx.sendqueue ++ pdus (dropped state.handed)).Perm (pdus before)
  once : (pdus before).Nodup → ∀ node ∈ before, KeptOrDropped node.pdu state.ctx.sendqueue state.handed
  spent : ∀ node ∈ dropped state.handed, node.retransmitCnt = coapDefaultMaxRetransmit

/-- The loop ends within the budget of the queue and loses nothing, wherever and
for whatever time the nodes go back. -/
theorem timeOut_loses_nothing (retransmit : CoapContextT → CoapQueueT → CoapContextT) (law : Retransmits retransmit)
    (ctx : CoapContextT) (counts : ∀ node ∈ ctx.sendqueue, node.retransmitCnt ≤ coapDefaultMaxRetransmit)
    (now : UInt32) : ∃ state delay, timeOutWith retransmit ctx now = .ok (state, delay) ∧
      Serves retransmit now ctx state.handed state.ctx ∧
      state.handed.length ≤ retransmissionBudget ctx.sendqueue ∧ LosesNothing ctx.sendqueue state := by
  obtain ⟨state, returned, serving, _⟩ := timeOutWith_returns law ctx now
  refine ⟨state, _, returned, serving.serves, ?_, ?_, ?_, ?_⟩
  · have rounds := serving.balance.rounds
    rw [weight_transactions, weight_transactions, retransmissionsLeft_bounded counts, transactions, List.length_map]
      at rounds
    omega
  · have names := serving.balance.names
    rwa [last_transactions, transactions_pdus, transactions_pdus] at names
  · intro unique node member
    exact keptOrDropped unique serving.balance member
  · intro node member
    obtain ⟨served, spent⟩ := List.mem_filter.mp member
    have queued : ∀ item ∈ transactions ctx.sendqueue, item.retransmitCnt ≤ coapDefaultMaxRetransmit := by
      intro item inside
      obtain ⟨origin, among, rfl⟩ := List.mem_map.mp inside
      exact counts origin among
    have bounded := (counts_bounded law serving.serves queued).2 node served
    exact UInt8.le_antisymm bounded (UInt8.not_lt.mp (by simpa using spent))

end

private theorem transactions_insert (queue : List CoapQueueT) (node : CoapQueueT) : ∃ front back,
    transactions queue = front ++ back ∧
      transactions (coapInsertNode queue node) = front ++ node.toTransaction :: back := by
  induction queue generalizing node with
  | nil => exact ⟨[], [], rfl, rfl⟩
  | cons q rest ih =>
    unfold coapInsertNode
    split
    · exact ⟨[], transactions (q :: rest), rfl, rfl⟩
    · obtain ⟨front, back, before, after⟩ := ih { node with t := node.t - q.t }
      simp only [transactions] at before after
      exact ⟨q.toTransaction :: front, back, by simp [transactions, before], by simp [transactions, after]⟩

theorem retransmits_coapRetransmit (due : Transaction → UInt32) (coapSendImpl : Transaction → Int) :
    Retransmits (coapRetransmit due coapSendImpl) := by
  constructor
  · intro ctx node left
    simp only [coapRetransmit, left, ite_true]
    exact transactions_insert ctx.sendqueue _
  · intro ctx node spent
    simp only [coapRetransmit, spent, ite_false]

def eager : CoapContextT where
  sendqueueBasetime := 0
  sendqueue := [{ retransmitCnt := 1, timeout := 2048, pdu := 1, t := 10, id := 24806 },
    { retransmitCnt := 4, timeout := 2048, pdu := 2, t := 20, id := 23975 }]

theorem timeOut_loses_nothing_eager : ∃ state delay,
    timeOutWith (coapRetransmit (fun _ => 0) fun _ => -1) eager 100 = .ok (state, delay) ∧
      Serves (coapRetransmit (fun _ => 0) fun _ => -1) 100 eager state.handed state.ctx ∧
      state.handed.length ≤ retransmissionBudget eager.sendqueue ∧ LosesNothing eager.sendqueue state :=
  timeOut_loses_nothing (coapRetransmit (fun _ => 0) fun _ => -1) (retransmits_coapRetransmit _ _) eager (by decide) 100

end IoTGateway.Proofs.RetransmissionLoop
