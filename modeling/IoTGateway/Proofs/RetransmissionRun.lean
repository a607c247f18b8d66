import IoTGateway.Lib.Ledger
import IoTGateway.Proofs.Timers

/-! The PDUs of one service over a whole run of the reactor: libcoap sends new
ones and takes acknowledged ones off the queue at any time, and `time_out` is
called again and again. -/

namespace IoTGateway.Proofs.RetransmissionRun
open RetransmissionLoop Timers TimerDelay

/-- What one service has sent with confirmation, what of it was acknowledged, and
what `time_out` handed to `coap_retransmit`, in order. -/
structure Book where
  sent : List Transaction
  acknowledged : List Transaction := []
  handed : List Transaction := []

def contextOf (services : Services) (service : Service) : Option CoapContextT :=
  (services.wrapper service).bind CoAPWrapper.coapCtx

/-- What `coap_read` and `coap_dispatch` do to the send queue, wherever in it:
acknowledged PDUs are removed and new ones inserted. -/
structure Dispatched (before after : CoapContextT) (sent acknowledged : List Transaction) : Prop where
  moved : (transactions after.sendqueue ++ acknowledged).Perm (transactions before.sendqueue ++ sent)
  unsent : ∀ item ∈ sent, item.retransmitCnt = 0

def callee (services : Services) : ReactorEvent → Option Service
  | .input service _ => some service
  | .expire index _ _ => (services.net.timers[index]?).map Prod.fst

/-- The book of a service in the course of a run of the reactor. -/
inductive Kept (service : Service) (start : Services) : Services → Book → Prop where
  | start {ctx} (opened : contextOf start service = some ctx) :
      Kept service start start { sent := transactions ctx.sendqueue }
  | elsewhere {services book event armed next} (kept : Kept service start services book)
      (other : callee services event ≠ some service) (answered : reactorStep services event = .ok (armed, next)) :
      Kept service start next book
  | dispatched {services book before after sent acknowledged} (kept : Kept service start services book)
      (opened : contextOf services service = some before) (dispatched : Dispatched before after sent acknowledged) :
      Kept service start (services.handleInput service after)
        { book with sent := book.sent ++ sent, acknowledged := book.acknowledged ++ acknowledged }
  | timedOut {services book ctx index now libcoap state delay armed next} (kept : Kept service start services book)
      (opened : contextOf services service = some ctx) (fires : callee services (.expire index now libcoap) = some service)
      (returned : timeOutWith libcoap.retransmit ctx now = .ok (state, delay))
      (answered : reactorStep services (.expire index now libcoap) = .ok (armed, next)) :
      Kept service start next { book with handed := book.handed ++ transactions state.handed }

def advanced (item : Transaction) (n : Nat) : Transaction :=
  { item with retransmitCnt := item.retransmitCnt + UInt8.ofNat n }

private theorem advanced_zero (item : Transaction) : advanced item 0 = item := by
  simp [advanced]

private theorem advanced_succ (item : Transaction) (n : Nat) :
    advanced (advanced item 1) n = advanced item (n + 1) := by
  simp [advanced, UInt8.add_assoc, UInt8.ofNat_add, UInt8.add_comm]

private theorem forms_advanced {item : Transaction} (bounded : item.retransmitCnt ≤ coapDefaultMaxRetransmit) :
    retrying.forms item =
      (List.range (coapDefaultMaxRetransmit.toNat + 1 - item.retransmitCnt.toNat)).map (advanced item) := by
  rw [retrying.forms_eq]
  have limit := UInt8.le_iff_toNat_le.mp bounded
  by_cases left : item.retransmitCnt < coapDefaultMaxRetransmit
  · have back : retrying.again item = some (advanced item 1) := by
      simp only [retrying, left, ite_true]
      rfl
    have below := UInt8.lt_iff_toNat_lt.mp left
    have more : (advanced item 1).retransmitCnt.toNat = item.retransmitCnt.toNat + 1 := retransmitCnt_succ left
    have later : (advanced item 1).retransmitCnt ≤ coapDefaultMaxRetransmit := by
      rw [UInt8.le_iff_toNat_le, more]
      exact below
    rw [back, Option.toList_some, List.flatMap_singleton, forms_advanced later, more,
      show coapDefaultMaxRetransmit.toNat + 1 - item.retransmitCnt.toNat =
        coapDefaultMaxRetransmit.toNat + 1 - (item.retransmitCnt.toNat + 1) + 1 by omega,
      List.range_succ_eq_map, List.map_cons, List.map_map, advanced_zero]
    congr 2
    funext n
    exact advanced_succ item n
  · have full : item.retransmitCnt = coapDefaultMaxRetransmit := UInt8.le_antisymm bounded (UInt8.not_lt.mp left)
    have none : retrying.again item = none := by simp only [retrying, left, ite_false]
    rw [none, full, show coapDefaultMaxRetransmit.toNat + 1 - coapDefaultMaxRetransmit.toNat = 1 by decide]
    simp [advanced_zero]
termination_by coapDefaultMaxRetransmit.toNat - item.retransmitCnt.toNat
decreasing_by omega

def Balanced (book : Book) (ctx : CoapContextT) : Prop :=
  Retries.Ledger retrying Transaction.pdu book.sent (transactions ctx.sendqueue ++ book.acknowledged) book.handed

theorem balanced_serves {libcoap : Libcoap} {now : UInt32} {before after : CoapContextT} {served : List CoapQueueT}
    (serves : Serves libcoap.retransmit now before served after) {book : Book} (balanced : Balanced book before)
    (distinct : (book.sent.map Transaction.pdu).Nodup) :
    Balanced { book with handed := book.handed ++ transactions served } after := by
  induction serves with
  | start => simpa [Balanced, transactions] using balanced
  | @pop handed ctx node rest serves ready popped ih =>
    have ledger : Retries.Ledger retrying Transaction.pdu book.sent
        (node.toTransaction :: (transactions rest.sendqueue ++ book.acknowledged))
        (book.handed ++ transactions handed) := by
      have held := ih
      rwa [Balanced, transactions_pop popped] at held
    have put := transactions_retransmit libcoap.law rest node
    have served := (ledger.serve distinct again_pdu).perm ((List.append_assoc ..) ▸ put.symm.append_right book.acknowledged)
    rw [Balanced, show transactions (handed ++ [node]) = transactions handed ++ [node.toTransaction] from List.map_append,
      ← List.append_assoc]
    exact served

theorem contextOf_setWrapper (services : Services) (service other : Service) (wrapper : CoAPWrapper) :
    contextOf (services.setWrapper other wrapper) service =
      if service = other then wrapper.coapCtx else contextOf services service := by
  rw [contextOf, setWrapper_wrapper]
  split <;> rfl

private theorem handleTimeout_called {services next : Services} {service : Service} {libcoap : Libcoap} {now : UInt32}
    {delay : Timeval} (called : services.handleTimeout libcoap service now = .ok (delay, next)) :
    ∃ wrapper after, services.wrapper service = some wrapper ∧
      wrapper.timeOut libcoap now fiveSeconds = .ok (after, delay) ∧
      next = (services.setWrapper service after).schedule service delay := by
  unfold Services.handleTimeout at called
  split at called
  · cases called
  next wrapper wrapped =>
    cases timedOut : wrapper.timeOut libcoap now fiveSeconds with
    | error fault => simp [timedOut, error_bind] at called
    | ok result =>
      simp only [timedOut, ok_bind, pure_eq_ok] at called
      cases called
      exact ⟨wrapper, _, wrapped, timedOut, rfl⟩

private theorem expire_called {services next : Services} {index : Nat} {now : UInt32} {libcoap : Libcoap}
    {timer : Service × Timeval} {armed} (there : services.net.timers[index]? = some timer)
    (answered : reactorStep services (.expire index now libcoap) = .ok (armed, next)) :
    ∃ wrapper after delay, services.wrapper timer.1 = some wrapper ∧
      wrapper.timeOut libcoap now fiveSeconds = .ok (after, delay) ∧
      ∀ service, contextOf next service = if service = timer.1 then after.coapCtx else contextOf services service := by
  simp only [reactorStep, there] at answered
  cases called : ({ services with net := services.net.expire index } : Services).handleTimeout libcoap timer.1 now with
  | error fault => simp [called, error_bind] at answered
  | ok result =>
    simp only [called, ok_bind, pure_eq_ok] at answered
    obtain ⟨wrapper, after, wrapped, timedOut, same⟩ := handleTimeout_called called
    cases answered
    refine ⟨wrapper, after, _, wrapped, timedOut, ?_⟩
    intro service
    rw [same]
    exact contextOf_setWrapper _ service timer.1 after

theorem contextOf_elsewhere {services next : Services} {service : Service} {event : ReactorEvent} {armed}
    (other : callee services event ≠ some service) (answered : reactorStep services event = .ok (armed, next)) :
    contextOf next service = contextOf services service := by
  cases event with
  | input called ctx =>
    cases answered
    unfold Services.handleInput
    split
    · rfl
    · rw [contextOf_setWrapper, if_neg]
      rintro rfl
      exact other rfl
  | expire index now libcoap =>
    cases there : services.net.timers[index]? with
    | none =>
      simp only [reactorStep, there] at answered
      cases answered
      rfl
    | some timer =>
      obtain ⟨_, _, _, _, _, contexts⟩ := expire_called there answered
      rw [contexts, if_neg]
      rintro rfl
      exact other (congrArg (Option.map Prod.fst) there)

theorem contextOf_handleInput {services : Services} {service : Service} {before : CoapContextT}
    (opened : contextOf services service = some before) (after : CoapContextT) :
    contextOf (services.handleInput service after) service = some after := by
  obtain ⟨wrapper, wrapped, inside⟩ := Option.bind_eq_some_iff.mp opened
  simp only [Services.handleInput, wrapped, CoAPWrapper.handleEvent, inside]
  rw [contextOf_setWrapper, if_pos rfl]

theorem contextOf_timeOut {services next : Services} {service : Service} {ctx : CoapContextT} {index : Nat}
    {now : UInt32} {libcoap : Libcoap} {state : Retransmitting} {delay : Timeval} {armed}
    (opened : contextOf services service = some ctx)
    (fires : callee services (.expire index now libcoap) = some service)
    (returned : timeOutWith libcoap.retransmit ctx now = .ok (state, delay))
    (answered : reactorStep services (.expire index now libcoap) = .ok (armed, next)) :
    contextOf next service = some state.ctx := by
  obtain ⟨timer, there, rfl⟩ := Option.map_eq_some_iff.mp fires
  obtain ⟨wrapper, after, _, wrapped, timedOut, contexts⟩ := expire_called there answered
  obtain ⟨same, held, inside⟩ := Option.bind_eq_some_iff.mp opened
  obtain rfl : wrapper = same := Option.some.inj (wrapped.symm.trans held)
  simp only [CoAPWrapper.timeOut, inside, returned, ok_bind, pure_eq_ok] at timedOut
  cases timedOut
  rw [contexts, if_pos rfl]

private theorem kept_balanced {service : Service} {start services : Services} {book : Book}
    (kept : Kept service start services book) (distinct : (book.sent.map Transaction.pdu).Nodup) :
    ∃ ctx, contextOf services service = some ctx ∧ Balanced book ctx := by
  induction kept with
  | start opened =>
    refine ⟨_, opened, ?_⟩
    rw [Balanced, List.append_nil]
    exact .initial _
  | elsewhere kept other answered ih =>
    obtain ⟨ctx, opened, balanced⟩ := ih distinct
    exact ⟨ctx, (contextOf_elsewhere other answered).trans opened, balanced⟩
  | @dispatched services book before after sent acknowledged kept opened dispatched ih =>
    have earlier : (book.sent.map Transaction.pdu).Nodup := by
      rw [List.map_append] at distinct
      exact (List.nodup_append.mp distinct).1
    obtain ⟨ctx, same, balanced⟩ := ih earlier
    obtain rfl : before = ctx := Option.some.inj (opened.symm.trans same)
    refine ⟨after, contextOf_handleInput opened after, ?_⟩
    refine (balanced.takeAll distinct).perm ?_
    have sooner : ((transactions before.sendqueue ++ book.acknowledged) ++ sent).Perm
        ((transactions before.sendqueue ++ sent) ++ book.acknowledged) := by
      rw [List.append_assoc, List.append_assoc]
      exact List.perm_append_comm.append_left _
    have later : ((transactions after.sendqueue ++ acknowledged) ++ book.acknowledged).Perm
        (transactions after.sendqueue ++ (book.acknowledged ++ acknowledged)) := by
      rw [List.append_assoc]
      exact List.perm_append_comm.append_left _
    exact (sooner.trans (dispatched.moved.symm.append_right _)).trans later
  | @timedOut services book before index now libcoap state delay armed next kept opened fires returned answered ih =>
    obtain ⟨ctx, same, balanced⟩ := ih distinct
    obtain rfl : before = ctx := Option.some.inj (opened.symm.trans same)
    obtain ⟨result, called, serving, _⟩ := timeOutWith_returns libcoap.law before now
    obtain ⟨rfl, _⟩ := Prod.mk.inj (Except.ok.inj (returned.symm.trans called))
    exact ⟨state.ctx, contextOf_timeOut opened fires returned answered,
      balanced_serves serving.serves balanced distinct⟩

private theorem kept_counts {service : Service} {start services : Services} {book : Book}
    (kept : Kept service start services book) (counts : ∀ ctx, contextOf start service = some ctx →
      ∀ node ∈ ctx.sendqueue, node.retransmitCnt ≤ coapDefaultMaxRetransmit) :
    ∀ item ∈ book.sent, item.retransmitCnt ≤ coapDefaultMaxRetransmit := by
  induction kept with
  | start opened =>
    intro item member
    obtain ⟨node, among, rfl⟩ := List.mem_map.mp member
    exact counts _ opened node among
  | elsewhere kept other answered ih => exact ih
  | dispatched kept opened dispatched ih =>
    intro item member
    rcases List.mem_append.mp member with old | new
    · exact ih item old
    · rw [dispatched.unsent item new]
      decide
  | timedOut kept opened fires returned answered ih => exact ih

theorem served_forms {item : Transaction} (bounded : item.retransmitCnt ≤ coapDefaultMaxRetransmit)
    {served rest : List Transaction} (forms : retrying.forms item = served ++ rest) :
    served = (List.range served.length).map (advanced item) ∧
      served.length + rest.length + item.retransmitCnt.toNat = coapDefaultMaxRetransmit.toNat + 1 ∧
      ∀ now more, rest = now :: more → now = advanced item served.length := by
  rw [forms_advanced bounded] at forms
  have limit := UInt8.le_iff_toNat_le.mp bounded
  have lengths := congrArg List.length forms
  rw [List.length_map, List.length_range, List.length_append] at lengths
  refine ⟨?_, by omega, ?_⟩
  · have front := congrArg (List.take served.length) forms
    rw [List.take_left, ← List.map_take, List.take_range, Nat.min_eq_left (by omega)] at front
    exact front.symm
  · rintro now more rfl
    have here := congrArg (·[served.length]?) forms
    simp only [List.length_cons] at lengths
    have inside : served.length < coapDefaultMaxRetransmit.toNat + 1 - item.retransmitCnt.toNat := by omega
    simpa [List.getElem?_append_right, List.getElem?_range inside] using here.symm

/-- Where a PDU stands after it was handed over `n` times, with rising counts: it
is queued with the next count, or acknowledged, or its retransmissions are used
up. -/
structure Accounted (queue acknowledged handed : List Transaction) (item : Transaction) (n : Nat) : Prop where
  order : handed.filter (·.pdu = item.pdu) = (List.range n).map (advanced item)
  bounded : n + item.retransmitCnt.toNat ≤ coapDefaultMaxRetransmit.toNat + 1
  outcome : (advanced item n ∈ queue ∧ item.pdu ∉ acknowledged.map Transaction.pdu) ∨
    (advanced item n ∈ acknowledged ∧ item.pdu ∉ queue.map Transaction.pdu) ∨
    (n + item.retransmitCnt.toNat = coapDefaultMaxRetransmit.toNat + 1 ∧ item.pdu ∉ queue.map Transaction.pdu ∧
      item.pdu ∉ acknowledged.map Transaction.pdu)

theorem accounted {sent queue acknowledged handed : List Transaction}
    (ledger : Retries.Ledger retrying Transaction.pdu sent (queue ++ acknowledged) handed)
    (distinct : (sent.map Transaction.pdu).Nodup) {item : Transaction} (member : item ∈ sent)
    (bounded : item.retransmitCnt ≤ coapDefaultMaxRetransmit) : ∃ n, Accounted queue acknowledged handed item n := by
  have apart := ledger.distinct distinct
  rw [List.map_append] at apart
  have disjoint {pdu : Nat} (queued : pdu ∈ queue.map Transaction.pdu)
      (done : pdu ∈ acknowledged.map Transaction.pdu) : False :=
    (List.nodup_append.mp apart).2.2 pdu queued pdu done rfl
  rcases ledger.stands item member with ⟨now, held, same, forms⟩ | ⟨gone, forms⟩
  · obtain ⟨order, lengths, next⟩ := served_forms bounded forms
    obtain rfl := next now _ (retrying.forms_eq now)
    refine ⟨_, order, by omega, ?_⟩
    rcases List.mem_append.mp held with queued | done
    · exact Or.inl ⟨queued, fun also => disjoint (List.mem_map_of_mem queued) also⟩
    · exact Or.inr (Or.inl ⟨done, fun also => disjoint also (List.mem_map.mpr ⟨_, done, rfl⟩)⟩)
  · rw [← List.append_nil (handed.filter _)] at forms
    obtain ⟨order, lengths, _⟩ := served_forms bounded forms
    rw [List.map_append, List.mem_append, not_or] at gone
    exact ⟨_, order, by omega, Or.inr (Or.inr ⟨by simpa using lengths, gone⟩)⟩

/-- Over any run of the reactor, with sends, acknowledgements and calls of
`time_out` in any order, no PDU of a service is lost, made up or handed over out
of turn or more often than it has retransmissions. -/
theorem retransmissions_accounted {service : Service} {start services : Services} {book : Book}
    (kept : Kept service start services book) (counts : ∀ ctx, contextOf start service = some ctx →
      ∀ node ∈ ctx.sendqueue, node.retransmitCnt ≤ coapDefaultMaxRetransmit)
    (distinct : (book.sent.map Transaction.pdu).Nodup) : ∃ ctx, contextOf services service = some ctx ∧
      (∀ item ∈ transactions ctx.sendqueue ++ book.acknowledged ++ book.handed,
        item.pdu ∈ book.sent.map Transaction.pdu) ∧
      ∀ item ∈ book.sent, ∃ n, Accounted (transactions ctx.sendqueue) book.acknowledged book.handed item n := by
  obtain ⟨ctx, opened, balanced⟩ := kept_balanced kept distinct
  refine ⟨ctx, opened, ?_, ?_⟩
  · intro item member
    rcases List.mem_append.mp member with held | served
    · exact balanced.balance.names.subset (List.mem_append_left _ (List.mem_map_of_mem held))
    · exact balanced.known item served
  · intro item member
    exact accounted balanced distinct member (kept_counts kept counts item member)

def sending : CoapContextT :=
  { waiting with sendqueue := waiting.sendqueue ++ [{ retransmitCnt := 0, timeout := 3000, pdu := 2, t := 2900, id := 23975 }] }

theorem retransmissions_accounted_sending : ∃ services handed,
    Kept .rd started services { sent := [⟨0, 2048, 1⟩, ⟨0, 3000, 2⟩], handed } ∧
    ∃ ctx, contextOf services .rd = some ctx ∧
      (∀ item ∈ transactions ctx.sendqueue ++ [] ++ handed, item.pdu ∈ [1, 2]) ∧
      ∀ item ∈ [⟨0, 2048, 1⟩, ⟨0, 3000, 2⟩], ∃ n, Accounted (transactions ctx.sendqueue) [] handed item n := by
  have opened : contextOf started .rd = some waiting := rfl
  have sent := Kept.dispatched (.start opened) opened (⟨by decide, by decide⟩ : Dispatched waiting sending [⟨0, 3000, 2⟩] [])
  have live : Live (started.handleInput .rd sending) :=
    handleInput_live (@live_of_init afterRd started rdFound proxyFound rfl rfl) .rd sending
  obtain ⟨state, returned, _⟩ := timeOutWith_returns libcoap.law sending 2950
  obtain ⟨armed, next, answered, _⟩ := reactorStep_live live (.expire 0 2950 libcoap)
  have kept := sent.timedOut (contextOf_handleInput opened sending) rfl returned answered
  refine ⟨next, transactions state.handed, kept, ?_⟩
  refine retransmissions_accounted kept ?_ (show [1, 2].Nodup by decide)
  intro ctx same
  obtain rfl : waiting = ctx := Option.some.inj (opened.symm.trans same)
  decide

end IoTGateway.Proofs.RetransmissionRun
