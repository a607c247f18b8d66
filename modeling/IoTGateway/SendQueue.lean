import Mathlib.Algebra.GroupWithZero.Nat
import IoTGateway.Lib.Loop
import IoTGateway.Memory

/-! `CoAPWrapper::time_out` on the send queue of libcoap. The head's time counts
from `sendqueue_basetime` and every other one from the node before it; the
clock and all times are 32-bit ticks that wrap. -/

namespace IoTGateway

def coapTicksPerSecond : UInt32 := 1024
def coapResourceCheckTime : UInt32 := 2
def coapDefaultMaxRetransmit : UInt8 := 4

/-- What a node keeps while it waits. PDUs are numbered as they are created. -/
structure Transaction where
  retransmitCnt : UInt8
  timeout : UInt32
  pdu : Nat
  deriving Repr, DecidableEq

/-- `coap_queue_t`, without the addresses. The id is a hash of peer and message
id, or `COAP_INVALID_TID` after a send that failed. -/
structure CoapQueueT extends Transaction where
  t : UInt32
  id : Int
  deriving Repr, DecidableEq

structure CoapContextT where
  sendqueueBasetime : UInt32
  sendqueue : List CoapQueueT
  deriving Repr, DecidableEq

def coapPeekNext (ctx : CoapContextT) : Option CoapQueueT := ctx.sendqueue.head?

/-- `coap_pop_next`: the new head's time counts from the base again. -/
def coapPopNext (ctx : CoapContextT) : Option (CoapQueueT × CoapContextT) :=
  match ctx.sendqueue with
  | [] => none
  | [next] => some (next, { ctx with sendqueue := [] })
  | next :: head :: rest => some (next, { ctx with sendqueue := { head with t := head.t + next.t } :: rest })

def coapInsertNode : List CoapQueueT → CoapQueueT → List CoapQueueT
  | [], node => [node]
  | q :: rest, node =>
    if node.t < q.t then node :: { q with t := q.t - node.t } :: rest
    else q :: coapInsertNode rest { node with t := node.t - q.t }

/-- `coap_retransmit`, in `net.c` of `libcoap-4.1.1.tar.gz`: a node with
retransmissions left goes back at the time `due` gives it, counted from the base,
under the id its new send returns; any other is dropped. -/
def coapRetransmit (due : Transaction → UInt32) (coapSendImpl : Transaction → Int) (ctx : CoapContextT)
    (node : CoapQueueT) : CoapContextT :=
  if node.retransmitCnt < coapDefaultMaxRetransmit then
    let node := { node with
      retransmitCnt := node.retransmitCnt + 1
      t := due node.toTransaction
      id := coapSendImpl node.toTransaction }
    { ctx with sendqueue := coapInsertNode ctx.sendqueue node }
  else ctx

/-- `node->timeout << node->retransmit_cnt`, the time libcoap 4.1.1 gives. -/
def backoff (node : Transaction) : UInt32 := node.timeout <<< (node.retransmitCnt + 1).toUInt32

/-- What `time_out` needs of `coap_retransmit`: a node with retransmissions left
goes back somewhere with one more counted, any other is dropped. Times and ids
are left open. -/
structure Retransmits (retransmit : CoapContextT → CoapQueueT → CoapContextT) : Prop where
  again : ∀ ctx node, node.retransmitCnt < coapDefaultMaxRetransmit → ∃ front back,
    ctx.sendqueue.map CoapQueueT.toTransaction = front ++ back ∧
    (retransmit ctx node).sendqueue.map CoapQueueT.toTransaction =
      front ++ { node.toTransaction with retransmitCnt := node.retransmitCnt + 1 } :: back
  drop : ∀ ctx node, ¬ node.retransmitCnt < coapDefaultMaxRetransmit →
    (retransmit ctx node).sendqueue.map CoapQueueT.toTransaction = ctx.sendqueue.map CoapQueueT.toTransaction

/-- The context in the course of the loop, and what it has handed to
`coap_retransmit` so far. -/
structure Retransmitting where
  ctx : CoapContextT
  handed : List CoapQueueT := []
  deriving Repr, DecidableEq

structure Timeval where
  tvSec : UInt32
  tvUsec : UInt32
  deriving Repr, DecidableEq

/-- The delay until the next call: the guard adds seconds to ticks. -/
def timerDelay (nextpdu : Option CoapQueueT) (now : UInt32) : Timeval :=
  match nextpdu with
  | some nextpdu =>
    if nextpdu.t ≤ now + coapResourceCheckTime then
      { tvSec := (nextpdu.t - now) / coapTicksPerSecond
        tvUsec := (nextpdu.t - now) % coapTicksPerSecond * 1000000 / coapTicksPerSecond }
    else { tvSec := coapResourceCheckTime, tvUsec := 0 }
  | none => { tvSec := coapResourceCheckTime, tvUsec := 0 }

/-- The retransmissions a queue can still cause, and one round for each drop. -/
def retransmissionsLeft (queue : List CoapQueueT) : Nat :=
  (queue.map fun node => coapDefaultMaxRetransmit.toNat - node.retransmitCnt.toNat + 1).sum

section
variable (retransmit : CoapContextT → CoapQueueT → CoapContextT)

/-- `while (nextpdu && nextpdu->t <= now)` and its body, over any `coap_retransmit`. -/
def retransmitRoundWith (now : UInt32) (state : Retransmitting) : Checked (Retransmitting ⊕ Retransmitting) :=
  match coapPeekNext state.ctx with
  | none => .ok (.inr state)
  | some nextpdu =>
    if nextpdu.t ≤ now then
      match coapPopNext state.ctx with
      | none => .error .nullPointer
      | some (node, ctx) => .ok (.inl { ctx := retransmit ctx node, handed := state.handed ++ [node] })
    else .ok (.inr state)

/-- `time_out` at the clock reading `now`: the context afterwards, what was
handed to `coap_retransmit`, and the delay. -/
def timeOutWith (ctx : CoapContextT) (now : UInt32) : Checked (Retransmitting × Timeval) := do
  match ← Loops.iterate (retransmitRoundWith retransmit now) (retransmissionsLeft ctx.sendqueue + 1) { ctx } with
  | some state => return (state, timerDelay (coapPeekNext state.ctx) now)
  | none => throw .unbounded

end

def timeOut (due : Transaction → UInt32) (coapSendImpl : Transaction → Int) :
    CoapContextT → UInt32 → Checked (Retransmitting × Timeval) :=
  timeOutWith (coapRetransmit due coapSendImpl)

end IoTGateway
