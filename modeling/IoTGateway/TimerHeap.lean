import Mathlib.Logic.Function.Basic
import IoTGateway.Lib.BinaryHeap
import IoTGateway.Lib.Loop
import IoTGateway.Memory

/-! `ACE_Timer_Heap_T`, the timer queue of the reactor: a binary heap of nodes
beside an array that gives every timer id its slot. Nodes are not preallocated,
allocation succeeds, and assertions are compiled out. Times are microseconds. -/

namespace IoTGateway

/-- `ACE_Timer_Node_T`; the list links of the other queues are not used here. -/
structure TimerNode (τ : Type) where
  type : τ
  act : Nat
  timerValue : Int
  interval : Int
  timerId : Nat
  deriving Repr, DecidableEq

/-- Both arrays have `maxSize` entries; a slot of `heap` that was never written
is `none`. An id is free below zero, except that -2 marks one whose node is out
of the heap but not freed. -/
structure TimerHeap (τ : Type) where
  maxSize : Nat
  curSize : Nat := 0
  curLimbo : Nat := 0
  heap : Nat → Option (TimerNode τ) := fun _ => none
  timerIds : Nat → Int := fun _ => -1
  timerIdsCurr : Nat := 0
  timerIdsMinFree : Nat := 0

def aceHeapParent (x : Nat) : Nat := if x = 0 then 0 else (x - 1) / 2
def aceHeapLchild (x : Nat) : Nat := x + x + 1

namespace TimerHeap
variable {τ : Type}

/-- The constructor, for heaps of any size. -/
def ofSize (size : Nat) : TimerHeap τ := { maxSize := size }

/-- `heap_[slot]`, about to be dereferenced. -/
def node (queue : TimerHeap τ) (slot : Nat) : Checked (TimerNode τ) :=
  if slot < queue.maxSize then
    match queue.heap slot with
    | some node => .ok node
    | none => .error .nullPointer
  else .error (.readOutside slot)

def idSlot (queue : TimerHeap τ) (timerId : Nat) : Checked Int :=
  if timerId < queue.maxSize then .ok (queue.timerIds timerId) else .error (.readOutside timerId)

def setIdSlot (queue : TimerHeap τ) (timerId : Nat) (slot : Int) : Checked (TimerHeap τ) :=
  if timerId < queue.maxSize then .ok { queue with timerIds := Function.update queue.timerIds timerId slot }
  else .error (.writeOutside timerId)

def isEmpty (queue : TimerHeap τ) : Bool := queue.curSize == 0

def earliestTime (queue : TimerHeap τ) : Checked Int := do
  return (← queue.node 0).timerValue

def copy (queue : TimerHeap τ) (slot : Nat) (movedNode : TimerNode τ) : Checked (TimerHeap τ) :=
  if slot < queue.maxSize then
    { queue with heap := Function.update queue.heap slot (some movedNode) }.setIdSlot movedNode.timerId slot
  else .error (.writeOutside slot)

/-- `while (slot > 0)` and its body; `break` leaves with the slot reached. -/
def reheapUpRound (movedNode : TimerNode τ) :
    TimerHeap τ × Nat × Nat → Checked (TimerHeap τ × Nat × Nat ⊕ TimerHeap τ × Nat)
  | (queue, slot, parent) =>
    if 0 < slot then do
      let above ← queue.node parent
      if movedNode.timerValue < above.timerValue then
        let queue ← queue.copy slot above
        return .inl (queue, parent, aceHeapParent parent)
      else return .inr (queue, slot)
    else .ok (.inr (queue, slot))

def reheapUp (queue : TimerHeap τ) (movedNode : TimerNode τ) (slot parent : Nat) : Checked (TimerHeap τ) := do
  match ← Loops.iterate (reheapUpRound movedNode) (slot + 1) (queue, slot, parent) with
  | some (queue, slot) => queue.copy slot movedNode
  | none => throw .unbounded

/-- Choose the smaller of the two children. -/
def smallerChild (queue : TimerHeap τ) (child : Nat) : Checked Nat :=
  if child + 1 < queue.curSize then do
    let right ← queue.node (child + 1)
    let left ← queue.node child
    return if right.timerValue < left.timerValue then child + 1 else child
  else .ok child

/-- `while (child < this->cur_size_)` and its body. -/
def reheapDownRound (movedNode : TimerNode τ) :
    TimerHeap τ × Nat × Nat → Checked (TimerHeap τ × Nat × Nat ⊕ TimerHeap τ × Nat)
  | (queue, slot, child) =>
    if child < queue.curSize then do
      let child ← queue.smallerChild child
      let below ← queue.node child
      if below.timerValue < movedNode.timerValue then
        let queue ← queue.copy slot below
        return .inl (queue, child, aceHeapLchild child)
      else return .inr (queue, slot)
    else .ok (.inr (queue, slot))

def reheapDown (queue : TimerHeap τ) (movedNode : TimerNode τ) (slot child : Nat) : Checked (TimerHeap τ) := do
  match ← Loops.iterate (reheapDownRound movedNode) (queue.curSize + 1) (queue, slot, child) with
  | some (queue, slot) => queue.copy slot movedNode
  | none => throw .unbounded

/-- `if (slot < this->cur_size_)` and its body, in `remove`: the end node moves
to the location being removed. -/
def refill (queue : TimerHeap τ) (slot : Nat) : Checked (TimerHeap τ) :=
  if slot < queue.curSize then do
    let movedNode ← queue.node queue.curSize
    let queue ← queue.copy slot movedNode
    let parent := aceHeapParent slot
    let above ← queue.node parent
    if movedNode.timerValue ≥ above.timerValue then queue.reheapDown movedNode slot (aceHeapLchild slot)
    else queue.reheapUp movedNode slot parent
  else .ok queue

def remove (queue : TimerHeap τ) (slot : Nat) : Checked (TimerNode τ × TimerHeap τ) := do
  let removedNode ← queue.node slot
  let curSize ← decrement queue.curSize
  let queue ← { queue with curSize }.refill slot
  let queue ← queue.setIdSlot removedNode.timerId (-2)
  return (removedNode, { queue with curLimbo := queue.curLimbo + 1 })

/-- New ids get the value `-(i + 1)`. -/
def growHeap (queue : TimerHeap τ) : TimerHeap τ :=
  { queue with
    maxSize := queue.maxSize * 2
    heap := fun i => if i < queue.maxSize then queue.heap i else none
    timerIds := fun i => if i < queue.maxSize then queue.timerIds i else -(i + 1)
    timerIdsMinFree := queue.maxSize * 2 }

def insert (queue : TimerHeap τ) (newNode : TimerNode τ) : Checked (TimerHeap τ) := do
  let queue := if queue.curSize + queue.curLimbo + 2 ≥ queue.maxSize then queue.growHeap else queue
  let queue ← queue.reheapUp newNode queue.curSize (aceHeapParent queue.curSize)
  return { queue with curSize := queue.curSize + 1 }

def popFreelistRound (queue : TimerHeap τ) (curr : Nat) : Checked (Nat ⊕ Nat) :=
  if curr < queue.maxSize then do
    let slot ← queue.idSlot curr
    return if slot ≥ 0 ∨ slot = -2 then .inl (curr + 1) else .inr curr
  else .ok (.inr curr)

def popFreelist (queue : TimerHeap τ) : Checked (Nat × TimerHeap τ) := do
  match ← Loops.iterate queue.popFreelistRound (queue.maxSize + 1) (queue.timerIdsCurr + 1) with
  | some curr =>
    if curr = queue.maxSize then
      return (queue.timerIdsMinFree,
        { queue with timerIdsCurr := queue.timerIdsMinFree, timerIdsMinFree := queue.maxSize })
    else return (curr, { queue with timerIdsCurr := curr })
  | none => throw .unbounded

/-- The count that `push_freelist` lowers, by what the id's entry says. -/
def countOut (queue : TimerHeap τ) (slot : Int) : Checked (TimerHeap τ) :=
  if slot = -2 then do
    let curLimbo ← decrement queue.curLimbo
    return { queue with curLimbo }
  else do
    let curSize ← decrement queue.curSize
    return { queue with curSize }

def pushFreelist (queue : TimerHeap τ) (oldId : Nat) : Checked (TimerHeap τ) := do
  let slot ← queue.idSlot oldId
  let queue ← queue.countOut slot
  let queue ← queue.setIdSlot oldId (-1)
  return if oldId < queue.timerIdsMinFree ∧ oldId ≤ queue.timerIdsCurr then { queue with timerIdsMinFree := oldId }
    else queue

def freeNode (queue : TimerHeap τ) (node : TimerNode τ) : Checked (TimerHeap τ) := queue.pushFreelist node.timerId

/-- The id of the new timer, or -1. -/
def scheduleI (queue : TimerHeap τ) (type : τ) (act : Nat) (futureTime interval : Int) :
    Checked (Int × TimerHeap τ) :=
  if queue.curSize + queue.curLimbo < queue.maxSize then do
    let (timerId, queue) ← queue.popFreelist
    let queue ← queue.insert { type, act, timerValue := futureTime, interval, timerId }
    return (timerId, queue)
  else .ok (-1, queue)

def reschedule (queue : TimerHeap τ) (expired : TimerNode τ) : Checked (TimerHeap τ) := do
  let slot ← queue.idSlot expired.timerId
  let queue ←
    if slot = -2 then do
      let curLimbo ← decrement queue.curLimbo
      pure { queue with curLimbo }
    else pure queue
  queue.insert expired

def removeFirst (queue : TimerHeap τ) : Checked (Option (TimerNode τ) × TimerHeap τ) :=
  if queue.curSize = 0 then .ok (none, queue)
  else do
    let (node, queue) ← queue.remove 0
    return (some node, queue)

/-- `cancel (timer_id, &act)`: what it stores in `act`, or nothing where it
returns 0. -/
def cancel (queue : TimerHeap τ) (timerId : Int) : Checked (Option Nat × TimerHeap τ) :=
  if timerId < 0 ∨ timerId.toNat > queue.maxSize then .ok (none, queue)
  else do
    let slot ← queue.idSlot timerId.toNat
    if slot < 0 then return (none, queue)
    else
      let node ← queue.node slot.toNat
      if timerId ≠ node.timerId then return (none, queue)
      else
        let (temp, queue) ← queue.remove slot.toNat
        let queue ← queue.freeNode temp
        return (some temp.act, queue)

/-- `reset_interval`: 0, or -1 for an id without a timer. -/
def resetInterval (queue : TimerHeap τ) (timerId interval : Int) : Checked (Int × TimerHeap τ) :=
  if timerId < 0 ∨ timerId.toNat > queue.maxSize then .ok (-1, queue)
  else do
    let slot ← queue.idSlot timerId.toNat
    if slot < 0 then return (-1, queue)
    else
      let node ← queue.node slot.toNat
      if timerId ≠ node.timerId then return (-1, queue)
      else
        return (0, { queue with heap := Function.update queue.heap slot.toNat (some { node with interval }) })

/-- One round of `cancel (type)`: a removal starts the search again. -/
def cancelTypeRound [DecidableEq τ] (type : τ) :
    TimerHeap τ × Nat × Nat → Checked (TimerHeap τ × Nat × Nat ⊕ Nat × TimerHeap τ)
  | (queue, i, numberOfCancellations) =>
    if i < queue.curSize then do
      let node ← queue.node i
      if node.type = type then
        let (temp, queue) ← queue.remove i
        let queue ← queue.freeNode temp
        return .inl (queue, 0, numberOfCancellations + 1)
      else return .inl (queue, i + 1, numberOfCancellations)
    else .ok (.inr (numberOfCancellations, queue))

/-- `cancel (type)`: the number of timers taken out. -/
def cancelType [DecidableEq τ] (queue : TimerHeap τ) (type : τ) : Checked (Nat × TimerHeap τ) := do
  match ← Loops.iterate (cancelTypeRound type) ((queue.curSize + 1) * (queue.curSize + 1)) (queue, 0, 0) with
  | some result => return result
  | none => throw .unbounded

/-- One round of `close`: the node's memory and id are given back, then its
handler is told. -/
def closeRound (state : List (τ × Nat) × TimerHeap τ) (i : Nat) : Checked (List (τ × Nat) × TimerHeap τ) := do
  let node ← state.2.node i
  let queue ← state.2.freeNode node
  return (state.1 ++ [(node.type, node.act)], queue)

/-- `close`: the deletion upcalls it makes, and the queue left. -/
def close (queue : TimerHeap τ) : Checked (List (τ × Nat) × TimerHeap τ) :=
  (List.range queue.curSize).foldlM closeRound ([], queue)

end TimerHeap

end IoTGateway
