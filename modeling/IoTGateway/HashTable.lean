import Mathlib.Logic.Function.Basic
import IoTGateway.Lib.LinkedList
import IoTGateway.Memory

/-! `uthash`, the table in which libcoap keeps the resources of a context: its
elements stand in the chains of buckets, and all of them in the order in which
they were added. An element is the address of its hash handle. The hash function
is a parameter, as in the header; allocation succeeds and no counter overflows. -/

namespace IoTGateway

/-- `UT_hash_handle`. `κ` is what `keylen` bytes at `key` can hold, and there is
one table for the handles to point to. -/
structure UTHashHandle (κ : Type) where
  prev : Option Nat
  next : Option Nat
  hhPrev : Option Nat
  hhNext : Option Nat
  key : κ
  hashv : UInt32

structure UTHashBucket where
  hhHead : Option Nat := none
  count : Nat := 0
  expandMult : Nat := 0

structure UTHashTable where
  buckets : Nat → UTHashBucket
  numBuckets : Nat
  log2NumBuckets : Nat
  numItems : Nat := 0
  tail : Nat
  idealChainMaxlen : Nat := 0
  nonidealItems : Nat := 0
  ineffExpands : Nat := 0
  noexpand : Nat := 0

/-- The elements in memory, and the head pointer of the caller. The table lives
as long as there is a head. -/
structure UTHash (κ : Type) where
  handles : Nat → UTHashHandle κ
  head : Option Nat := none
  tbl : Option UTHashTable := none

def hashInitialNumBuckets : Nat := 32
def hashInitialNumBucketsLog2 : Nat := 5
def hashBktCapacityThresh : Nat := 10

/-- `HASH_TO_BKT` -/
def hashToBkt (hashv : UInt32) (numBkts : Nat) : Nat := hashv.toNat &&& (numBkts - 1)

namespace UTHash
variable {κ : Type}

/-- Assign to fields of one handle. -/
def assign (handles : Nat → UTHashHandle κ) (elt : Nat) (change : UTHashHandle κ → UTHashHandle κ) :
    Nat → UTHashHandle κ := Function.update handles elt (change (handles elt))

/-- The same for a pointer that may be null. -/
def assignTo (handles : Nat → UTHashHandle κ) (elt : Option Nat) (change : UTHashHandle κ → UTHashHandle κ) :
    Nat → UTHashHandle κ :=
  match elt with
  | some elt => assign handles elt change
  | none => handles

def bucketAt (buckets : Nat → UTHashBucket) (numBuckets bkt : Nat) : Checked UTHashBucket :=
  if bkt < numBuckets then .ok (buckets bkt) else .error (.readOutside bkt)

def table (hash : UTHash κ) : Checked UTHashTable :=
  match hash.tbl with
  | some tbl => .ok tbl
  | none => .error .nullPointer

/-- `HASH_MAKE_TABLE` -/
def hashMakeTable (head : Nat) : UTHashTable where
  buckets := fun _ => {}
  numBuckets := hashInitialNumBuckets
  log2NumBuckets := hashInitialNumBucketsLog2
  tail := head

/-- Put a handle before the first one of a chain. -/
def linkFirst (handles : Nat → UTHashHandle κ) (hhHead : Option Nat) (thh : Nat) : Nat → UTHashHandle κ :=
  assignTo (assign handles thh fun hh => { hh with hhPrev := none, hhNext := hhHead }) hhHead
    fun hh => { hh with hhPrev := some thh }

/-- `HASH_EXPAND_BUCKETS` on its way through the old buckets. -/
structure Expanding (κ : Type) where
  handles : Nat → UTHashHandle κ
  newBuckets : Nat → UTHashBucket
  nonidealItems : Nat

/-- `while (_he_thh)` and its body. Only a count above `idealChainMaxlen` is
divided by it, and `idealChainMaxlen_pos` shows that it is not zero then. -/
def expandRound (numBuckets idealChainMaxlen : Nat) :
    Option Nat × Expanding κ → Checked (Option Nat × Expanding κ ⊕ Expanding κ)
  | (none, state) => .ok (.inr state)
  | (some thh, state) => do
    let hhNxt := (state.handles thh).hhNext
    let bkt := hashToBkt (state.handles thh).hashv (numBuckets * 2)
    let newbkt ← bucketAt state.newBuckets (numBuckets * 2) bkt
    let count := newbkt.count + 1
    let crowded := count > idealChainMaxlen
    let expandMult := if crowded then count / idealChainMaxlen else newbkt.expandMult
    return .inl (hhNxt, {
      handles := linkFirst state.handles newbkt.hhHead thh
      newBuckets := Function.update state.newBuckets bkt { hhHead := some thh, count, expandMult }
      nonidealItems := if crowded then state.nonidealItems + 1 else state.nonidealItems })

def expandBucket (tbl : UTHashTable) (idealChainMaxlen : Nat) (state : Expanding κ) (bktI : Nat) :
    Checked (Expanding κ) := do
  let old ← bucketAt tbl.buckets tbl.numBuckets bktI
  match ← Loops.iterate (expandRound tbl.numBuckets idealChainMaxlen) (tbl.numItems + 1) (old.hhHead, state) with
  | some state => return state
  | none => throw .unbounded

/-- ceil(n/b) for the doubled number of buckets. -/
def idealChainMaxlen (tbl : UTHashTable) : Nat :=
  tbl.numItems >>> (tbl.log2NumBuckets + 1) + if tbl.numItems &&& (tbl.numBuckets * 2 - 1) ≠ 0 then 1 else 0

/-- `HASH_EXPAND_BUCKETS` -/
def hashExpandBuckets (handles : Nat → UTHashHandle κ) (tbl : UTHashTable) :
    Checked ((Nat → UTHashHandle κ) × UTHashTable) := do
  let state ← (List.range tbl.numBuckets).foldlM (expandBucket tbl (idealChainMaxlen tbl))
    { handles, newBuckets := fun _ => {}, nonidealItems := 0 }
  let ineffExpands := if state.nonidealItems > tbl.numItems >>> 1 then tbl.ineffExpands + 1 else 0
  return (state.handles, { tbl with
    buckets := state.newBuckets
    numBuckets := tbl.numBuckets * 2
    log2NumBuckets := tbl.log2NumBuckets + 1
    idealChainMaxlen := idealChainMaxlen tbl
    nonidealItems := state.nonidealItems
    ineffExpands
    noexpand := if ineffExpands > 1 then 1 else tbl.noexpand })

/-- When `HASH_ADD_TO_BKT` expands the buckets: `head` has the new element. -/
abbrev Crowded (tbl : UTHashTable) (head : UTHashBucket) : Prop :=
  head.count ≥ (head.expandMult + 1) * hashBktCapacityThresh ∧ tbl.noexpand ≠ 1

/-- `HASH_ADD_TO_BKT` -/
def hashAddToBkt (handles : Nat → UTHashHandle κ) (tbl : UTHashTable) (bkt addhh : Nat) :
    Checked ((Nat → UTHashHandle κ) × UTHashTable) := do
  let head ← bucketAt tbl.buckets tbl.numBuckets bkt
  let handles := linkFirst handles head.hhHead addhh
  let head := { head with count := head.count + 1, hhHead := some addhh }
  let tbl := { tbl with buckets := Function.update tbl.buckets bkt head }
  if Crowded tbl head then hashExpandBuckets handles tbl else return (handles, tbl)

/-- `HASH_ADD_KEYPTR` -/
def hashAdd (hashFcn : κ → UInt32) (hash : UTHash κ) (key : κ) (add : Nat) : Checked (UTHash κ) := do
  let handles := assign hash.handles add fun hh => { hh with next := none, key }
  let (head, handles, tbl) ← match hash.head with
    | none => .ok (add, assign handles add fun hh => { hh with prev := none }, hashMakeTable add)
    | some head => do
      let tbl ← hash.table
      let handles := assign handles tbl.tail fun hh => { hh with next := some add }
      .ok (head, assign handles add fun hh => { hh with prev := some tbl.tail }, { tbl with tail := add })
  let tbl := { tbl with numItems := tbl.numItems + 1 }
  let handles := assign handles add fun hh => { hh with hashv := hashFcn key }
  let (handles, tbl) ← hashAddToBkt handles tbl (hashToBkt (hashFcn key) tbl.numBuckets) add
  return { handles, head := some head, tbl := some tbl }

/-- `HASH_FIND` and `HASH_FIND_IN_BKT` -/
def hashFind [DecidableEq κ] (hashFcn : κ → UInt32) (hash : UTHash κ) (key : κ) : Checked (Option Nat) :=
  match hash.head with
  | none => .ok none
  | some _ => do
    let tbl ← hash.table
    let head ← bucketAt tbl.buckets tbl.numBuckets (hashToBkt (hashFcn key) tbl.numBuckets)
    match ← Loops.iterate (LinkedLists.searchRound (fun out => (hash.handles out).hhNext)
      fun out => (hash.handles out).key = key) (tbl.numItems + 1) head.hhHead with
    | some out => return out
    | none => throw .unbounded

/-- `HASH_DEL_IN_BKT` -/
def hashDelInBkt (handles : Nat → UTHashHandle κ) (head : UTHashBucket) (hhDel : Nat) :
    Checked ((Nat → UTHashHandle κ) × UTHashBucket) := do
  let count ← decrement head.count
  let hhHead := if head.hhHead = some hhDel then (handles hhDel).hhNext else head.hhHead
  let handles := assignTo handles (handles hhDel).hhPrev fun hh => { hh with hhNext := (handles hhDel).hhNext }
  let handles := assignTo handles (handles hhDel).hhNext fun hh => { hh with hhPrev := (handles hhDel).hhPrev }
  return (handles, { head with count, hhHead })

/-- The tail once an element is gone. -/
def tailWithout (handles : Nat → UTHashHandle κ) (tbl : UTHashTable) (delptr : Nat) : Checked Nat :=
  if delptr = tbl.tail then
    match (handles delptr).prev with
    | some prev => .ok prev
    | none => .error .nullPointer
  else .ok tbl.tail

/-- `HASH_DELETE` -/
def hashDelete (hash : UTHash κ) (delptr : Nat) : Checked (UTHash κ) :=
  if (hash.handles delptr).prev = none ∧ (hash.handles delptr).next = none then
    .ok { hash with head := none, tbl := none }
  else do
    let tbl ← hash.table
    let tail ← tailWithout hash.handles tbl delptr
    let head := if (hash.handles delptr).prev = none then (hash.handles delptr).next else hash.head
    let handles := assignTo hash.handles (hash.handles delptr).prev fun hh => { hh with next := (hash.handles delptr).next }
    let handles := assignTo handles (handles delptr).next fun hh => { hh with prev := (handles delptr).prev }
    let bkt := hashToBkt (handles delptr).hashv tbl.numBuckets
    let bucket ← bucketAt tbl.buckets tbl.numBuckets bkt
    let (handles, bucket) ← hashDelInBkt handles bucket delptr
    let numItems ← decrement tbl.numItems
    return { handles, head, tbl := some { tbl with tail, numItems, buckets := Function.update tbl.buckets bkt bucket } }

/-- `HASH_CLEAR` -/
def hashClear (hash : UTHash κ) : UTHash κ := { hash with head := none, tbl := none }

/-- `HASH_CNT` -/
def hashCnt (hash : UTHash κ) : Checked Nat :=
  match hash.head with
  | none => .ok 0
  | some _ => do
    return (← hash.table).numItems

/-- `HASH_ITER`: `el` is visited and `tmp` comes after it. -/
def iterRound (handles : Nat → UTHashHandle κ) :
    Option Nat × Option Nat × List Nat → Checked (Option Nat × Option Nat × List Nat ⊕ List Nat)
  | (none, _, visited) => .ok (.inr visited)
  | (some el, tmp, visited) => .ok (.inl (tmp, tmp.bind fun tmp => (handles tmp).next, visited ++ [el]))

def hashIter (hash : UTHash κ) : Checked (List Nat) := do
  let number ← hash.hashCnt
  match ← Loops.iterate (iterRound hash.handles) (number + 1)
    (hash.head, hash.head.bind fun head => (hash.handles head).next, []) with
  | some visited => return visited
  | none => throw .unbounded

/-- `while (_thh)` and its body, for either kind of links; `none` is an oops. -/
def fsckRound (next prev : Nat → Option Nat) :
    Option Nat × Option Nat × Nat → Checked (Option Nat × Option Nat × Nat ⊕ Option Nat)
  | (none, _, count) => .ok (.inr (some count))
  | (some thh, before, count) =>
    if before ≠ prev thh then .ok (.inr none) else .ok (.inl (next thh, some thh, count + 1))

def fsckWalk (next prev : Nat → Option Nat) (numItems : Nat) (thh : Option Nat) : Checked (Option Nat) := do
  match ← Loops.iterate (fsckRound next prev) (numItems + 1) (thh, none, 0) with
  | some count => return count
  | none => throw .unbounded

def fsckBucket (hash : UTHash κ) (tbl : UTHashTable) (count : Option Nat) (bktI : Nat) : Checked (Option Nat) := do
  match count with
  | none => return none
  | some count =>
    let bucket ← bucketAt tbl.buckets tbl.numBuckets bktI
    match ← fsckWalk (fun thh => (hash.handles thh).hhNext) (fun thh => (hash.handles thh).hhPrev) tbl.numItems
      bucket.hhHead with
    | none => return none
    | some bktCount => return if bucket.count ≠ bktCount then none else some (count + bktCount)

def hashFsck (hash : UTHash κ) : Checked Bool :=
  match hash.head with
  | none => .ok true
  | some head => do
    let tbl ← hash.table
    let count ← (List.range tbl.numBuckets).foldlM (fsckBucket hash tbl) (some 0)
    if count ≠ some tbl.numItems then return false
    else
      let count ← fsckWalk (fun thh => (hash.handles thh).next) (fun thh => (hash.handles thh).prev) tbl.numItems
        (some head)
      return count = some tbl.numItems

inductive Request (κ : Type) where
  | add (key : κ) (elt : Nat)
  | find (key : κ)
  | delete (elt : Nat)
  | clear
  | count
  | iter
  | fsck
  /-- the caller uses the memory of an element for something else -/
  | reuse (elt : Nat) (handle : UTHashHandle κ)

inductive Answer where
  | done
  | added (expanded : Bool)
  | found (out : Option Nat)
  | number (count : Nat)
  | visited (elts : List Nat)
  | intact (ok : Bool)
  deriving Repr, DecidableEq

/-- The bucket of a key, with an element more. -/
def withOneMore (hashFcn : κ → UInt32) (tbl : UTHashTable) (key : κ) : UTHashBucket :=
  let head := tbl.buckets (hashToBkt (hashFcn key) tbl.numBuckets)
  { head with count := head.count + 1 }

/-- Whether an add under `key` expands the buckets; a new table has room. -/
def expands (hashFcn : κ → UInt32) (hash : UTHash κ) (key : κ) : Bool :=
  match hash.head, hash.tbl with
  | some _, some tbl => Crowded tbl (withOneMore hashFcn tbl key)
  | _, _ => false

def serve [DecidableEq κ] (hashFcn : κ → UInt32) (hash : UTHash κ) : Request κ → Checked (Answer × UTHash κ)
  | .add key elt => do return (.added (hash.expands hashFcn key), ← hash.hashAdd hashFcn key elt)
  | .find key => do return (.found (← hash.hashFind hashFcn key), hash)
  | .delete elt => do return (.done, ← hash.hashDelete elt)
  | .clear => .ok (.done, hash.hashClear)
  | .count => do return (.number (← hash.hashCnt), hash)
  | .iter => do return (.visited (← hash.hashIter), hash)
  | .fsck => do return (.intact (← hash.hashFsck), hash)
  | .reuse elt handle => .ok (.done, { hash with handles := Function.update hash.handles elt handle })

end UTHash

end IoTGateway
