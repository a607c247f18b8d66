import IoTGateway.Lib.Refinement
import IoTGateway.Proofs.HashTable

/-! What a hash table answers over a whole run. The header's own integrity check
is one of the requests, and it always passes. -/

namespace IoTGateway.UTHash

open LinkedLists

variable {κ : Type} {hashFcn : κ → UInt32}

section
variable {handles : Nat → UTHashHandle κ} {tbl : UTHashTable} {items : List (Nat × κ)} {chains : Nat → List Nat}

theorem Stored.search [DecidableEq κ] (stored : Stored hashFcn handles tbl items chains) (key : κ) {fuel : Nat}
    (enough : (chains (hashToBkt (hashFcn key) tbl.numBuckets)).length < fuel) :
    Loops.iterate (searchRound (fun out => (handles out).hhNext) fun out => (handles out).key = key) fuel
      (tbl.buckets (hashToBkt (hashFcn key) tbl.numBuckets)).hhHead =
        (.ok (some (tableStack handles tbl chains key).head?) : Checked _) := by
  have searched := @Links.search _ _ _ Fault (stored.chained.linked (hashToBkt (hashFcn key) tbl.numBuckets)).forward
    (fun out => (handles out).key = key) _ enough
  rw [stored.chained.head, searched, tableStack, stored.stackOf_elts, stackOf, List.head?_filter]

theorem Stored.find [DecidableEq κ] (stored : Stored hashFcn handles tbl items chains) (key : κ) :
    hashFind hashFcn { handles, head := (items.map Prod.fst).head?, tbl := some tbl } key =
      .ok (tableStack handles tbl chains key).head? := by
  obtain ⟨head, first⟩ := stored.head
  have inside := hashToBkt_lt (hashFcn key) stored.positive
  have searched := stored.search key (Nat.lt_succ_of_le (stored.length_le _))
  simp only [hashFind, first, table, ok_bind, bucketAt, if_pos inside, searched, pure_eq_ok]

theorem Stored.cnt (stored : Stored hashFcn handles tbl items chains) :
    hashCnt { handles, head := (items.map Prod.fst).head?, tbl := some tbl } = .ok items.length := by
  obtain ⟨head, first⟩ := stored.head
  simp only [hashCnt, first, table, ok_bind, pure_eq_ok, stored.number]

theorem iterate_iterRound {nodes : List Nat} (links : Links (fun elt => (handles elt).next) nodes none)
    (visited : List Nat) {fuel : Nat} (enough : nodes.length < fuel) :
    Loops.iterate (iterRound handles) fuel
      (nodes.head?, nodes.head?.bind fun head => (handles head).next, visited) = .ok (some (visited ++ nodes)) := by
  induction nodes generalizing visited fuel with
  | nil =>
    obtain ⟨fuel, rfl⟩ := Nat.exists_eq_add_one.mpr enough
    rw [List.append_nil]
    rfl
  | cons node rest ih =>
    obtain ⟨fuel, rfl⟩ : ∃ m, fuel = m + 1 := Nat.exists_eq_add_one.mpr (by omega)
    obtain ⟨points, links⟩ := links
    rw [Option.or_none] at points
    simp only [List.head?_cons, Option.bind_some, Loops.iterate, iterRound, points]
    rw [ih links (visited ++ [node]) (Nat.lt_of_succ_lt_succ enough), List.append_assoc, List.singleton_append]

theorem Stored.iter (stored : Stored hashFcn handles tbl items chains) :
    hashIter { handles, head := (items.map Prod.fst).head?, tbl := some tbl } = .ok (items.map Prod.fst) := by
  obtain ⟨head, first⟩ := stored.head
  have walked := iterate_iterRound stored.order.forward [] (by simp [stored.number] :
    (items.map Prod.fst).length < tbl.numItems + 1)
  rw [first, Option.bind_some, List.nil_append] at walked
  rw [stored.number] at walked
  rw [hashIter, stored.cnt, ok_bind]
  simp only [first, Option.bind_some, walked, ok_bind, pure_eq_ok]

private theorem iterate_fsckRound {next prev : Nat → Option Nat} {done rest : List Nat}
    (list : Doubly next prev (done ++ rest)) {fuel : Nat} (enough : rest.length < fuel) :
    Loops.iterate (fsckRound next prev) fuel (rest.head?, done.getLast?, done.length) =
      .ok (some (some (done ++ rest).length)) := by
  induction rest generalizing done fuel with
  | nil =>
    obtain ⟨fuel, rfl⟩ := Nat.exists_eq_add_one.mpr enough
    rw [List.append_nil]
    rfl
  | cons node rest ih =>
    obtain ⟨fuel, rfl⟩ : ∃ m, fuel = m + 1 := Nat.exists_eq_add_one.mpr (by omega)
    obtain ⟨following, preceding⟩ := list.around
    rw [← List.singleton_append, ← List.append_assoc] at list ⊢
    have later := ih list (Nat.lt_of_succ_lt_succ enough)
    rw [List.getLast?_concat, List.length_append, List.length_singleton] at later
    simp only [List.singleton_append, List.head?_cons, Loops.iterate, fsckRound, preceding, ne_eq, not_true, ite_false,
      following, later]

theorem fsckWalk_ok {next prev : Nat → Option Nat} {nodes : List Nat} (list : Doubly next prev nodes) {numItems : Nat}
    (room : nodes.length ≤ numItems) : fsckWalk next prev numItems nodes.head? = .ok (some nodes.length) := by
  have walked := iterate_fsckRound (by simpa using list : Doubly next prev ([] ++ nodes)) (Nat.lt_succ_of_le room)
  rw [List.getLast?_nil, List.length_nil, List.nil_append] at walked
  rw [fsckWalk, walked]
  rfl

theorem Stored.fsckBuckets (stored : Stored hashFcn handles tbl items chains) (head : Option Nat) {bkts : List Nat}
    (inside : ∀ bkt ∈ bkts, bkt < tbl.numBuckets) (count : Nat) :
    bkts.foldlM (fsckBucket { handles, head, tbl := some tbl } tbl) (some count) =
      .ok (some (count + (bkts.flatMap chains).length)) := by
  induction bkts generalizing count with
  | nil => rfl
  | cons bkt bkts ih =>
    have checked : fsckBucket { handles, head, tbl := some tbl } tbl (some count) bkt =
        .ok (some (count + (chains bkt).length)) := by
      simp only [fsckBucket, bucketAt, if_pos (inside bkt List.mem_cons_self), ok_bind, stored.chained.head,
        fsckWalk_ok (stored.chained.linked bkt) (stored.length_le bkt), stored.chained.count, ne_eq, not_true, ite_false,
        pure_eq_ok]
    rw [List.foldlM_cons, checked, ok_bind, ih (fun other member => inside other (.tail _ member)), List.flatMap_cons,
      List.length_append, Nat.add_assoc]

theorem Stored.fsck (stored : Stored hashFcn handles tbl items chains) :
    hashFsck { handles, head := (items.map Prod.fst).head?, tbl := some tbl } = .ok true := by
  obtain ⟨head, first⟩ := stored.head
  have buckets := stored.fsckBuckets (items.map Prod.fst).head? (fun bkt member => List.mem_range.mp member :
    ∀ bkt ∈ List.range tbl.numBuckets, bkt < tbl.numBuckets) 0
  have total : (0 + ((List.range tbl.numBuckets).flatMap chains).length) = tbl.numItems := by
    have sizes := stored.members.length_eq
    rwa [List.length_map, ← stored.number, chainedElts, ← Nat.zero_add (List.length _)] at sizes
  have walked := fsckWalk_ok stored.order (Nat.le_of_eq (by rw [List.length_map, stored.number]) :
    (items.map Prod.fst).length ≤ tbl.numItems)
  rw [total, first] at buckets
  rw [List.length_map, ← stored.number, first] at walked
  simp only [hashFsck, first, table, ok_bind, buckets, walked, ne_eq, not_true, ite_false, pure_eq_ok, decide_true]

end

/-- What a caller owes the table: an element is added once, and deleted or used
for something else only while it is in the table, or is not. -/
def Request.Fits (elts : List Nat) : Request κ → Prop
  | .add _ elt => elt ∉ elts
  | .delete elt => elt ∈ elts
  | .reuse elt _ => elt ∉ elts
  | _ => True

def Request.change (elts : List Nat) : Request κ → List Nat
  | .add _ elt => elts ++ [elt]
  | .delete elt => elts.filter (· ≠ elt)
  | .clear => []
  | _ => elts

/-- Requests that fit one after the other, and the elements in the table after them. -/
inductive Proper : List (Request κ) → List Nat → Prop where
  | start : Proper [] []
  | step {requests elts} {request : Request κ} (earlier : Proper requests elts) (fits : request.Fits elts) :
      Proper (requests ++ [request]) (request.change elts)

inductive Allows [DecidableEq κ] (catalogue : Catalogue κ) : Request κ → Answer → Catalogue κ → Prop where
  | added {key elt expanded} {after : Catalogue κ} (items : after.items = catalogue.items ++ [(elt, key)])
      (stack : after.stack = turned expanded (pushed catalogue.stack key elt)) :
      Allows catalogue (.add key elt) (.added expanded) after
  | found (key) : Allows catalogue (.find key) (.found (catalogue.stack key).head?) catalogue
  | deleted {elt} {after : Catalogue κ} (items : after.items = catalogue.items.filter (·.1 ≠ elt))
      (stack : after.stack = fun key => (catalogue.stack key).filter (· ≠ elt)) :
      Allows catalogue (.delete elt) .done after
  | cleared : Allows catalogue .clear .done .empty
  | counted : Allows catalogue .count (.number catalogue.items.length) catalogue
  | visited : Allows catalogue .iter (.visited catalogue.elts) catalogue
  | intact : Allows catalogue .fsck (.intact true) catalogue
  | reused (elt handle) : Allows catalogue (.reuse elt handle) .done catalogue

variable [DecidableEq κ]

theorem Allows.elts {catalogue after : Catalogue κ} {request : Request κ} {answer : Answer}
    (allowed : Allows catalogue request answer after) : after.elts = request.change catalogue.elts := by
  cases allowed with
  | added items => simp [Catalogue.elts, items, Request.change]
  | deleted items => simp [Catalogue.elts, items, Request.change, List.filter_map, Function.comp_def]
  | _ => rfl

theorem Represents.add {hash : UTHash κ} {catalogue : Catalogue κ} (represents : Represents hashFcn hash catalogue)
    (key : κ) {elt : Nat} (fresh : elt ∉ catalogue.elts) : ∃ next after, hashAdd hashFcn hash key elt = .ok next ∧
      Represents hashFcn next after ∧ after.items = catalogue.items ++ [(elt, key)] ∧
      after.stack = turned (hash.expands hashFcn key) (pushed catalogue.stack key elt) := by
  cases represents with
  | empty handles => exact hashAdd_empty handles key elt
  | table stored =>
    obtain ⟨head, first⟩ := stored.head
    have added := stored.add key fresh
    rwa [first] at added ⊢

theorem Represents.find {hash : UTHash κ} {catalogue : Catalogue κ} (represents : Represents hashFcn hash catalogue)
    (key : κ) : hashFind hashFcn hash key = .ok (catalogue.stack key).head? := by
  cases represents with
  | empty handles => rfl
  | table stored => exact stored.find key

/-- One request: it is answered without a fault, and as the specification allows. -/
theorem serve_allowed {hash : UTHash κ} {catalogue : Catalogue κ} (represents : Represents hashFcn hash catalogue)
    {request : Request κ} (fits : request.Fits catalogue.elts) : ∃ answer next after,
      serve hashFcn hash request = .ok (answer, next) ∧ Allows catalogue request answer after ∧
      Represents hashFcn next after := by
  cases request with
  | add key elt =>
    obtain ⟨next, after, added, represents, items, stack⟩ := represents.add key fits
    exact ⟨_, next, _, by rw [serve, added]; rfl, .added items stack, represents⟩
  | find key => exact ⟨_, _, _, by rw [serve, represents.find]; rfl, .found key, represents⟩
  | delete elt =>
    cases represents with
    | empty handles => exact absurd fits List.not_mem_nil
    | table stored =>
      obtain ⟨next, after, deleted, represents, items, stack⟩ := stored.delete_any fits
      exact ⟨_, next, _, by rw [serve, deleted]; rfl, .deleted items stack, represents⟩
  | clear => exact ⟨_, _, _, rfl, .cleared, .empty _⟩
  | count =>
    cases represents with
    | empty handles => exact ⟨_, _, _, rfl, .counted, .empty handles⟩
    | table stored => exact ⟨_, _, _, by rw [serve, stored.cnt]; rfl, .counted, .table stored⟩
  | iter =>
    cases represents with
    | empty handles => exact ⟨_, _, _, rfl, .visited, .empty handles⟩
    | table stored => exact ⟨_, _, _, by rw [serve, stored.iter]; rfl, .visited, .table stored⟩
  | fsck =>
    cases represents with
    | empty handles => exact ⟨_, _, _, rfl, .intact, .empty handles⟩
    | table stored => exact ⟨_, _, _, by rw [serve, stored.fsck]; rfl, .intact, .table stored⟩
  | reuse elt handle =>
    cases represents with
    | empty handles => exact ⟨_, _, _, rfl, .reused elt handle, .empty _⟩
    | table stored =>
      obtain ⟨kept, same⟩ := stored.reuse fits handle
      have unchanged : kept.catalogue = stored.catalogue := by simp only [Stored.catalogue, same]
      exact ⟨_, _, _, rfl, .reused elt handle, unchanged ▸ .table kept⟩

/-- Over every run of requests that fit, whatever the hash function: no request
faults, and the answers are those of a list with a stack for every key. -/
theorem hash_refines (hashFcn : κ → UInt32) (handles : Nat → UTHashHandle κ) {requests : List (Request κ)}
    {elts : List Nat} (proper : Proper requests elts) : ∃ history hash catalogue,
      Histories.Run (serve hashFcn) { handles } history hash ∧ history.map Prod.fst = requests ∧
      Refinements.Trace Allows .empty history catalogue ∧ Represents hashFcn hash catalogue ∧ catalogue.elts = elts := by
  induction proper with
  | start => exact ⟨[], _, _, .start, rfl, .start, .empty handles, rfl⟩
  | @step requests elts request earlier fits ih =>
    obtain ⟨history, hash, catalogue, run, same, trace, represents, rfl⟩ := ih
    obtain ⟨answer, next, after, served, allowed, represents⟩ := serve_allowed represents fits
    exact ⟨_, next, after, run.step served, by simp [same], trace.step allowed, represents, allowed.elts⟩

/-- Two elements under one key, and the walk over both. -/
theorem hash_refines_same_key : ∃ history hash catalogue,
    Histories.Run (serve fun _ => 7) { handles := fun _ => ⟨none, none, none, none, true, 0⟩ } history hash ∧
      history.map Prod.fst = [.add true 1, .add true 2, .find true, .iter] ∧
      Refinements.Trace Allows .empty history catalogue ∧ Represents (fun _ => 7) hash catalogue ∧
      catalogue.elts = [1, 2] := by
  have first : Proper [.add true 1] [1] := Proper.step .start (List.not_mem_nil : Request.Fits [] (.add true 1))
  have second : Proper [.add true 1, .add true 2] [1, 2] :=
    Proper.step first (by decide : (2 : Nat) ∉ [1])
  have third : Proper [.add true 1, .add true 2, .find true] [1, 2] :=
    Proper.step second (trivial : Request.Fits [1, 2] (.find true))
  exact hash_refines _ _ (Proper.step third (trivial : Request.Fits [1, 2] .iter))

end IoTGateway.UTHash
