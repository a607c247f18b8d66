import Mathlib.Algebra.Group.Nat.Defs
import Mathlib.Data.List.Perm.Subperm
import IoTGateway.Lib.Refinement
import IoTGateway.Proofs.HashChains

/-! The hash table over whole runs: whatever the hash function, it is the list of
its elements in the order of their additions, with a stack of elements for every
key. Elements with one key are rare but allowed, and the top of the stack answers. -/

namespace IoTGateway.UTHash

open LinkedLists

variable {κ : Type}

/-- What a table stands for. -/
structure Catalogue (κ : Type) where
  items : List (Nat × κ)
  stack : κ → List Nat
  mem_stack : ∀ key elt, elt ∈ stack key ↔ (elt, key) ∈ items

def Catalogue.empty : Catalogue κ where
  items := []
  stack := fun _ => []
  mem_stack := by simp

def Catalogue.elts (catalogue : Catalogue κ) : List Nat := catalogue.items.map Prod.fst

/-- The elements with a key, in the order of `elts`. -/
def stackOf [DecidableEq κ] (handles : Nat → UTHashHandle κ) (elts : List Nat) (key : κ) : List Nat :=
  elts.filter fun elt => (handles elt).key = key

section
variable {handles : Nat → UTHashHandle κ} {buckets : Nat → UTHashBucket} {numBuckets : Nat} {chains : Nat → List Nat}

theorem Chained.mem_elts (chained : Chained handles buckets numBuckets chains) (positive : 0 < numBuckets) {elt : Nat} :
    elt ∈ chainedElts numBuckets chains ↔ elt ∈ chains (place handles numBuckets elt) := by
  simp only [chainedElts, List.mem_flatMap, List.mem_range]
  constructor
  · intro found
    obtain ⟨bkt, _, member⟩ := found
    rwa [chained.placed bkt elt member]
  · exact fun member => ⟨_, hashToBkt_lt _ positive, member⟩

theorem Chained.mem (chained : Chained handles buckets numBuckets chains) (positive : 0 < numBuckets) {bkt elt : Nat}
    (member : elt ∈ chains bkt) : elt ∈ chainedElts numBuckets chains := by
  rw [chained.mem_elts positive, chained.placed bkt elt member]
  exact member

theorem Chained.length_le (chained : Chained handles buckets numBuckets chains) (positive : 0 < numBuckets)
    (bkt : Nat) :
    (chains bkt).length ≤ (chainedElts numBuckets chains).length :=
  ((chained.nodup bkt).subperm fun _ member => chained.mem positive member).length_le

theorem flatMap_range_single {f : Nat → List Nat} {n only : Nat} (inside : only < n)
    (others : ∀ i, i ≠ only → f i = []) : (List.range n).flatMap f = f only := by
  obtain ⟨front, back, split⟩ := List.append_of_mem (List.mem_range.mpr inside)
  have distinct := @List.nodup_range n
  rw [split] at distinct ⊢
  have parts := List.nodup_append.mp distinct
  have ahead : front.flatMap f = [] := List.flatMap_eq_nil_iff.mpr fun i member =>
    others i (parts.2.2 i member only List.mem_cons_self)
  have behind : back.flatMap f = [] := List.flatMap_eq_nil_iff.mpr fun i member => by
    apply others
    rintro rfl
    exact (List.nodup_cons.mp parts.2.1).1 member
  rw [List.flatMap_append, List.flatMap_cons, ahead, behind, List.nil_append, List.append_nil]

/-- All elements with a key are in the bucket of its hash. -/
theorem Chained.stackOf_elts [DecidableEq κ] {hashFcn : κ → UInt32}
    (chained : Chained handles buckets numBuckets chains) (positive : 0 < numBuckets)
    (hashed : ∀ elt ∈ chainedElts numBuckets chains, (handles elt).hashv = hashFcn (handles elt).key) (key : κ) :
    stackOf handles (chainedElts numBuckets chains) key =
      stackOf handles (chains (hashToBkt (hashFcn key) numBuckets)) key := by
  rw [stackOf, chainedElts, List.filter_flatMap]
  refine flatMap_range_single (hashToBkt_lt _ positive) ?_
  intro bkt other
  rw [List.filter_eq_nil_iff]
  intro elt member same
  rw [decide_eq_true_eq] at same
  have home := chained.placed bkt elt member
  rw [place, hashed elt (chained.mem positive member), same] at home
  exact other home.symm

theorem chainedElts_perm {larger : Nat → List Nat} {bkt elt : Nat} (inside : bkt < numBuckets)
    (own : (larger bkt).Perm (elt :: chains bkt)) (others : ∀ other, other ≠ bkt → larger other = chains other) :
    (chainedElts numBuckets larger).Perm (elt :: chainedElts numBuckets chains) := by
  obtain ⟨front, back, split⟩ := List.append_of_mem (List.mem_range.mpr inside)
  have distinct := @List.nodup_range numBuckets
  rw [split] at distinct
  have parts := List.nodup_append.mp distinct
  have ahead : front.flatMap larger = front.flatMap chains := by
    apply List.flatMap_congr
    exact fun other member => others other (parts.2.2 other member bkt List.mem_cons_self)
  have behind : back.flatMap larger = back.flatMap chains := by
    apply List.flatMap_congr
    intro other member
    apply others
    rintro rfl
    exact (List.nodup_cons.mp parts.2.1).1 member
  simp only [chainedElts, split, List.flatMap_append, List.flatMap_cons, ahead, behind]
  refine List.Perm.trans ?_ List.perm_middle
  rw [← List.cons_append]
  exact (own.append_right _).append_left _

end

variable {hashFcn : κ → UInt32} {handles after : Nat → UTHashHandle κ} {tbl : UTHashTable} {items : List (Nat × κ)}
  {chains : Nat → List Nat}

structure Listed (hashFcn : κ → UInt32) (handles : Nat → UTHashHandle κ) (tbl : UTHashTable) (items : List (Nat × κ)) :
    Prop where
  powers : tbl.numBuckets = 2 ^ tbl.log2NumBuckets
  order : Doubly (fun elt => (handles elt).next) (fun elt => (handles elt).prev) (items.map Prod.fst)
  distinct : (items.map Prod.fst).Nodup
  tail : (items.map Prod.fst).getLast? = some tbl.tail
  number : tbl.numItems = items.length
  keyed : ∀ item ∈ items, (handles item.1).key = item.2 ∧ (handles item.1).hashv = hashFcn item.2

structure Stored (hashFcn : κ → UInt32) (handles : Nat → UTHashHandle κ) (tbl : UTHashTable) (items : List (Nat × κ))
    (chains : Nat → List Nat) : Prop extends Listed hashFcn handles tbl items where
  chained : Chained handles tbl.buckets tbl.numBuckets chains
  members : (chainedElts tbl.numBuckets chains).Perm (items.map Prod.fst)

theorem Listed.positive (listed : Listed hashFcn handles tbl items) : 0 < tbl.numBuckets := by
  rw [listed.powers]
  exact Nat.two_pow_pos _

theorem Listed.hashed (listed : Listed hashFcn handles tbl items) {elt : Nat} (member : elt ∈ items.map Prod.fst) :
    (handles elt).hashv = hashFcn (handles elt).key := by
  obtain ⟨item, found, rfl⟩ := List.mem_map.mp member
  rw [(listed.keyed item found).1, (listed.keyed item found).2]

theorem Listed.congr {grown : UTHashTable} (listed : Listed hashFcn handles tbl items)
    (same : ∀ elt ∈ items.map Prod.fst, SameOutside handles after elt)
    (powers : grown.numBuckets = 2 ^ grown.log2NumBuckets) (tail : grown.tail = tbl.tail)
    (number : grown.numItems = tbl.numItems) : Listed hashFcn after grown items where
  powers := powers
  order := listed.order.congr (fun elt member => (same elt member).next) fun elt member => (same elt member).prev
  distinct := listed.distinct
  tail := tail ▸ listed.tail
  number := number ▸ listed.number
  keyed := by
    intro item member
    have kept := same item.1 (List.mem_map_of_mem member)
    exact ⟨kept.key.trans (listed.keyed item member).1, kept.hashv.trans (listed.keyed item member).2⟩

theorem Stored.length_le (stored : Stored hashFcn handles tbl items chains) (bkt : Nat) :
    (chains bkt).length ≤ tbl.numItems := by
  rw [stored.number]
  simpa [stored.members.length_eq] using stored.chained.length_le stored.positive bkt

theorem Stored.stackOf_elts [DecidableEq κ] (stored : Stored hashFcn handles tbl items chains) (key : κ) :
    stackOf handles (chainedElts tbl.numBuckets chains) key =
      stackOf handles (chains (hashToBkt (hashFcn key) tbl.numBuckets)) key :=
  stored.chained.stackOf_elts stored.positive (fun _ member => stored.hashed (stored.members.subset member)) key

private theorem stackOf_congr [DecidableEq κ] (same : ∀ elt, SameOutside handles after elt) (elts : List Nat)
    (key : κ) :
    stackOf after elts key = stackOf handles elts key := by
  simp only [stackOf, (same _).key]

theorem Stored.expand [DecidableEq κ] (stored : Stored hashFcn handles tbl items chains) :
    ∃ after grown larger, hashExpandBuckets handles tbl = .ok (after, grown) ∧
      Stored hashFcn after grown items larger ∧ ∀ key, stackOf after (chainedElts grown.numBuckets larger) key =
        (stackOf handles (chainedElts tbl.numBuckets chains) key).reverse := by
  obtain ⟨after, grown, expanded, twice, log2, number, tail, chained, same⟩ :=
    hashExpandBuckets_ok stored.chained stored.positive stored.length_le
  have listed : Listed hashFcn after grown items := by
    refine stored.toListed.congr (fun elt _ => same elt) ?_ tail number
    rw [twice, log2, stored.powers, Nat.pow_succ]
  have members : (chainedElts (tbl.numBuckets * 2) (pile (place handles (tbl.numBuckets * 2))
      (chainedElts tbl.numBuckets chains))).Perm (chainedElts tbl.numBuckets chains) := by
    refine (List.perm_ext_iff_of_nodup chained.nodup_elts stored.chained.nodup_elts).mpr ?_
    intro elt
    rw [chained.mem_elts (by have := stored.positive; omega)]
    have still : place after (tbl.numBuckets * 2) elt = place handles (tbl.numBuckets * 2) elt := by
      rw [place, place, (same elt).hashv]
    simp [pile, still]
  rw [← twice] at chained members
  have larger : Stored hashFcn after grown items _ := ⟨listed, chained, members.trans stored.members⟩
  refine ⟨after, grown, _, expanded, larger, ?_⟩
  intro key
  rw [larger.stackOf_elts, stackOf_congr same]
  simp only [stackOf, pile, List.filter_reverse, List.filter_filter]
  congr 1
  apply List.filter_congr
  intro elt member
  by_cases own : (handles elt).key = key
  · have hashed := stored.hashed (stored.members.subset member)
    simp [own, place, hashed, twice]
  · simp [own]

def pushed [DecidableEq κ] (stack : κ → List Nat) (key : κ) (elt : Nat) : κ → List Nat :=
  Function.update stack key (elt :: stack key)

/-- An expansion of the buckets turns every stack over. -/
def turned (expanded : Bool) (stack : κ → List Nat) : κ → List Nat :=
  if expanded then fun key => (stack key).reverse else stack

def tableStack [DecidableEq κ] (handles : Nat → UTHashHandle κ) (tbl : UTHashTable) (chains : Nat → List Nat) :
    κ → List Nat := stackOf handles (chainedElts tbl.numBuckets chains)

/-- An element that is listed and in no bucket yet. -/
structure Joining (hashFcn : κ → UInt32) (handles : Nat → UTHashHandle κ) (tbl : UTHashTable) (items : List (Nat × κ))
    (chains : Nat → List Nat) (elt : Nat) (key : κ) : Prop where
  listed : Listed hashFcn handles tbl (items ++ [(elt, key)])
  chained : Chained handles tbl.buckets tbl.numBuckets chains
  members : (chainedElts tbl.numBuckets chains).Perm (items.map Prod.fst)

def linkedTable (tbl : UTHashTable) (bkt addhh : Nat) : UTHashTable :=
  { tbl with
    buckets := Function.update tbl.buckets bkt
      { tbl.buckets bkt with count := (tbl.buckets bkt).count + 1, hhHead := some addhh } }

section
variable {elt bkt : Nat} {key : κ}

theorem Joining.fresh (joining : Joining hashFcn handles tbl items chains elt key) :
    elt ∉ chainedElts tbl.numBuckets chains := by
  have distinct : (items.map Prod.fst ++ [elt]).Nodup := by simpa using joining.listed.distinct
  intro member
  exact (List.nodup_append.mp distinct).2.2 elt (joining.members.subset member) elt (List.mem_singleton_self _) rfl

theorem Joining.keyed (joining : Joining hashFcn handles tbl items chains elt key) :
    (handles elt).key = key ∧ (handles elt).hashv = hashFcn key :=
  joining.listed.keyed (elt, key) (by simp)

theorem Joining.stored (joining : Joining hashFcn handles tbl items chains elt key)
    (home : hashToBkt (hashFcn key) tbl.numBuckets = bkt) :
    Stored hashFcn (linkFirst handles (tbl.buckets bkt).hhHead elt) (linkedTable tbl bkt elt) (items ++ [(elt, key)])
      (Function.update chains bkt (elt :: chains bkt)) := by
  have placed : place handles tbl.numBuckets elt = bkt := by rw [place, joining.keyed.2, home]
  have unchained := joining.fresh
  obtain ⟨listed, chained, members⟩ := joining
  have inside : bkt < tbl.numBuckets := home ▸ hashToBkt_lt _ listed.positive
  have absent : elt ∉ chains bkt := fun member => unchained (chained.mem listed.positive member)
  have same := sameOutside_linkFirst handles (tbl.buckets bkt).hhHead elt
  refine ⟨listed.congr (fun elt _ => same elt) listed.powers rfl rfl,
    chained.push placed absent (tbl.buckets bkt).expandMult, ?_⟩
  have grown := chainedElts_perm inside (by rw [Function.update_self] :
    (Function.update chains bkt (elt :: chains bkt) bkt).Perm (elt :: chains bkt))
    fun other different => Function.update_of_ne different _ _
  refine grown.trans ?_
  rw [List.map_append]
  exact (members.cons elt).trans (List.perm_append_singleton elt _).symm

theorem Joining.stack [DecidableEq κ] (joining : Joining hashFcn handles tbl items chains elt key)
    (home : hashToBkt (hashFcn key) tbl.numBuckets = bkt) :
    tableStack (linkFirst handles (tbl.buckets bkt).hhHead elt) (linkedTable tbl bkt elt)
      (Function.update chains bkt (elt :: chains bkt)) = pushed (tableStack handles tbl chains) key elt := by
  have stored := joining.stored home
  have own := joining.keyed.1
  have before (other : κ) : tableStack handles tbl chains other =
      stackOf handles (chains (hashToBkt (hashFcn other) tbl.numBuckets)) other := by
    refine joining.chained.stackOf_elts joining.listed.positive ?_ other
    intro node member
    exact joining.listed.hashed (by simpa using Or.inl (List.mem_map.mp (joining.members.subset member)))
  funext other
  rw [tableStack, stored.stackOf_elts, stackOf_congr (sameOutside_linkFirst handles _ elt), pushed, linkedTable]
  by_cases asked : other = key
  · subst asked
    rw [Function.update_self, before, home, Function.update_self]
    simp [stackOf, own]
  · rw [Function.update_of_ne asked, before]
    by_cases collides : hashToBkt (hashFcn other) tbl.numBuckets = bkt
    · rw [collides, Function.update_self]
      simp [stackOf, own, Ne.symm asked]
    · rw [Function.update_of_ne collides]

theorem hashAddToBkt_ok [DecidableEq κ] (joining : Joining hashFcn handles tbl items chains elt key) :
    ∃ after grown larger, hashAddToBkt handles tbl (hashToBkt (hashFcn key) tbl.numBuckets) elt = .ok (after, grown) ∧
      Stored hashFcn after grown (items ++ [(elt, key)]) larger ∧ tableStack after grown larger =
        turned (Crowded tbl (withOneMore hashFcn tbl key)) (pushed (tableStack handles tbl chains) key elt) := by
  rw [withOneMore]
  generalize home : hashToBkt (hashFcn key) tbl.numBuckets = bkt
  have inside : bkt < tbl.numBuckets := home ▸ hashToBkt_lt _ joining.listed.positive
  have stored := joining.stored home
  rw [← joining.stack home]
  simp only [hashAddToBkt, bucketAt, if_pos inside, ok_bind, pure_eq_ok]
  split
  next full =>
    obtain ⟨after, grown, larger, expanded, kept, flipped⟩ := stored.expand
    refine ⟨after, grown, larger, expanded, kept, ?_⟩
    rw [turned, if_pos (decide_eq_true full)]
    funext other
    exact flipped other
  next within => exact ⟨_, _, _, rfl, stored, by rw [turned, if_neg (by simpa using within)]; rfl⟩

end

theorem Stored.mem_stack [DecidableEq κ] (stored : Stored hashFcn handles tbl items chains) (key : κ) (elt : Nat) :
    elt ∈ tableStack handles tbl chains key ↔ (elt, key) ∈ items := by
  rw [tableStack, stackOf, List.mem_filter, decide_eq_true_eq, stored.members.mem_iff, List.mem_map]
  constructor
  · rintro ⟨⟨item, member, rfl⟩, rfl⟩
    rw [(stored.keyed item member).1]
    exact member
  · exact fun member => ⟨⟨_, member, rfl⟩, (stored.keyed _ member).1⟩

def Stored.catalogue [DecidableEq κ] (stored : Stored hashFcn handles tbl items chains) : Catalogue κ where
  items
  stack := tableStack handles tbl chains
  mem_stack := stored.mem_stack

inductive Represents [DecidableEq κ] (hashFcn : κ → UInt32) : UTHash κ → Catalogue κ → Prop where
  | empty (handles : Nat → UTHashHandle κ) : Represents hashFcn { handles } .empty
  | table {handles : Nat → UTHashHandle κ} {tbl : UTHashTable} {items : List (Nat × κ)} {chains : Nat → List Nat}
      (stored : Stored hashFcn handles tbl items chains) :
      Represents hashFcn { handles, head := (items.map Prod.fst).head?, tbl := some tbl } stored.catalogue

theorem Stored.head (stored : Stored hashFcn handles tbl items chains) :
    ∃ head, (items.map Prod.fst).head? = some head := by
  cases items with
  | nil => exact absurd stored.tail (by simp)
  | cons item rest => exact ⟨item.1, rfl⟩

theorem hashAdd_empty [DecidableEq κ] (handles : Nat → UTHashHandle κ) (key : κ) (elt : Nat) :
    ∃ next after, hashAdd hashFcn { handles } key elt = .ok next ∧ Represents hashFcn next after ∧
      after.items = [(elt, key)] ∧ after.stack = pushed (fun _ => []) key elt := by
  generalize linked : assign (assign (assign handles elt fun hh => { hh with next := none, key }) elt fun hh =>
    { hh with prev := none }) elt (fun hh => { hh with hashv := hashFcn key }) = start
  have own : start elt = { handles elt with next := none, prev := none, key, hashv := hashFcn key } := by
    simp [← linked, assign_apply]
  have listed : Listed hashFcn start { hashMakeTable elt with numItems := 1 } ([] ++ [(elt, key)]) := by
    refine ⟨rfl, ⟨⟨?_, trivial⟩, ⟨?_, trivial⟩⟩, List.nodup_singleton elt, rfl, rfl, by simp [own]⟩
    · simp [own]
    · simp [own]
  have nothing : chainedElts hashInitialNumBuckets (fun _ => []) = [] := by simp [chainedElts]
  obtain ⟨after, grown, larger, done, stored, flipped⟩ := hashAddToBkt_ok ⟨listed, .empty start _, by
    rw [hashMakeTable, nothing]
    exact .nil⟩
  have room : ¬ Crowded { hashMakeTable elt with numItems := 1 }
      (withOneMore hashFcn { hashMakeTable elt with numItems := 1 } key) := by
    intro full
    have one : 1 ≥ (0 + 1) * hashBktCapacityThresh := full.1
    exact absurd one (by decide)
  have before : tableStack start { hashMakeTable elt with numItems := 1 } (fun _ => []) = fun _ => [] := by
    funext other
    rw [tableStack, hashMakeTable, nothing]
    rfl
  rw [turned, if_neg (by simpa using room), before] at flipped
  refine ⟨_, _, ?_, .table stored, rfl, flipped⟩
  simp only [hashAdd, ok_bind, linked, hashMakeTable] at done ⊢
  rw [done]
  rfl

/-- The handles once an element is behind the tail, in the order of additions. -/
def enlisted (hashFcn : κ → UInt32) (handles : Nat → UTHashHandle κ) (tail : Nat) (key : κ) (elt : Nat) :
    Nat → UTHashHandle κ :=
  assign (assign (assign (assign handles elt fun hh => { hh with next := none, key }) tail
    fun hh => { hh with next := some elt }) elt fun hh => { hh with prev := some tail }) elt
    fun hh => { hh with hashv := hashFcn key }

section
variable {elt tail : Nat} {key : κ}

private theorem enlisted_own (different : elt ≠ tail) : enlisted hashFcn handles tail key elt elt =
    { handles elt with next := none, prev := some tail, key, hashv := hashFcn key } := by
  simp [enlisted, assign_apply, different]

theorem enlisted_other {other : Nat} (foreign : other ≠ elt) : enlisted hashFcn handles tail key elt other =
    if other = tail then { handles other with next := some elt } else handles other := by
  simp [enlisted, assign_apply, foreign]

private theorem enlisted_same {other : Nat} (foreign : other ≠ elt) :
    (enlisted hashFcn handles tail key elt other).hhNext = (handles other).hhNext ∧
      (enlisted hashFcn handles tail key elt other).hhPrev = (handles other).hhPrev ∧
      (enlisted hashFcn handles tail key elt other).hashv = (handles other).hashv ∧
      (enlisted hashFcn handles tail key elt other).key = (handles other).key := by
  rw [enlisted_other foreign]
  split <;> exact ⟨rfl, rfl, rfl, rfl⟩

theorem Listed.enlist (listed : Listed hashFcn handles tbl items) (fresh : elt ∉ items.map Prod.fst) :
    Listed hashFcn (enlisted hashFcn handles tbl.tail key elt)
      { tbl with tail := elt, numItems := tbl.numItems + 1 } (items ++ [(elt, key)]) := by
  have foreign (other : Nat) (old : other ∈ items.map Prod.fst) : other ≠ elt := fun same => fresh (same ▸ old)
  have own := @enlisted_own _ hashFcn handles _ _ key (foreign _ (List.mem_of_getLast? listed.tail)).symm
  refine ⟨listed.powers, ?_, by simpa using listed.distinct.concat fresh, by simp, by simp [listed.number], ?_⟩
  · rw [List.map_append]
    refine listed.order.append listed.distinct ?_ ?_ ?_ ?_ ?_
    · simp only [own]
    · simp only [own, listed.tail]
    · intro last found
      rw [listed.tail, Option.some.injEq] at found
      subst found
      rw [enlisted_other (foreign _ (List.mem_of_getLast? listed.tail)), if_pos rfl]
    · intro other old later
      rw [listed.tail, ne_eq, Option.some.injEq] at later
      simp only [enlisted_other (foreign other old), if_neg (Ne.symm later)]
    · intro other old
      rw [enlisted_other (foreign other old)]
      split <;> rfl
  · intro item member
    rcases List.mem_append.mp member with old | new
    · obtain ⟨_, _, hashv, same⟩ := @enlisted_same _ hashFcn handles _ tbl.tail key _
        (foreign item.1 (List.mem_map_of_mem old))
      rw [hashv, same]
      exact listed.keyed item old
    · rw [List.mem_singleton.mp new, own]
      exact ⟨rfl, rfl⟩

end

theorem Stored.add [DecidableEq κ] (stored : Stored hashFcn handles tbl items chains) (key : κ) {elt : Nat}
    (fresh : elt ∉ items.map Prod.fst) : ∃ next after,
      hashAdd hashFcn { handles, head := (items.map Prod.fst).head?, tbl := some tbl } key elt = .ok next ∧
      Represents hashFcn next after ∧ after.items = items ++ [(elt, key)] ∧
      after.stack = turned (Crowded tbl (withOneMore hashFcn tbl key)) (pushed (tableStack handles tbl chains) key elt) := by
  obtain ⟨head, first⟩ := stored.head
  have still (other : Nat) (old : other ∈ items.map Prod.fst) :=
    @enlisted_same _ hashFcn handles elt tbl.tail key other fun same => fresh (same ▸ old)
  have chained : Chained (enlisted hashFcn handles tbl.tail key elt) tbl.buckets tbl.numBuckets chains := by
    refine stored.chained.congr ?_
    intro bkt other member
    obtain ⟨next, prev, hashv, _⟩ := still other (stored.members.subset (stored.chained.mem stored.positive member))
    exact ⟨next, prev, hashv⟩
  have listed := @Listed.enlist _ _ _ _ _ elt key stored.toListed fresh
  obtain ⟨after, grown, larger, done, kept, flipped⟩ := hashAddToBkt_ok ⟨listed, chained, stored.members⟩
  have before : tableStack (enlisted hashFcn handles tbl.tail key elt)
      { tbl with tail := elt, numItems := tbl.numItems + 1 } chains = tableStack handles tbl chains := by
    funext other
    apply List.filter_congr
    intro node member
    rw [(still node (stored.members.subset member)).2.2.2]
  rw [before] at flipped
  have whole : ((items ++ [(elt, key)]).map Prod.fst).head? = some head := by
    rw [List.map_append, List.head?_append, first, Option.some_or]
  refine ⟨_, _, ?_, .table kept, rfl, flipped⟩
  rw [enlisted] at done
  simp only [hashAdd, first, table, ok_bind, pure_eq_ok, done, whole]

/-- The handles after the patch-up of the order of additions. -/
def unlisted (handles : Nat → UTHashHandle κ) (delptr : Nat) : Nat → UTHashHandle κ :=
  assignTo (assignTo handles (handles delptr).prev fun hh => { hh with next := (handles delptr).next })
    (handles delptr).next fun hh => { hh with prev := (handles delptr).prev }

private theorem unlisted_next (handles : Nat → UTHashHandle κ) (delptr elt : Nat) : (unlisted handles delptr elt).next =
    if (handles delptr).prev = some elt then (handles delptr).next else (handles elt).next := by
  simp only [unlisted, assignTo_apply]
  split <;> split <;> rfl

private theorem unlisted_prev (handles : Nat → UTHashHandle κ) (delptr elt : Nat) : (unlisted handles delptr elt).prev =
    if (handles delptr).next = some elt then (handles delptr).prev else (handles elt).prev := by
  simp only [unlisted, assignTo_apply]
  split <;> split <;> rfl

theorem unlisted_same (handles : Nat → UTHashHandle κ) (delptr elt : Nat) :
    (unlisted handles delptr elt).hhNext = (handles elt).hhNext ∧
      (unlisted handles delptr elt).hhPrev = (handles elt).hhPrev ∧
      (unlisted handles delptr elt).hashv = (handles elt).hashv ∧
      (unlisted handles delptr elt).key = (handles elt).key := by
  simp only [unlisted, assignTo_apply]
  split <;> split <;> exact ⟨rfl, rfl, rfl, rfl⟩

/-- The patch-up as the source writes it: it reads the deleted handle again after the first assignment. -/
theorem unlisted_eq (handles : Nat → UTHashHandle κ) (delptr : Nat) :
    assignTo (assignTo handles (handles delptr).prev fun hh => { hh with next := (handles delptr).next })
      (assignTo handles (handles delptr).prev (fun hh => { hh with next := (handles delptr).next }) delptr).next
      (fun hh => { hh with
        prev := (assignTo handles (handles delptr).prev (fun hh => { hh with next := (handles delptr).next }) delptr).prev })
      = unlisted handles delptr := by
  have next : (assignTo handles (handles delptr).prev (fun hh => { hh with next := (handles delptr).next }) delptr).next =
      (handles delptr).next := by
    rw [assignTo_apply]
    split <;> rfl
  have prev : (assignTo handles (handles delptr).prev (fun hh => { hh with next := (handles delptr).next }) delptr).prev =
      (handles delptr).prev := by
    rw [assignTo_apply]
    split <;> rfl
  rw [next, prev, unlisted]

private theorem filter_ne_split {α : Type} {f : α → Nat} {all front back : List α} {item : α}
    (split : all = front ++ item :: back)
    (nodup : (all.map f).Nodup) : all.filter (f · ≠ f item) = front ++ back := by
  subst split
  rw [List.map_append, List.map_cons] at nodup
  have parts := List.nodup_append.mp nodup
  have ahead : front.filter (f · ≠ f item) = front := List.filter_eq_self.mpr fun other member => by
    simpa using parts.2.2 (f other) (List.mem_map_of_mem member) (f item) List.mem_cons_self
  have behind : back.filter (f · ≠ f item) = back := List.filter_eq_self.mpr fun other member => by
    rw [decide_eq_true_eq]
    intro same
    exact (List.nodup_cons.mp parts.2.1).1 (same ▸ List.mem_map_of_mem member)
  rw [List.filter_append, List.filter_cons_of_neg (by simp), ahead, behind]

section
variable {before behind : List (Nat × κ)} {key : κ} {elt : Nat}

theorem Listed.unlist (listed : Listed hashFcn handles tbl (before ++ (elt, key) :: behind)) {shrunk : UTHashTable}
    (powers : shrunk.numBuckets = 2 ^ shrunk.log2NumBuckets)
    (tail : ((before ++ behind).map Prod.fst).getLast? = some shrunk.tail)
    (number : shrunk.numItems + 1 = tbl.numItems) :
    Listed hashFcn (unlisted handles elt) shrunk (before ++ behind) := by
  have order := listed.order
  have distinct := listed.distinct
  rw [List.map_append, List.map_cons] at order distinct
  obtain ⟨following, preceding⟩ := order.around
  have shorter : (before ++ behind).Sublist (before ++ (elt, key) :: behind) :=
    (List.sublist_cons_self _ behind).append_left before
  refine ⟨powers, ?_, listed.distinct.sublist (shorter.map _), tail, ?_, ?_⟩
  · rw [List.map_append]
    refine order.remove distinct ?_ ?_ ?_ ?_
    · intro other _ later
      rw [unlisted_next, preceding, if_neg later]
    · intro last found
      rw [unlisted_next, preceding, if_pos found]
    · intro other _ earlier
      rw [unlisted_prev, following, if_neg earlier]
    · intro head found
      rw [unlisted_prev, following, if_pos found]
  · have counted := listed.number
    simp only [List.length_append, List.length_cons] at counted ⊢
    omega
  · intro item member
    obtain ⟨_, _, hashv, same⟩ := unlisted_same handles elt item.1
    rw [hashv, same]
    exact listed.keyed item (shorter.subset member)

theorem Listed.tailWithout_ok (listed : Listed hashFcn handles tbl (before ++ (elt, key) :: behind))
    (more : before ++ behind ≠ []) : ∃ tail, tailWithout handles tbl elt = .ok tail ∧
      ((before ++ behind).map Prod.fst).getLast? = some tail := by
  have order := listed.order
  have distinct := listed.distinct
  have tail := listed.tail
  rw [List.map_append, List.map_cons] at order distinct
  rcases behind.eq_nil_or_concat with rfl | ⟨front, last, rfl⟩
  · rw [List.append_nil] at more
    obtain ⟨last, found⟩ : ∃ last, (before.map Prod.fst).getLast? = some last :=
      ⟨_, List.getLast?_eq_some_getLast (by simpa using more)⟩
    have own : elt = tbl.tail := by simpa using tail
    refine ⟨last, ?_, by rw [List.append_nil, found]⟩
    rw [tailWithout, if_pos own, order.around.2, found]
  · have own : last.1 = tbl.tail := by simpa [List.getLast?_append, List.getLast?_cons] using tail
    have different : elt ≠ tbl.tail := by
      rintro rfl
      exact (List.nodup_cons.mp (List.nodup_append.mp distinct).2.1).1 (by simp [own])
    exact ⟨tbl.tail, if_neg different, by simp [List.getLast?_append, own]⟩

def shrunkTable (tbl : UTHashTable) (tail bkt : Nat) (bucket : UTHashBucket) : UTHashTable :=
  { tbl with tail, numItems := tbl.numItems - 1, buckets := Function.update tbl.buckets bkt bucket }

theorem Stored.unlink (stored : Stored hashFcn handles tbl (before ++ (elt, key) :: behind) chains)
    {front back : List Nat} (split : chains (place handles tbl.numBuckets elt) = front ++ elt :: back) {tail : Nat}
    (last : ((before ++ behind).map Prod.fst).getLast? = some tail) :
    ∃ bucket, hashDelInBkt (unlisted handles elt) (tbl.buckets (place handles tbl.numBuckets elt)) elt =
        .ok (detached (unlisted handles elt) elt, bucket) ∧
      Stored hashFcn (detached (unlisted handles elt) elt)
        (shrunkTable tbl tail (place handles tbl.numBuckets elt) bucket) (before ++ behind)
        (Function.update chains (place handles tbl.numBuckets elt) (front ++ back)) := by
  have linked : Chained (unlisted handles elt) tbl.buckets tbl.numBuckets chains := by
    refine stored.chained.congr ?_
    intro _ other _
    obtain ⟨next, prev, hashv, _⟩ := unlisted_same handles elt other
    exact ⟨next, prev, hashv⟩
  obtain ⟨bucket, deleted, chained⟩ := linked.take split
  have number : tbl.numItems - 1 + 1 = tbl.numItems := by
    have counted := stored.number
    simp only [List.length_append, List.length_cons] at counted
    omega
  have listed : Listed hashFcn (unlisted handles elt)
      (shrunkTable tbl tail (place handles tbl.numBuckets elt) bucket) (before ++ behind) :=
    stored.unlist stored.powers last number
  have same := sameOutside_detached (unlisted handles elt) elt
  refine ⟨bucket, deleted, listed.congr (fun elt _ => same elt) listed.powers rfl rfl, chained, ?_⟩
  have inside : place handles tbl.numBuckets elt < tbl.numBuckets := hashToBkt_lt _ stored.positive
  have all : (chainedElts tbl.numBuckets chains).Perm (elt :: chainedElts tbl.numBuckets
      (Function.update chains (place handles tbl.numBuckets elt) (front ++ back))) := by
    refine chainedElts_perm inside ?_ fun other different => (Function.update_of_ne different _ _).symm
    rw [Function.update_self, split]
    exact List.perm_middle
  have whole : ((before ++ (elt, key) :: behind).map Prod.fst).Perm (elt :: (before ++ behind).map Prod.fst) := by
    rw [List.map_append, List.map_append]
    exact List.perm_middle
  exact (all.symm.trans (stored.members.trans whole)).cons_inv

theorem Stored.unstack [DecidableEq κ] {bucket : UTHashBucket} {tail : Nat} {smaller : Nat → List Nat}
    (stored : Stored hashFcn handles tbl (before ++ (elt, key) :: behind) chains)
    (kept : Stored hashFcn (detached (unlisted handles elt) elt)
      (shrunkTable tbl tail (place handles tbl.numBuckets elt) bucket) (before ++ behind) smaller)
    (shorter : ∀ bkt, smaller bkt = (chains bkt).filter (· ≠ elt)) :
    tableStack (detached (unlisted handles elt) elt)
      (shrunkTable tbl tail (place handles tbl.numBuckets elt) bucket) smaller =
        fun key => (tableStack handles tbl chains key).filter (· ≠ elt) := by
  have same := sameOutside_detached (unlisted handles elt) elt
  funext key
  rw [tableStack, tableStack, stored.stackOf_elts, kept.stackOf_elts, shorter, shrunkTable, stackOf, stackOf,
    List.filter_comm]
  refine congrArg _ (List.filter_congr ?_)
  intro other _
  rw [(same other).key, (unlisted_same handles elt other).2.2.2]

theorem Stored.delete [DecidableEq κ] (stored : Stored hashFcn handles tbl (before ++ (elt, key) :: behind) chains)
    (more : before ++ behind ≠ []) : ∃ next after, hashDelete
      { handles, head := ((before ++ (elt, key) :: behind).map Prod.fst).head?, tbl := some tbl } elt = .ok next ∧
      Represents hashFcn next after ∧ after.items = before ++ behind ∧
      after.stack = fun key => (tableStack handles tbl chains key).filter (· ≠ elt) := by
  have order := stored.order
  rw [List.map_append, List.map_cons] at order
  obtain ⟨following, preceding⟩ := order.around
  have member : elt ∈ chainedElts tbl.numBuckets chains := stored.members.symm.subset (by simp)
  have inside : place handles tbl.numBuckets elt < tbl.numBuckets := hashToBkt_lt _ stored.positive
  obtain ⟨front, back, split⟩ := List.append_of_mem ((stored.chained.mem_elts stored.positive).mp member)
  obtain ⟨tail, tailed, last⟩ := stored.tailWithout_ok more
  obtain ⟨bucket, deleted, kept⟩ := stored.unlink split last
  have shorter (bkt : Nat) : Function.update chains (place handles tbl.numBuckets elt) (front ++ back) bkt =
      (chains bkt).filter (· ≠ elt) := by
    by_cases own : bkt = place handles tbl.numBuckets elt
    · subst own
      rw [Function.update_self]
      exact (@filter_ne_split _ id _ _ _ _ split (by simpa using stored.chained.nodup _)).symm
    · rw [Function.update_of_ne own, List.filter_eq_self.mpr]
      intro other found
      rw [decide_eq_true_eq]
      rintro rfl
      exact own (stored.chained.placed bkt other found).symm
  refine ⟨_, _, ?_, .table kept, rfl, stored.unstack kept shorter⟩
  have alone : ¬ ((handles elt).prev = none ∧ (handles elt).next = none) := by
    rw [following, preceding]
    simpa [and_comm] using more
  have head : (if (handles elt).prev = none then (handles elt).next
      else ((before ++ (elt, key) :: behind).map Prod.fst).head?) = ((before ++ behind).map Prod.fst).head? := by
    rw [following, preceding]
    cases before <;> simp
  have home : hashToBkt (unlisted handles elt elt).hashv tbl.numBuckets = place handles tbl.numBuckets elt := by
    rw [place, (unlisted_same handles elt elt).2.2.1]
  have some : tbl.numItems ≠ 0 := by simp [stored.number]
  rw [hashDelete, if_neg alone]
  simp only [table, ok_bind, unlisted_eq, home, bucketAt, if_pos inside, pure_eq_ok, tailed, deleted, head, decrement,
    if_neg some, shrunkTable]

theorem Stored.delete_last [DecidableEq κ] (stored : Stored hashFcn handles tbl [(elt, key)] chains) :
    hashDelete { handles, head := some elt, tbl := some tbl } elt = .ok { handles } ∧
      (fun key => (tableStack handles tbl chains key).filter (· ≠ elt)) = fun _ => [] := by
  have order := stored.order
  obtain ⟨following, preceding⟩ := (show Doubly _ _ ([] ++ elt :: []) from order).around
  refine ⟨?_, ?_⟩
  · rw [hashDelete, if_pos]
    exact ⟨preceding, following⟩
  · funext other
    rw [List.filter_eq_nil_iff]
    intro node member
    have own := stored.members.subset (List.mem_of_mem_filter member)
    simpa using own

theorem Stored.delete_any [DecidableEq κ] (stored : Stored hashFcn handles tbl items chains)
    (member : elt ∈ items.map Prod.fst) : ∃ next after,
      hashDelete { handles, head := (items.map Prod.fst).head?, tbl := some tbl } elt = .ok next ∧
      Represents hashFcn next after ∧ after.items = items.filter (·.1 ≠ elt) ∧
      after.stack = fun key => (tableStack handles tbl chains key).filter (· ≠ elt) := by
  obtain ⟨item, found, rfl⟩ := List.mem_map.mp member
  obtain ⟨before, behind, split⟩ := List.append_of_mem found
  rw [filter_ne_split split stored.distinct]
  subst split
  rcases (before ++ behind).eq_nil_or_concat with alone | ⟨_, _, more⟩
  · obtain ⟨rfl, rfl⟩ := List.append_eq_nil_iff.mp alone
    obtain ⟨deleted, nothing⟩ := stored.delete_last
    exact ⟨_, _, deleted, .empty handles, rfl, nothing.symm⟩
  · exact stored.delete (by simp [more])

/-- Memory outside of the table belongs to the caller. -/
theorem Stored.reuse [DecidableEq κ] (stored : Stored hashFcn handles tbl items chains)
    (outside : elt ∉ items.map Prod.fst) (handle : UTHashHandle κ) :
    Stored hashFcn (Function.update handles elt handle) tbl items chains ∧
      tableStack (Function.update handles elt handle) tbl chains = tableStack handles tbl chains := by
  have still (other : Nat) (member : other ∈ items.map Prod.fst) :
      Function.update handles elt handle other = handles other := by
    apply Function.update_of_ne
    rintro rfl
    exact outside member
  have inside (bkt other : Nat) (member : other ∈ chains bkt) : other ∈ items.map Prod.fst :=
    stored.members.subset (stored.chained.mem stored.positive member)
  refine ⟨⟨stored.toListed.congr ?_ stored.powers rfl rfl, stored.chained.congr ?_, stored.members⟩, ?_⟩
  · intro other member
    constructor <;> rw [still other member]
  · intro bkt other member
    rw [still other (inside bkt other member)]
    exact ⟨rfl, rfl, rfl⟩
  · funext other
    apply List.filter_congr
    intro node member
    rw [still node (stored.members.subset member)]

end

end IoTGateway.UTHash
