import Mathlib.Algebra.Order.BigOperators.Group.Finset
import Mathlib.Algebra.BigOperators.Ring.Finset
import Mathlib.Algebra.Order.Floor.Div
import IoTGateway.Proofs.HashRun

/-! How long the chains get. The header promises a bound for as long as it expands
its buckets: a bucket holds ten elements for each of its `expandMult + 1` shares,
and the buckets have no more than two shares each on average. -/

namespace IoTGateway.UTHash

variable {κ : Type} {hashFcn : κ → UInt32}

/-- How many times the threshold a chain may reach before it makes the table expand. -/
def shares (bucket : UTHashBucket) : Nat := bucket.expandMult + 1

def sharesOf (tbl : UTHashTable) : Nat := ∑ bkt ∈ Finset.range tbl.numBuckets, shares (tbl.buckets bkt)

def countOf (tbl : UTHashTable) : Nat := ∑ bkt ∈ Finset.range tbl.numBuckets, (tbl.buckets bkt).count

/-- Only a bucket with one share can be full: an expansion may leave ten elements in it. -/
structure Light (tbl : UTHashTable) : Prop where
  short : ∀ bkt, (tbl.buckets bkt).count ≤ shares (tbl.buckets bkt) * hashBktCapacityThresh
  room : ∀ bkt, 0 < (tbl.buckets bkt).expandMult →
    (tbl.buckets bkt).count < shares (tbl.buckets bkt) * hashBktCapacityThresh
  shared : sharesOf tbl ≤ 2 * tbl.numBuckets

def Paced (ideal : Nat) (bucket : UTHashBucket) : Prop :=
  bucket.expandMult = if ideal < bucket.count then bucket.count / ideal else 0

section
variable {numBuckets ideal : Nat}

private theorem expandRound_paced {thh next : Option Nat} {state after : Expanding κ}
    (paced : ∀ bkt, Paced ideal (state.newBuckets bkt))
    (moved : expandRound numBuckets ideal (thh, state) = .ok (.inl (next, after))) :
    ∀ bkt, Paced ideal (after.newBuckets bkt) := by
  cases thh with
  | none => cases moved
  | some thh =>
    simp only [expandRound, bucketAt] at moved
    split at moved
    · cases moved
      intro other
      dsimp only
      by_cases same : other = hashToBkt (state.handles thh).hashv (numBuckets * 2)
      · subst same
        have before := paced (hashToBkt (state.handles thh).hashv (numBuckets * 2))
        rw [Function.update_self]
        simp only [Paced] at before ⊢
        split
        · rfl
        next within =>
          rw [before, if_neg (by omega)]
      · rw [Function.update_of_ne same]
        exact paced other
    · cases moved

private theorem expandBucket_paced {tbl : UTHashTable} {bktI : Nat} {state after : Expanding κ}
    (paced : ∀ bkt, Paced ideal (state.newBuckets bkt)) (moved : expandBucket tbl ideal state bktI = .ok after) :
    ∀ bkt, Paced ideal (after.newBuckets bkt) := by
  simp only [expandBucket, bucketAt] at moved
  split at moved
  next inside =>
    rw [ok_bind] at moved
    cases walked : Loops.iterate (expandRound tbl.numBuckets ideal) (tbl.numItems + 1)
        ((tbl.buckets bktI).hhHead, state) with
    | error fault => simp [walked] at moved
    | ok finished =>
      cases finished with
      | none => simp [walked] at moved
      | some last =>
        simp only [walked, ok_bind, pure_eq_ok, Except.ok.injEq] at moved
        subst moved
        refine @Loops.iterate_keeps _ _ _ _ (fun state => ∀ bkt, Paced ideal (state.2.newBuckets bkt))
          (fun last => ∀ bkt, Paced ideal (last.newBuckets bkt)) ?_ ?_ _ _ _ paced walked
        · intro state next held again
          exact expandRound_paced held again
        · intro state last held left
          obtain ⟨_ | thh, state⟩ := state
          · cases left
            exact held
          · simp only [expandRound, bucketAt] at left
            split at left <;> cases left
  · cases moved

private theorem expandBuckets_paced {tbl : UTHashTable} {bkts : List Nat} {state after : Expanding κ}
    (paced : ∀ bkt, Paced ideal (state.newBuckets bkt))
    (moved : bkts.foldlM (expandBucket tbl ideal) state = .ok after) : ∀ bkt, Paced ideal (after.newBuckets bkt) := by
  induction bkts generalizing state with
  | nil =>
    cases moved
    exact paced
  | cons bkt bkts ih =>
    rw [List.foldlM_cons] at moved
    cases first : expandBucket tbl ideal state bkt with
    | error fault => simp [first] at moved
    | ok next =>
      rw [first, ok_bind] at moved
      exact ih (expandBucket_paced paced first) moved

end

section
variable {handles after : Nat → UTHashHandle κ} {tbl grown : UTHashTable}

structure Expanded (tbl grown : UTHashTable) : Prop where
  paced : ∀ bkt, Paced (idealChainMaxlen tbl) (grown.buckets bkt)
  twice : grown.numBuckets = tbl.numBuckets * 2
  number : grown.numItems = tbl.numItems
  noexpand : grown.noexpand = if grown.ineffExpands > 1 then 1 else tbl.noexpand

private theorem hashExpandBuckets_expanded (expanded : hashExpandBuckets handles tbl = .ok (after, grown)) :
    Expanded tbl grown := by
  rw [hashExpandBuckets] at expanded
  cases spread : (List.range tbl.numBuckets).foldlM (expandBucket tbl (idealChainMaxlen tbl))
      { handles, newBuckets := fun _ => {}, nonidealItems := 0 } with
  | error fault => simp [spread] at expanded
  | ok state =>
    rw [spread, ok_bind] at expanded
    cases expanded
    refine ⟨expandBuckets_paced (fun _ => ?_) spread, rfl, rfl, rfl⟩
    rw [Paced, if_neg (Nat.not_lt_zero _)]

/-- The shift and the mask round the elements for each of the new buckets up. -/
theorem idealChainMaxlen_eq (powers : tbl.numBuckets = 2 ^ tbl.log2NumBuckets) :
    idealChainMaxlen tbl = tbl.numItems ⌈/⌉ (tbl.numBuckets * 2) := by
  have doubled : tbl.numBuckets * 2 = 2 ^ (tbl.log2NumBuckets + 1) := by rw [powers, Nat.pow_succ]
  rw [idealChainMaxlen, Nat.shiftRight_eq_div_pow, doubled, Nat.and_two_pow_sub_one_eq_mod, Nat.ceilDiv_eq_add_pred_div]
  generalize size : 2 ^ (tbl.log2NumBuckets + 1) = width
  have positive : 0 < width := size ▸ Nat.two_pow_pos _
  have divided := Nat.div_add_mod tbl.numItems width
  have rest := Nat.mod_lt tbl.numItems positive
  symm
  apply Nat.div_eq_of_lt_le
  · rw [Nat.add_mul, Nat.mul_comm (_ / _)]
    split <;> omega
  · rw [Nat.add_mul, Nat.add_mul, Nat.mul_comm (_ / _)]
    split <;> omega

theorem idealChainMaxlen_pos (powers : tbl.numBuckets = 2 ^ tbl.log2NumBuckets) (some : 0 < tbl.numItems) :
    0 < idealChainMaxlen tbl := by
  have positive : 0 < tbl.numBuckets * 2 := by
    rw [powers, ← Nat.pow_succ]
    exact Nat.two_pow_pos _
  by_contra nothing
  have few := (ceilDiv_le_iff_le_mul positive).mp (Nat.le_of_eq (idealChainMaxlen_eq powers).symm)
  rw [Nat.eq_zero_of_not_pos nothing] at few
  omega

theorem Light.few (light : Light tbl) (positive : 0 < tbl.numBuckets) : countOf tbl + 1 ≤ tbl.numBuckets * 2 * 10 := by
  have short : ∀ bkt ∈ Finset.range tbl.numBuckets, (tbl.buckets bkt).count ≤ shares (tbl.buckets bkt) * 10 :=
    fun bkt _ => light.short bkt
  by_cases shared : ∃ bkt ∈ Finset.range tbl.numBuckets, 0 < (tbl.buckets bkt).expandMult
  · obtain ⟨bkt, inside, several⟩ := shared
    have fewer : countOf tbl < sharesOf tbl * 10 := by
      rw [countOf, sharesOf, Finset.sum_mul]
      exact Finset.sum_lt_sum short ⟨bkt, inside, light.room bkt several⟩
    have bounded := light.shared
    omega
  · have one : ∀ bkt ∈ Finset.range tbl.numBuckets, (tbl.buckets bkt).count ≤ 10 := by
      intro bkt inside
      have none : (tbl.buckets bkt).expandMult = 0 := Nat.eq_zero_of_not_pos fun several => shared ⟨bkt, inside, several⟩
      have full := short bkt inside
      rwa [shares, none, Nat.zero_add, Nat.one_mul] at full
    have total := Finset.sum_le_sum one
    rw [Finset.sum_const, Finset.card_range, smul_eq_mul] at total
    rw [countOf]
    omega

theorem Paced.within {ideal : Nat} {bucket : UTHashBucket} (paced : Paced ideal bucket) (positive : 0 < ideal) :
    bucket.expandMult * ideal ≤ bucket.count ∧
      (bucket.count ≤ ideal ∧ bucket.expandMult = 0 ∨ bucket.count < shares bucket * ideal) := by
  rw [shares, paced]
  split
  · refine ⟨Nat.div_mul_le_self _ _, .inr ?_⟩
    have divided := Nat.div_add_mod bucket.count ideal
    have rest := Nat.mod_lt bucket.count positive
    rw [Nat.add_mul, Nat.mul_comm (_ / _)]
    omega
  next within => exact ⟨by omega, .inl ⟨by omega, rfl⟩⟩

theorem Expanded.light (expanded : Expanded tbl grown) (powers : tbl.numBuckets = 2 ^ tbl.log2NumBuckets)
    (some : 0 < tbl.numItems) (few : tbl.numItems ≤ tbl.numBuckets * 2 * 10)
    (counted : grown.numItems = countOf grown) :
    Light grown := by
  have positive := idealChainMaxlen_pos powers some
  have wide : 0 < tbl.numBuckets * 2 := by omega
  have enough : tbl.numItems ≤ tbl.numBuckets * 2 * idealChainMaxlen tbl :=
    (ceilDiv_le_iff_le_mul wide).mp (Nat.le_of_eq (idealChainMaxlen_eq powers).symm)
  have small : idealChainMaxlen tbl ≤ 10 := by
    rw [idealChainMaxlen_eq powers]
    exact (ceilDiv_le_iff_le_mul wide).mpr few
  have paced := expanded.paced
  generalize idealChainMaxlen tbl = ideal at positive enough small paced
  have within (bkt : Nat) := (paced bkt).within positive
  refine ⟨?_, ?_, ?_⟩
  · intro bkt
    rcases (within bkt).2 with ⟨short, none⟩ | short
    · rw [shares, none]
      exact short.trans small
    · exact short.le.trans (Nat.mul_le_mul_left _ small)
  · intro bkt several
    rcases (within bkt).2 with ⟨_, none⟩ | short
    · omega
    · exact short.trans_le (Nat.mul_le_mul_left _ small)
  · have spread : (∑ bkt ∈ Finset.range grown.numBuckets, (grown.buckets bkt).expandMult) * ideal ≤
        tbl.numBuckets * 2 * ideal := by
      calc (∑ bkt ∈ Finset.range grown.numBuckets, (grown.buckets bkt).expandMult) * ideal
          = ∑ bkt ∈ Finset.range grown.numBuckets, (grown.buckets bkt).expandMult * ideal := Finset.sum_mul ..
        _ ≤ countOf grown := Finset.sum_le_sum fun bkt _ => (within bkt).1
        _ = tbl.numItems := by rw [← counted, expanded.number]
        _ ≤ tbl.numBuckets * 2 * ideal := enough
    have divided := Nat.le_of_mul_le_mul_right spread positive
    simp only [sharesOf, shares, Finset.sum_add_distrib, Finset.sum_const, Finset.card_range, smul_eq_mul]
    rw [expanded.twice] at divided ⊢
    omega

theorem Light.replace (light : Light tbl) {bkt : Nat} {bucket : UTHashBucket}
    (mult : bucket.expandMult = (tbl.buckets bkt).expandMult)
    (fits : bucket.count < shares bucket * hashBktCapacityThresh ∨ bucket.count ≤ (tbl.buckets bkt).count)
    (tail numItems : Nat) :
    Light { tbl with tail, numItems, buckets := Function.update tbl.buckets bkt bucket } := by
  have same : shares bucket = shares (tbl.buckets bkt) := by rw [shares, shares, mult]
  refine ⟨?_, ?_, ?_⟩
  · intro other
    by_cases own : other = bkt
    · subst own
      have before := light.short other
      simp only [Function.update_self]
      rw [same] at fits ⊢
      omega
    · simpa only [Function.update_of_ne own] using light.short other
  · intro other
    by_cases own : other = bkt
    · subst own
      have before := light.room other
      simp only [Function.update_self]
      rw [mult]
      rw [same] at fits ⊢
      omega
    · simpa only [Function.update_of_ne own] using light.room other
  · refine Nat.le_trans (Nat.le_of_eq (Finset.sum_congr rfl ?_)) light.shared
    intro other _
    by_cases own : other = bkt
    · subst own
      simp only [Function.update_self, same]
    · simp only [Function.update_of_ne own]

/-- The table gives up on expanding after two expansions in a row without effect. -/
structure Loaded (tbl : UTHashTable) : Prop where
  effect : tbl.noexpand = if tbl.ineffExpands > 1 then 1 else 0
  light : tbl.noexpand ≠ 1 → Light tbl

theorem Loaded.replace (loaded : Loaded tbl) {bkt : Nat} {bucket : UTHashBucket}
    (mult : bucket.expandMult = (tbl.buckets bkt).expandMult) (fits : tbl.noexpand ≠ 1 →
      bucket.count < shares bucket * hashBktCapacityThresh ∨ bucket.count ≤ (tbl.buckets bkt).count)
    (tail numItems : Nat) :
    Loaded { tbl with tail, numItems, buckets := Function.update tbl.buckets bkt bucket } :=
  ⟨loaded.effect, fun expanding => (loaded.light expanding).replace mult (fits expanding) tail numItems⟩

theorem Loaded.relabel (loaded : Loaded tbl) (tail numItems : Nat) : Loaded { tbl with tail, numItems } := by
  have kept := @Loaded.replace _ loaded 0 (tbl.buckets 0) rfl (fun _ => .inr (Nat.le_refl _)) tail numItems
  rwa [Function.update_eq_self] at kept

theorem hashAddToBkt_loaded {bkt addhh : Nat} (loaded : Loaded tbl) (powers : tbl.numBuckets = 2 ^ tbl.log2NumBuckets)
    (number : tbl.numItems = countOf tbl + 1) (added : hashAddToBkt handles tbl bkt addhh = .ok (after, grown))
    (counted : grown.numItems = countOf grown) : Loaded grown := by
  simp only [hashAddToBkt, bucketAt] at added
  split at added
  next inside =>
    rw [ok_bind] at added
    split at added
    next full =>
      have expanded := hashExpandBuckets_expanded added
      have light := loaded.light full.2
      have still : tbl.noexpand = 0 := by
        have effect := loaded.effect
        split at effect
        · exact absurd effect full.2
        · exact effect
      refine ⟨by rw [expanded.noexpand, still], fun _ => expanded.light powers ?_ ?_ counted⟩
      · exact number ▸ Nat.succ_pos _
      · exact number ▸ light.few (powers ▸ Nat.two_pow_pos _)
    next within =>
      cases added
      have fits : tbl.noexpand ≠ 1 → (tbl.buckets bkt).count + 1 < ((tbl.buckets bkt).expandMult + 1) * 10 :=
        fun expanding => Nat.lt_of_not_le fun full => within ⟨full, expanding⟩
      exact @Loaded.replace _ loaded bkt
        { tbl.buckets bkt with count := (tbl.buckets bkt).count + 1, hhHead := some addhh } rfl
        (fun expanding => .inl (fits expanding)) tbl.tail tbl.numItems
  · cases added

theorem hashDelete_loaded {hash next : UTHash κ} {delptr : Nat} (loaded : ∀ tbl, hash.tbl = some tbl → Loaded tbl)
    (deleted : hashDelete hash delptr = .ok next) : ∀ tbl, next.tbl = some tbl → Loaded tbl := by
  rw [hashDelete] at deleted
  split at deleted
  · cases deleted
    intro tbl present
    cases present
  · cases present : hash.tbl with
    | none => simp [table, present] at deleted
    | some tbl =>
      simp only [table, present, ok_bind] at deleted
      cases tailed : tailWithout hash.handles tbl delptr with
      | error fault => simp [tailed] at deleted
      | ok tail =>
        simp only [tailed, ok_bind, bucketAt, hashDelInBkt] at deleted
        split at deleted
        next inside =>
          simp only [ok_bind, decrement] at deleted
          split at deleted
          · cases deleted
          simp only [ok_bind, pure_eq_ok] at deleted
          split at deleted
          · cases deleted
          cases deleted
          intro shrunk same
          cases same
          refine (loaded tbl present).replace ?_ (fun _ => .inr ?_) tail (tbl.numItems - 1)
          · rfl
          · exact Nat.sub_le _ _
        · cases deleted

private theorem length_flatMap_range (chains : Nat → List Nat) (n : Nat) :
    ((List.range n).flatMap chains).length = ∑ bkt ∈ Finset.range n, (chains bkt).length := by
  induction n with
  | zero => rfl
  | succ n ih => rw [List.range_succ, List.flatMap_append, List.length_append, ih, Finset.sum_range_succ,
      List.flatMap_singleton]

theorem Stored.counted {items : List (Nat × κ)} {chains : Nat → List Nat}
    (stored : Stored hashFcn handles tbl items chains) : tbl.numItems = countOf tbl := by
  have total := stored.members.length_eq
  rw [chainedElts, length_flatMap_range, List.length_map, ← stored.number] at total
  rw [← total, countOf]
  exact Finset.sum_congr rfl fun bkt _ => (stored.chained.count bkt).symm

private theorem read_keeps {β : Type} {read : Checked β} {hash next : UTHash κ} {report : β → Answer} {answer : Answer}
    (served : (do return (report (← read), hash)) = (.ok (answer, next) : Checked (Answer × UTHash κ))) :
    hash = next := by
  cases read with
  | error fault => cases served
  | ok value =>
    cases served
    rfl

variable [DecidableEq κ]

theorem Represents.counted {hash : UTHash κ} {catalogue : Catalogue κ} (represents : Represents hashFcn hash catalogue)
    (present : hash.tbl = some tbl) : tbl.numItems = countOf tbl ∧ tbl.numBuckets = 2 ^ tbl.log2NumBuckets := by
  cases represents with
  | empty handles => cases present
  | table stored =>
    cases present
    exact ⟨stored.counted, stored.powers⟩

theorem hashMakeTable_loaded (head : Nat) : Loaded { hashMakeTable head with numItems := 1 } := by
  refine ⟨rfl, fun _ => ⟨fun _ => Nat.zero_le _, fun _ several => absurd several (Nat.lt_irrefl 0), ?_⟩⟩
  simp [sharesOf, shares, hashMakeTable, hashInitialNumBuckets]

theorem addToBkt_loaded {next : UTHash κ} {catalogue : Catalogue κ} {head bkt elt : Nat} (loaded : Loaded tbl)
    (powers : tbl.numBuckets = 2 ^ tbl.log2NumBuckets) (number : tbl.numItems = countOf tbl + 1) (added : (do
      let (handles, tbl) ← hashAddToBkt handles tbl bkt elt
      return { handles, head := some head, tbl := some tbl }) = (.ok next : Checked (UTHash κ)))
    (represents : Represents hashFcn next catalogue) : ∀ tbl, next.tbl = some tbl → Loaded tbl := by
  cases done : hashAddToBkt handles tbl bkt elt with
  | error fault => simp [done] at added
  | ok result =>
    obtain ⟨after, grown⟩ := result
    rw [done] at added
    cases added
    intro tbl present
    cases present
    exact hashAddToBkt_loaded loaded powers number done (represents.counted rfl).1

theorem hashAdd_loaded {hash next : UTHash κ} {before after : Catalogue κ} (represents : Represents hashFcn hash before)
    (loaded : ∀ tbl, hash.tbl = some tbl → Loaded tbl) {key : κ} {elt : Nat}
    (added : hashAdd hashFcn hash key elt = .ok next) (represented : Represents hashFcn next after) :
    ∀ tbl, next.tbl = some tbl → Loaded tbl := by
  cases represents with
  | empty handles =>
    simp only [hashAdd, ok_bind] at added
    refine addToBkt_loaded (hashMakeTable_loaded elt) rfl ?_ added represented
    simp [countOf, hashMakeTable]
  | @table handles tbl items chains stored =>
    obtain ⟨head, first⟩ := stored.head
    simp only [hashAdd, first, table, ok_bind] at added
    refine addToBkt_loaded ((loaded tbl rfl).relabel elt (tbl.numItems + 1)) stored.powers ?_ added represented
    exact congrArg (· + 1) stored.counted

theorem serve_loaded {hash next : UTHash κ} {before after : Catalogue κ} (represents : Represents hashFcn hash before)
    (loaded : ∀ tbl, hash.tbl = some tbl → Loaded tbl) {request : Request κ} {answer : Answer}
    (served : serve hashFcn hash request = .ok (answer, next)) (represented : Represents hashFcn next after) :
    ∀ tbl, next.tbl = some tbl → Loaded tbl := by
  cases request with
  | add key elt =>
    cases added : hashAdd hashFcn hash key elt with
    | error fault => simp [serve, added] at served
    | ok later =>
      simp only [serve, added] at served
      cases served
      exact hashAdd_loaded represents loaded added represented
  | delete elt =>
    cases deleted : hashDelete hash elt with
    | error fault => simp [serve, deleted] at served
    | ok later =>
      simp only [serve, deleted] at served
      cases served
      exact hashDelete_loaded loaded deleted
  | clear =>
    cases served
    intro tbl present
    cases present
  | reuse elt handle =>
    cases served
    exact loaded
  | find | count | iter | fsck => exact read_keeps served ▸ loaded

private theorem loaded_of_proper {requests : List (Request κ)} {elts : List Nat} (hashFcn : κ → UInt32)
    (handles : Nat → UTHashHandle κ) (proper : Proper requests elts) : ∃ history hash catalogue,
      Histories.Run (serve hashFcn) { handles } history hash ∧ history.map Prod.fst = requests ∧
      Represents hashFcn hash catalogue ∧ catalogue.elts = elts ∧ ∀ tbl, hash.tbl = some tbl → Loaded tbl := by
  induction proper with
  | start => exact ⟨[], _, _, .start, rfl, .empty handles, rfl, fun tbl present => by cases present⟩
  | @step requests elts request earlier fits ih =>
    obtain ⟨history, hash, catalogue, run, same, represents, rfl, loaded⟩ := ih
    obtain ⟨answer, next, after, served, allowed, represented⟩ := serve_allowed represents fits
    exact ⟨_, next, after, run.step served, by simp [same], represented, allowed.elts,
      serve_loaded represents loaded served represented⟩

/-- As long as no two expansions in a row were without effect: the table has room
for what is in it, and a search ends within the rounds its bucket is allowed. -/
theorem chains_bounded (hashFcn : κ → UInt32) (handles : Nat → UTHashHandle κ) {requests : List (Request κ)}
    {elts : List Nat} (proper : Proper requests elts) : ∃ history hash,
      Histories.Run (serve hashFcn) { handles } history hash ∧ history.map Prod.fst = requests ∧
      ∀ tbl, hash.tbl = some tbl → tbl.ineffExpands ≤ 1 →
        tbl.numItems = elts.length ∧ elts.length ≤ 20 * tbl.numBuckets ∧ sharesOf tbl ≤ 2 * tbl.numBuckets ∧
        ∀ key, ∃ found, hashFind hashFcn hash key = .ok found ∧
          Loops.iterate (LinkedLists.searchRound (fun out => (hash.handles out).hhNext)
            fun out => (hash.handles out).key = key)
            (shares (tbl.buckets (hashToBkt (hashFcn key) tbl.numBuckets)) * hashBktCapacityThresh + 1)
            (tbl.buckets (hashToBkt (hashFcn key) tbl.numBuckets)).hhHead = (.ok (some found) : Checked _) := by
  obtain ⟨history, hash, catalogue, run, same, represents, rfl, loaded⟩ := loaded_of_proper hashFcn handles proper
  refine ⟨history, hash, run, same, ?_⟩
  intro tbl present few
  have expanding : tbl.noexpand ≠ 1 := by
    rw [(loaded tbl present).effect, if_neg (by omega)]
    exact Nat.zero_ne_one
  have light := (loaded tbl present).light expanding
  cases represents with
  | empty handles => cases present
  | table stored =>
    cases present
    have number : tbl.numItems = stored.catalogue.elts.length := by
      simp [stored.number, Stored.catalogue, Catalogue.elts]
    have total := light.few stored.positive
    rw [← stored.counted] at total
    refine ⟨number, by omega, light.shared, ?_⟩
    intro key
    have short := light.short (hashToBkt (hashFcn key) tbl.numBuckets)
    rw [stored.chained.count] at short
    exact ⟨_, stored.find key, stored.search key (Nat.lt_succ_of_le short)⟩

theorem chains_bounded_same_bucket : ∃ history hash,
    Histories.Run (serve fun _ => 7) { handles := fun _ => ⟨none, none, none, none, 0, 0⟩ } history hash ∧
      history.map Prod.fst = [.add 1 1, .add 2 2, .add 3 3] ∧
      ∀ tbl, hash.tbl = some tbl → tbl.ineffExpands ≤ 1 →
        tbl.numItems = 3 ∧ 3 ≤ 20 * tbl.numBuckets ∧ sharesOf tbl ≤ 2 * tbl.numBuckets ∧
        ∀ key : Nat, ∃ found, hashFind (fun _ => 7) hash key = .ok found ∧
          Loops.iterate (LinkedLists.searchRound (fun out => (hash.handles out).hhNext)
            fun out => (hash.handles out).key = key)
            (shares (tbl.buckets (hashToBkt 7 tbl.numBuckets)) * hashBktCapacityThresh + 1)
            (tbl.buckets (hashToBkt 7 tbl.numBuckets)).hhHead = (.ok (some found) : Checked _) := by
  have first : Proper [.add 1 1] [1] := Proper.step .start (List.not_mem_nil : Request.Fits [] (.add 1 1))
  have second : Proper [.add 1 1, .add 2 2] [1, 2] := Proper.step first (by decide : (2 : Nat) ∉ [1])
  have third : Proper [.add 1 1, .add 2 2, .add 3 3] [1, 2, 3] :=
    Proper.step second (by decide : (3 : Nat) ∉ [1, 2])
  exact chains_bounded (fun _ => 7) _ third

end

end IoTGateway.UTHash
