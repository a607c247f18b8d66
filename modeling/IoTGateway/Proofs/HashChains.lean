import IoTGateway.HashTable

/-! The chains of the hash table: putting an element into its bucket, taking one
out, and spreading all of them over twice as many buckets. -/

namespace IoTGateway.UTHash

open LinkedLists

variable {κ : Type}

theorem assign_apply (handles : Nat → UTHashHandle κ) (target : Nat) (change : UTHashHandle κ → UTHashHandle κ)
    (elt : Nat) : assign handles target change elt = if elt = target then change (handles elt) else handles elt := by
  by_cases same : elt = target
  · subst same
    simp [assign]
  · simp [assign, same]

theorem assignTo_apply (handles : Nat → UTHashHandle κ) (target : Option Nat)
    (change : UTHashHandle κ → UTHashHandle κ) (elt : Nat) :
    assignTo handles target change elt = if target = some elt then change (handles elt) else handles elt := by
  cases target with
  | none => simp [assignTo]
  | some target => simp [assignTo, assign_apply, eq_comm]

theorem linkFirst_hhNext (handles : Nat → UTHashHandle κ) (hhHead : Option Nat) (thh elt : Nat) :
    (linkFirst handles hhHead thh elt).hhNext = if elt = thh then hhHead else (handles elt).hhNext := by
  simp only [linkFirst, assignTo_apply, assign_apply]
  split <;> split <;> rfl

theorem linkFirst_hhPrev (handles : Nat → UTHashHandle κ) (hhHead : Option Nat) (thh elt : Nat) :
    (linkFirst handles hhHead thh elt).hhPrev =
      if hhHead = some elt then some thh else if elt = thh then none else (handles elt).hhPrev := by
  simp only [linkFirst, assignTo_apply, assign_apply]
  split <;> split <;> rfl

structure SameOutside (handles after : Nat → UTHashHandle κ) (elt : Nat) : Prop where
  prev : (after elt).prev = (handles elt).prev
  next : (after elt).next = (handles elt).next
  key : (after elt).key = (handles elt).key
  hashv : (after elt).hashv = (handles elt).hashv

theorem SameOutside.refl (handles : Nat → UTHashHandle κ) (elt : Nat) : SameOutside handles handles elt :=
  ⟨rfl, rfl, rfl, rfl⟩

theorem SameOutside.trans {first second third : Nat → UTHashHandle κ} {elt : Nat} (one : SameOutside first second elt)
    (two : SameOutside second third elt) : SameOutside first third elt :=
  ⟨two.prev.trans one.prev, two.next.trans one.next, two.key.trans one.key, two.hashv.trans one.hashv⟩

theorem sameOutside_linkFirst (handles : Nat → UTHashHandle κ) (hhHead : Option Nat) (thh elt : Nat) :
    SameOutside handles (linkFirst handles hhHead thh) elt := by
  constructor <;>
    · simp only [linkFirst, assignTo_apply, assign_apply]
      split <;> split <;> rfl

def place (handles : Nat → UTHashHandle κ) (numBuckets elt : Nat) : Nat := hashToBkt (handles elt).hashv numBuckets

structure Chained (handles : Nat → UTHashHandle κ) (buckets : Nat → UTHashBucket) (numBuckets : Nat)
    (chains : Nat → List Nat) : Prop where
  linked : ∀ bkt, Doubly (fun elt => (handles elt).hhNext) (fun elt => (handles elt).hhPrev) (chains bkt)
  head : ∀ bkt, (buckets bkt).hhHead = (chains bkt).head?
  count : ∀ bkt, (buckets bkt).count = (chains bkt).length
  placed : ∀ bkt, ∀ elt ∈ chains bkt, place handles numBuckets elt = bkt
  nodup : ∀ bkt, (chains bkt).Nodup

section
variable {handles : Nat → UTHashHandle κ} {buckets : Nat → UTHashBucket} {numBuckets bkt elt : Nat}
  {chains : Nat → List Nat}

theorem Chained.empty (handles : Nat → UTHashHandle κ) (numBuckets : Nat) :
    Chained handles (fun _ => {}) numBuckets fun _ => [] where
  linked := fun _ => ⟨trivial, trivial⟩
  head := fun _ => rfl
  count := fun _ => rfl
  placed := fun _ _ member => absurd member List.not_mem_nil
  nodup := fun _ => List.nodup_nil

theorem Chained.congr {after : Nat → UTHashHandle κ} (chained : Chained handles buckets numBuckets chains)
    (kept : ∀ bkt, ∀ elt ∈ chains bkt, (after elt).hhNext = (handles elt).hhNext ∧
      (after elt).hhPrev = (handles elt).hhPrev ∧ (after elt).hashv = (handles elt).hashv) :
    Chained after buckets numBuckets chains where
  linked := fun bkt => (chained.linked bkt).congr (fun elt member => (kept bkt elt member).1)
    fun elt member => (kept bkt elt member).2.1
  head := chained.head
  count := chained.count
  placed := fun bkt elt member => by rw [place, (kept bkt elt member).2.2]; exact chained.placed bkt elt member
  nodup := chained.nodup

theorem Chained.other (chained : Chained handles buckets numBuckets chains) {other : Nat} (member : elt ∈ chains bkt)
    (different : other ≠ bkt) : elt ∉ chains other :=
  fun also => different ((chained.placed _ _ also).symm.trans (chained.placed _ _ member))

theorem Chained.replace {after : Nat → UTHashHandle κ} {chain : List Nat} {bucket : UTHashBucket}
    (chained : Chained handles buckets numBuckets chains)
    (linked : Doubly (fun elt => (after elt).hhNext) (fun elt => (after elt).hhPrev) chain)
    (head : bucket.hhHead = chain.head?) (count : bucket.count = chain.length)
    (placed : ∀ elt ∈ chain, place handles numBuckets elt = bkt) (nodup : chain.Nodup)
    (hashes : ∀ elt, (after elt).hashv = (handles elt).hashv)
    (kept : ∀ other, other ≠ bkt → ∀ elt ∈ chains other,
      (after elt).hhNext = (handles elt).hhNext ∧ (after elt).hhPrev = (handles elt).hhPrev) :
    Chained after (Function.update buckets bkt bucket) numBuckets (Function.update chains bkt chain) := by
  have still (elt : Nat) : place after numBuckets elt = place handles numBuckets elt := by rw [place, place, hashes]
  have updated {p : UTHashBucket → List Nat → Nat → Prop} (own : p bucket chain bkt)
      (others : ∀ other, other ≠ bkt → p (buckets other) (chains other) other) (other : Nat) :
      p (Function.update buckets bkt bucket other) (Function.update chains bkt chain other) other := by
    by_cases same : other = bkt
    · subst same
      rw [Function.update_self, Function.update_self]
      exact own
    · rw [Function.update_of_ne same, Function.update_of_ne same]
      exact others other same
  refine ⟨?_, ?_, ?_, ?_, ?_⟩
  · refine @updated (fun _ chain _ => Doubly _ _ chain) linked ?_
    intro other different
    exact (chained.linked other).congr (fun elt member => (kept other different elt member).1)
      fun elt member => (kept other different elt member).2
  · exact @updated (fun bucket chain _ => bucket.hhHead = chain.head?) head fun other _ => chained.head other
  · exact @updated (fun bucket chain _ => bucket.count = chain.length) count fun other _ => chained.count other
  · refine @updated (fun _ chain bkt => ∀ elt ∈ chain, place after numBuckets elt = bkt) ?_ ?_
    · intro elt member
      rw [still]
      exact placed elt member
    · intro other _ elt member
      rw [still]
      exact chained.placed other elt member
  · exact @updated (fun _ chain _ => chain.Nodup) nodup fun other _ => chained.nodup other

theorem Chained.push (chained : Chained handles buckets numBuckets chains) (home : place handles numBuckets elt = bkt)
    (fresh : elt ∉ chains bkt) (expandMult : Nat) :
    Chained (linkFirst handles (buckets bkt).hhHead elt)
      (Function.update buckets bkt { hhHead := some elt, count := (buckets bkt).count + 1, expandMult }) numBuckets
      (Function.update chains bkt (elt :: chains bkt)) := by
  have absent : ∀ other, ∀ node ∈ chains other, node ≠ elt := by
    rintro other node member rfl
    exact fresh ((chained.placed other node member).symm.trans home ▸ member)
  refine chained.replace ?_ rfl (by rw [chained.count, List.length_cons]) ?_ ?_ ?_ ?_
  · rw [chained.head]
    refine (chained.linked bkt).push (chained.nodup bkt) ?_ ?_ ?_ ?_ ?_
    · rw [linkFirst_hhNext, if_pos rfl]
    · rw [linkFirst_hhPrev, if_neg, if_pos rfl]
      exact fun first => fresh (List.mem_of_head? first)
    · intro head first
      rw [linkFirst_hhPrev, if_pos first]
    · intro node member
      rw [linkFirst_hhNext, if_neg (absent bkt node member)]
    · intro node member later
      rw [linkFirst_hhPrev, if_neg later, if_neg (absent bkt node member)]
  · exact List.forall_mem_cons.mpr ⟨home, chained.placed bkt⟩
  · exact List.nodup_cons.mpr ⟨fresh, chained.nodup bkt⟩
  · exact fun node => (sameOutside_linkFirst handles _ _ node).hashv
  · intro other different node member
    rw [linkFirst_hhNext, linkFirst_hhPrev, if_neg (absent other node member), if_neg (absent other node member), if_neg]
    · exact ⟨rfl, rfl⟩
    · rw [chained.head]
      exact fun first => chained.other member different.symm (List.mem_of_head? first)

/-- The handles after `HASH_DEL_IN_BKT`, by what the deleted one points to. -/
def detached (handles : Nat → UTHashHandle κ) (hhDel : Nat) : Nat → UTHashHandle κ :=
  assignTo (assignTo handles (handles hhDel).hhPrev fun hh => { hh with hhNext := (handles hhDel).hhNext })
    (handles hhDel).hhNext fun hh => { hh with hhPrev := (handles hhDel).hhPrev }

private theorem hashDelInBkt_eq (handles : Nat → UTHashHandle κ) {head : UTHashBucket} {count : Nat} (hhDel : Nat)
    (counted : head.count = count + 1) : hashDelInBkt handles head hhDel = .ok (detached handles hhDel,
      { head with count, hhHead := if head.hhHead = some hhDel then (handles hhDel).hhNext else head.hhHead }) := by
  have next : (assignTo handles (handles hhDel).hhPrev (fun hh => { hh with hhNext := (handles hhDel).hhNext })
      hhDel).hhNext = (handles hhDel).hhNext := by
    rw [assignTo_apply]
    split <;> rfl
  have prev : (assignTo handles (handles hhDel).hhPrev (fun hh => { hh with hhNext := (handles hhDel).hhNext })
      hhDel).hhPrev = (handles hhDel).hhPrev := by
    rw [assignTo_apply]
    split <;> rfl
  simp only [hashDelInBkt, counted, decrement, Nat.add_one_ne_zero, ite_false, ok_bind, pure_eq_ok, next, prev,
    Nat.add_sub_cancel, detached]

theorem detached_hhNext (handles : Nat → UTHashHandle κ) (hhDel node : Nat) : (detached handles hhDel node).hhNext =
    if (handles hhDel).hhPrev = some node then (handles hhDel).hhNext else (handles node).hhNext := by
  simp only [detached, assignTo_apply]
  split <;> split <;> rfl

theorem detached_hhPrev (handles : Nat → UTHashHandle κ) (hhDel node : Nat) : (detached handles hhDel node).hhPrev =
    if (handles hhDel).hhNext = some node then (handles hhDel).hhPrev else (handles node).hhPrev := by
  simp only [detached, assignTo_apply]
  split <;> split <;> rfl

theorem sameOutside_detached (handles : Nat → UTHashHandle κ) (hhDel node : Nat) :
    SameOutside handles (detached handles hhDel) node := by
  constructor <;>
    · simp only [detached, assignTo_apply]
      split <;> split <;> rfl

theorem Chained.take {front back : List Nat} (chained : Chained handles buckets numBuckets chains)
    (split : chains bkt = front ++ elt :: back) :
    ∃ bucket, hashDelInBkt handles (buckets bkt) elt = .ok (detached handles elt, bucket) ∧
      Chained (detached handles elt) (Function.update buckets bkt bucket) numBuckets
        (Function.update chains bkt (front ++ back)) := by
  have nodup := chained.nodup bkt
  have linked := chained.linked bkt
  have placed := chained.placed bkt
  have inside : elt ∈ chains bkt := by simp [split]
  rw [split] at nodup linked placed
  obtain ⟨following, preceding⟩ := linked.around
  have shorter : (front ++ back).Sublist (front ++ elt :: back) := (List.sublist_cons_self elt back).append_left front
  have counted : (buckets bkt).count = (front ++ back).length + 1 := by
    rw [chained.count, split]
    simp [Nat.add_assoc]
  refine ⟨_, hashDelInBkt_eq handles elt counted, chained.replace ?_ ?_ rfl ?_ (nodup.sublist shorter) ?_ ?_⟩
  · refine linked.remove nodup ?_ ?_ ?_ ?_
    · intro node _ later
      rw [detached_hhNext, preceding, if_neg later]
    · intro last found
      rw [detached_hhNext, preceding, if_pos found]
    · intro node _ earlier
      rw [detached_hhPrev, following, if_neg earlier]
    · intro head found
      rw [detached_hhPrev, following, if_pos found]
  · rw [chained.head, split, following]
    cases front with
    | nil => simp
    | cons first front =>
      rw [if_neg]
      · rfl
      · intro same
        cases same
        exact (List.nodup_cons.mp nodup).1 (by simp)
  · exact fun node member => placed node (shorter.subset member)
  · exact fun node => (sameOutside_detached handles elt node).hashv
  · intro other different node member
    have apart (neighbour : Nat) (near : neighbour ∈ front ++ elt :: back) : neighbour ≠ node := by
      rintro rfl
      exact chained.other (split ▸ near) different member
    rw [detached_hhNext, detached_hhPrev, following, preceding, if_neg, if_neg]
    · exact ⟨rfl, rfl⟩
    · exact fun found => apart node (by simp [List.mem_of_head? found]) rfl
    · exact fun found => apart node (by simp [List.mem_of_getLast? found]) rfl

end

theorem hashToBkt_lt (hashv : UInt32) {numBkts : Nat} (some : 0 < numBkts) : hashToBkt hashv numBkts < numBkts := by
  have bound : hashv.toNat &&& (numBkts - 1) ≤ numBkts - 1 := Nat.and_le_right
  exact Nat.lt_of_le_pred some bound

/-- What of `elts`, put into buckets one after the other, stands in one of them. -/
def pile (place : Nat → Nat) (elts : List Nat) (bkt : Nat) : List Nat := (elts.filter (place · = bkt)).reverse

private theorem pile_append (place : Nat → Nat) (elts : List Nat) (elt : Nat) : pile place (elts ++ [elt]) =
    Function.update (pile place elts) (place elt) (elt :: pile place elts (place elt)) := by
  funext bkt
  by_cases same : bkt = place elt
  · subst same
    simp [pile]
  · simp [pile, same, Ne.symm same]

/-- The elements in `spread` are in the new buckets, the others where they were. -/
structure Spread (start : Nat → UTHashHandle κ) (numBuckets : Nat) (spread : List Nat) (state : Expanding κ) : Prop where
  chained : Chained state.handles state.newBuckets (numBuckets * 2)
    (pile (place start (numBuckets * 2)) spread)
  outside : ∀ elt, SameOutside start state.handles elt
  untouched : ∀ elt, elt ∉ spread → state.handles elt = start elt

section
variable {start : Nat → UTHashHandle κ} {numBuckets ideal : Nat} {spread rest : List Nat} {state : Expanding κ}

theorem Spread.round (spreading : Spread start numBuckets spread state) (positive : 0 < numBuckets) {thh : Nat}
    (fresh : thh ∉ spread) : ∃ after, expandRound numBuckets ideal (some thh, state) =
      .ok (.inl ((start thh).hhNext, after)) ∧ Spread start numBuckets (spread ++ [thh]) after := by
  generalize bkt_eq : place start (numBuckets * 2) thh = bkt
  have inside : bkt < numBuckets * 2 := bkt_eq ▸ hashToBkt_lt _ (by omega)
  have home : place state.handles (numBuckets * 2) thh = bkt := by
    rw [← bkt_eq, place, place, (spreading.outside thh).hashv]
  have absent : thh ∉ pile (place start (numBuckets * 2)) spread bkt := by simp [pile, fresh]
  have known : hashToBkt (start thh).hashv (numBuckets * 2) = bkt := bkt_eq
  obtain ⟨expandMult, nonidealItems, moved⟩ : ∃ expandMult nonidealItems,
      expandRound numBuckets ideal (some thh, state) = .ok (.inl ((start thh).hhNext, {
        handles := linkFirst state.handles (state.newBuckets bkt).hhHead thh
        newBuckets := Function.update state.newBuckets bkt
          { hhHead := some thh, count := (state.newBuckets bkt).count + 1, expandMult }
        nonidealItems })) := by
    refine ⟨?mult, ?items, ?moved⟩
    case moved =>
      simp only [expandRound, known, bucketAt, if_pos inside, ok_bind, pure_eq_ok, spreading.untouched thh fresh]
      rfl
  refine ⟨_, moved, ?_, ?_, ?_⟩
  · rw [pile_append, bkt_eq]
    exact spreading.chained.push home absent expandMult
  · exact fun elt => (spreading.outside elt).trans (sameOutside_linkFirst _ _ _ elt)
  · intro elt unspread
    obtain ⟨unspread, other⟩ : elt ∉ spread ∧ elt ≠ thh := by simpa using unspread
    have behind : (state.newBuckets bkt).hhHead ≠ some elt := by
      rw [spreading.chained.head]
      intro first
      exact unspread (List.mem_of_mem_filter (List.mem_reverse.mp (List.mem_of_head? first)))
    rw [← spreading.untouched elt unspread]
    simp only [linkFirst, assignTo_apply, assign_apply, if_neg behind, if_neg other]

theorem Spread.walk (spreading : Spread start numBuckets spread state) (positive : 0 < numBuckets)
    (links : Links (fun elt => (start elt).hhNext) rest none) (fresh : (spread ++ rest).Nodup) {fuel : Nat}
    (enough : rest.length < fuel) : ∃ after, Loops.iterate (expandRound numBuckets ideal) fuel (rest.head?, state) =
      .ok (some after) ∧ Spread start numBuckets (spread ++ rest) after := by
  induction rest generalizing spread state fuel with
  | nil =>
    obtain ⟨fuel, rfl⟩ := Nat.exists_eq_add_one.mpr enough
    exact ⟨state, rfl, by rwa [List.append_nil]⟩
  | cons thh rest ih =>
    obtain ⟨fuel, rfl⟩ : ∃ m, fuel = m + 1 := Nat.exists_eq_add_one.mpr (by omega)
    obtain ⟨points, links⟩ := links
    have absent : thh ∉ spread := fun member =>
      (List.nodup_append.mp fresh).2.2 thh member thh List.mem_cons_self rfl
    obtain ⟨next, moved, spreading⟩ := @Spread.round _ _ _ ideal _ _ spreading positive _ absent
    rw [← List.singleton_append, ← List.append_assoc] at fresh ⊢
    obtain ⟨after, walked, spreading⟩ := ih spreading links fresh (Nat.lt_of_succ_lt_succ enough)
    refine ⟨after, ?_, spreading⟩
    rw [Option.or_none] at points
    simp only [List.singleton_append, List.head?_cons, Loops.iterate, moved, points, walked]

theorem Spread.buckets {tbl : UTHashTable} {chains : Nat → List Nat} {bkts : List Nat}
    (spreading : Spread start tbl.numBuckets spread state) (old : Chained start tbl.buckets tbl.numBuckets chains)
    (positive : 0 < tbl.numBuckets) (inside : ∀ bkt ∈ bkts, bkt < tbl.numBuckets)
    (room : ∀ bkt, (chains bkt).length ≤ tbl.numItems) (fresh : (spread ++ bkts.flatMap chains).Nodup) :
    ∃ after, bkts.foldlM (expandBucket tbl ideal) state = .ok after ∧
      Spread start tbl.numBuckets (spread ++ bkts.flatMap chains) after := by
  induction bkts generalizing spread state with
  | nil => exact ⟨state, rfl, by simpa using spreading⟩
  | cons bkt bkts ih =>
    rw [List.flatMap_cons, ← List.append_assoc] at fresh ⊢
    obtain ⟨next, walked, spreading⟩ := @Spread.walk _ _ _ ideal _ _ _ spreading positive (old.linked bkt).forward
      (List.Nodup.of_append_left fresh) (tbl.numItems + 1) (Nat.lt_succ_of_le (room bkt))
    obtain ⟨after, done, spreading⟩ := ih spreading (fun other member => inside other (.tail _ member)) fresh
    refine ⟨after, ?_, spreading⟩
    have moved : expandBucket tbl ideal state bkt = .ok next := by
      simp only [expandBucket, bucketAt, if_pos (inside bkt List.mem_cons_self), ok_bind, old.head, walked, pure_eq_ok]
    rw [List.foldlM_cons, moved]
    exact done

end

def chainedElts (numBuckets : Nat) (chains : Nat → List Nat) : List Nat := (List.range numBuckets).flatMap chains

theorem Chained.nodup_elts {handles : Nat → UTHashHandle κ} {buckets : Nat → UTHashBucket} {numBuckets : Nat}
    {chains : Nat → List Nat} (chained : Chained handles buckets numBuckets chains) :
    (chainedElts numBuckets chains).Nodup := by
  refine List.nodup_flatMap.mpr ⟨fun bkt _ => chained.nodup bkt, ?_⟩
  refine List.nodup_range.imp ?_
  intro bkt other different elt member also
  exact chained.other member (Ne.symm different) also

/-- The spread of a whole table: in the new chains the elements stand in the
opposite order. -/
theorem hashExpandBuckets_ok {handles : Nat → UTHashHandle κ} {tbl : UTHashTable} {chains : Nat → List Nat}
    (chained : Chained handles tbl.buckets tbl.numBuckets chains) (positive : 0 < tbl.numBuckets)
    (room : ∀ bkt, (chains bkt).length ≤ tbl.numItems) :
    ∃ after grown, hashExpandBuckets handles tbl = .ok (after, grown) ∧
      grown.numBuckets = tbl.numBuckets * 2 ∧ grown.log2NumBuckets = tbl.log2NumBuckets + 1 ∧
      grown.numItems = tbl.numItems ∧ grown.tail = tbl.tail ∧
      Chained after grown.buckets (tbl.numBuckets * 2)
        (pile (place handles (tbl.numBuckets * 2)) (chainedElts tbl.numBuckets chains)) ∧
      ∀ elt, SameOutside handles after elt := by
  have initial : Spread handles tbl.numBuckets [] { handles, newBuckets := fun _ => {}, nonidealItems := 0 } :=
    ⟨.empty handles _, fun elt => .refl handles elt, fun _ _ => rfl⟩
  obtain ⟨state, done, spreading⟩ := @Spread.buckets _ _ (idealChainMaxlen tbl) _ _ _ _ (List.range tbl.numBuckets)
    initial chained positive (fun bkt member => List.mem_range.mp member) room
    (by rw [List.nil_append]; exact chained.nodup_elts)
  rw [List.nil_append] at spreading
  refine ⟨?after, ?grown, ?expanded, ?_⟩
  case expanded =>
    rw [hashExpandBuckets, done]
    rfl
  exact ⟨rfl, rfl, rfl, rfl, spreading.chained, spreading.outside⟩

end IoTGateway.UTHash
