import Mathlib.Data.Finset.Card
import Mathlib.Data.Finset.Range

/-! A pool of ids that hands out the free ones in ascending order: it marches
up from the last id given out and, at the end, starts over at a remembered
lower one. An id freed behind the march is remembered if it is the lowest. -/

namespace IdPools

/-- `curr` is the last id given out and `minFree` the remembered one, or
`size`. Every free id lies ahead of one of the two, but for one at most. -/
structure Covered (free : Nat → Prop) (size curr minFree : Nat) : Prop where
  curr_lt : curr < size
  behind : minFree < size → free minFree ∧ minFree ≤ curr
  found : ∃ lost, ∀ id, id < size → free id → curr < id ∨ minFree ≤ id ∨ id = lost

variable {free : Nat → Prop} {size curr minFree : Nat}

theorem Covered.congr {others : Nat → Prop} (covered : Covered free size curr minFree)
    (same : ∀ id, id < size → (others id ↔ free id)) : Covered others size curr minFree := by
  obtain ⟨currInside, behind, lost, found⟩ := covered
  refine ⟨currInside, ?_, lost, ?_⟩
  · intro inside
    exact ⟨(same minFree inside).mpr (behind inside).1, (behind inside).2⟩
  · intro id inside unused
    exact found id inside ((same id inside).mp unused)

theorem covered_initial (positive : 0 < size) (unused : free 0) : Covered free size 0 0 :=
  ⟨positive, fun _ => ⟨unused, le_rfl⟩, 0, fun id _ _ => .inr (.inl (Nat.zero_le id))⟩

/-- The march found an id. -/
theorem Covered.march (covered : Covered free size curr minFree) {next : Nat} (ahead : curr < next)
    (inside : next < size) (passed : ∀ id, curr < id → id < next → ¬ free id) :
    Covered (fun id => free id ∧ id ≠ next) size next minFree := by
  obtain ⟨currInside, behind, lost, found⟩ := covered
  refine ⟨inside, ?_, lost, ?_⟩
  · intro remembered
    obtain ⟨unused, reached⟩ := behind remembered
    exact ⟨⟨unused, by omega⟩, by omega⟩
  · intro id below unused
    rcases found id below unused.1 with later | later | same
    · left
      by_contra short
      exact passed id later (by have other := unused.2; omega) unused.1
    · exact .inr (.inl later)
    · exact .inr (.inr same)

/-- The march reached the end: where two ids are free, the remembered one is
free. -/
theorem Covered.remembered (covered : Covered free size curr minFree)
    (passed : ∀ id, curr < id → id < size → ¬ free id) {one two : Nat} (first : one < size) (second : two < size)
    (different : one ≠ two) (firstFree : free one) (secondFree : free two) : minFree < size := by
  obtain ⟨_, _, lost, found⟩ := covered
  rcases found one first firstFree with later | later | same
  · exact absurd firstFree (passed one later first)
  · exact later.trans_lt first
  · rcases found two second secondFree with later | later | same'
    · exact absurd secondFree (passed two later second)
    · exact later.trans_lt second
    · exact absurd (same.trans same'.symm) different

theorem Covered.wrap (covered : Covered free size curr minFree)
    (passed : ∀ id, curr < id → id < size → ¬ free id) (remembered : minFree < size) :
    Covered (fun id => free id ∧ id ≠ minFree) size minFree size := by
  obtain ⟨_, _, lost, found⟩ := covered
  refine ⟨remembered, fun absurdity => absurd absurdity (lt_irrefl size), lost, ?_⟩
  intro id below unused
  rcases found id below unused.1 with later | later | same
  · exact absurd unused.1 (passed id later below)
  · exact .inl (lt_of_le_of_ne later (Ne.symm unused.2))
  · exact .inr (.inr same)

theorem Covered.push (covered : Covered free size curr minFree) (id : Nat) :
    Covered (fun other => free other ∨ other = id) size curr (if id < minFree ∧ id ≤ curr then id else minFree) := by
  obtain ⟨currInside, behind, lost, found⟩ := covered
  refine ⟨currInside, ?_, lost, ?_⟩
  · intro inside
    split
    next lower => exact ⟨.inr rfl, lower.2⟩
    next kept =>
      rw [if_neg kept] at inside
      exact ⟨.inl (behind inside).1, (behind inside).2⟩
  · intro other below unused
    rcases unused with unused | rfl
    · rcases found other below unused with later | later | same
      · exact .inl later
      · right
        left
        split <;> omega
      · exact .inr (.inr same)
    · by_cases later : curr < other
      · exact .inl later
      · right
        left
        split <;> omega

/-- Growing forgets the remembered id; that loses one id where no more than one
is free. -/
theorem Covered.grow (covered : Covered free size curr minFree) {more : Nat} (larger : size ≤ more)
    {others : Nat → Prop} (same : ∀ id, id < size → (others id → free id))
    (single : ∃ lost, ∀ id, id < size → free id → id = lost) : Covered others more curr more := by
  obtain ⟨lost, only⟩ := single
  have currInside := covered.curr_lt
  refine ⟨by omega, fun absurdity => absurd absurdity (lt_irrefl more), lost, ?_⟩
  intro id _ unused
  by_cases old : id < size
  · exact .inr (.inr (only id old (same id old unused)))
  · exact .inl (by omega)

/-- A list without repetitions leaves as many ids free as it is short of the
size. -/
theorem free_card [DecidablePred free] {used : List Nat} (nodup : used.Nodup)
    (exact : ∀ id, id < size → (free id ↔ id ∉ used)) (inside : ∀ id, id ∈ used → id < size) :
    ((Finset.range size).filter free).card + used.length = size := by
  have complement : (Finset.range size).filter free = Finset.range size \ used.toFinset := by
    ext id
    simp only [Finset.mem_filter, Finset.mem_range, Finset.mem_sdiff, List.mem_toFinset]
    exact and_congr_right (exact id)
  have subset : used.toFinset ⊆ Finset.range size := by
    intro id member
    exact Finset.mem_range.mpr (inside id (List.mem_toFinset.mp member))
  rw [complement, Finset.card_sdiff_of_subset subset, Finset.card_range, List.toFinset_card_of_nodup nodup]
  have short := Finset.card_le_card subset
  rw [Finset.card_range, List.toFinset_card_of_nodup nodup] at short
  omega

theorem two_free {used : List Nat} (nodup : used.Nodup) (exact : ∀ id, id < size → (free id ↔ id ∉ used))
    (inside : ∀ id, id ∈ used → id < size) (short : used.length + 2 ≤ size) :
    ∃ one two, one < size ∧ two < size ∧ one ≠ two ∧ free one ∧ free two := by
  classical
  have count := free_card nodup exact inside
  obtain ⟨one, first, two, second, different⟩ :=
    Finset.one_lt_card.mp (show 1 < ((Finset.range size).filter free).card by omega)
  simp only [Finset.mem_filter, Finset.mem_range] at first second
  exact ⟨one, two, first.1, second.1, different, first.2, second.2⟩

theorem single_free {used : List Nat} (nodup : used.Nodup) (exact : ∀ id, id < size → (free id ↔ id ∉ used))
    (inside : ∀ id, id ∈ used → id < size) (full : size ≤ used.length + 1) :
    ∃ lost, ∀ id, id < size → free id → id = lost := by
  classical
  have count := free_card nodup exact inside
  have few := Finset.card_le_one.mp (show ((Finset.range size).filter free).card ≤ 1 by omega)
  by_cases some : ∃ id, id < size ∧ free id
  · obtain ⟨lost, below, unused⟩ := some
    refine ⟨lost, ?_⟩
    intro id below' unused'
    apply few <;> simp only [Finset.mem_filter, Finset.mem_range]
    · exact ⟨below', unused'⟩
    · exact ⟨below, unused⟩
  · exact ⟨0, fun id below unused => absurd ⟨id, below, unused⟩ some⟩

end IdPools
