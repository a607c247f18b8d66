import IoTGateway.Platform

/-! One concrete platform: a congruential `rand`, an `atoi` that wraps, and IPv6
text in which no run of zero groups is shortened. -/

namespace IoTGateway

def colon : UInt8 := 58

def groups (address : BitVec 128) : List Nat :=
  (List.range 8).map fun index => address.toNat / 65536 ^ (7 - index) % 65536

def ofGroups (groups : List Nat) : Nat := groups.foldl (fun sum group => sum * 65536 + group) 0

def groupsText (address : BitVec 128) : Bytes := [colon].intercalate ((groups address).map hexadecimal)

def groupsParse (text : Bytes) : Option (BitVec 128) :=
  some (BitVec.ofNat 128 (ofGroups ((text.splitOn colon).map (Numerals.value 16))))

theorem ofGroups_groups (address : BitVec 128) : ofGroups (groups address) = address.toNat := by
  have bound := address.isLt
  simp only [groups, ofGroups, List.range, List.range.loop, List.map_cons, List.map_nil, List.foldl_cons, List.foldl_nil]
  norm_num
  omega

theorem hexadecimal_bytes {n : Nat} {byte : UInt8} (member : byte ∈ hexadecimal n) :
    (48 ≤ byte ∧ byte ≤ 57) ∨ (97 ≤ byte ∧ byte ≤ 102) :=
  Numerals.text_bytes (by decide) (by decide) member

theorem colon_not_mem_hexadecimal (n : Nat) : colon ∉ hexadecimal n := fun member => by
  have := hexadecimal_bytes member
  revert this
  decide

private theorem groupsText_eq (address : BitVec 128) : ∃ a b c d e f g h,
    [a, b, c, d, e, f, g, h].map hexadecimal = (groups address).map hexadecimal ∧
      ∀ group ∈ [a, b, c, d, e, f, g, h], group < 65536 := by
  refine ⟨_, _, _, _, _, _, _, _, rfl, ?_⟩
  intro group member
  have among : group ∈ groups address := member
  obtain ⟨index, _, rfl⟩ := List.mem_map.mp among
  exact Nat.mod_lt _ (by decide)

theorem groupsText_length (address : BitVec 128) : (groupsText address).length < inet6Addrstrlen := by
  obtain ⟨a, b, c, d, e, f, g, h, same, small⟩ := groupsText_eq address
  have four (group : Nat) (member : group ∈ [a, b, c, d, e, f, g, h]) : (hexadecimal group).length ≤ 4 :=
    Numerals.text_length (by decide) (by decide) (by simpa using small group member)
  simp only [groupsText, ← same, inet6Addrstrlen]
  simp only [List.mem_cons, List.not_mem_nil, or_false, forall_eq_or_imp, forall_eq] at four
  simp only [List.map_cons, List.map_nil, List.intercalate, List.intersperse, List.flatten_cons, List.flatten_nil,
    List.length_append, List.length_cons, List.length_nil]
  omega

theorem groupsText_split (address : BitVec 128) :
    (groupsText address).splitOn colon = (groups address).map hexadecimal := by
  refine List.splitOn_intercalate colon ?_ (by simp [groups])
  intro text member
  obtain ⟨group, _, rfl⟩ := List.mem_map.mp member
  exact colon_not_mem_hexadecimal group

theorem groupsText_bytes (address : BitVec 128) {byte : UInt8} (member : byte ∈ groupsText address) :
    (48 ≤ byte ∧ byte ≤ 57) ∨ (97 ≤ byte ∧ byte ≤ 102) ∨ byte = 58 ∨ byte = 46 := by
  obtain ⟨a, b, c, d, e, f, g, h, same, _⟩ := groupsText_eq address
  have digit (n : Nat) (found : byte ∈ hexadecimal n) := hexadecimal_bytes found
  simp only [groupsText, ← same, List.map_cons, List.map_nil, List.intercalate, List.intersperse, List.flatten_cons,
    List.flatten_nil, List.mem_append, List.mem_cons, List.not_mem_nil, or_false] at member
  grind [colon]

theorem groupsParse_text (address : BitVec 128) : groupsParse (groupsText address) = some address := by
  have read : ((groups address).map hexadecimal).map (Numerals.value 16) = groups address := by
    rw [List.map_map]
    exact (List.map_congr_left fun n _ => Numerals.value_text (by decide) (by decide) n).trans (List.map_id _)
  rw [groupsParse, groupsText_split, read, ofGroups_groups, BitVec.ofNat_toNat, BitVec.setWidth_eq]

/-- `srand(seed)` and one step of a 64-bit congruential generator. -/
def congruentialRand (seed : UInt32) : Fin 2147483648 :=
  ⟨((6364136223846793005 * (seed - 1).toUInt64 + 1) >>> 33).toNat, by
    have := (6364136223846793005 * (seed - 1).toUInt64 + 1).toNat_lt
    rw [UInt64.toNat_shiftRight, Nat.shiftRight_eq_div_pow]
    exact Nat.div_lt_of_lt_mul (by simpa using this)⟩

def Platform.reference : Platform where
  rand := congruentialRand
  atoiOutside := Int32.ofInt
  inet6Text := groupsText
  inet6Parse := groupsParse
  inet6Text_length := groupsText_length
  inet6Text_bytes := fun address _ => groupsText_bytes address
  inet6Text_colon := fun address => by
    obtain ⟨a, b, c, d, e, f, g, h, same, _⟩ := groupsText_eq address
    simp [groupsText, ← same, List.intercalate, colon]
  inet6Parse_text := groupsParse_text

end IoTGateway
