import IoTGateway.Proofs.Attributes

/-! The lifetime a node records against the one it was asked for: the value goes
through an `int`, which holds only half of the range a lifetime has. -/

namespace IoTGateway.Proofs.Lifetime
open QueryScan QueryParameters QueryOptions Attributes

structure NumeralOf (n : Nat) (digits : Bytes) : Prop where
  some : digits ≠ []
  all : ∀ byte ∈ digits, isDigit byte = true
  value : Numerals.value 10 digits = n

/-- The first Uri-Query option gives `lt` as a numeral of `n`. -/
def GivesLifetime (request : CoapPdu) (n : Nat) : Prop :=
  ∃ first rest earlier digits later, uriQuery request = first :: rest ∧
    first.splitOn amp = earlier ++ encodeParam (ascii "lt", digits) :: later ∧
    (∀ other ∈ earlier, name other ≠ ascii "lt") ∧ NumeralOf n digits

private theorem isDigit_of_decimal {n : Nat} {byte : UInt8} (member : byte ∈ decimal n) : isDigit byte = true :=
  Numerals.isDecimal_of_text member

private theorem numeralOf_decimal (n : Nat) : NumeralOf n (decimal n) :=
  ⟨Numerals.text_ne_nil 10 n, fun _ member => isDigit_of_decimal member, Numerals.value_text (by decide) (by decide) n⟩

private theorem isDigit_of_isSpace {byte : UInt8} (blank : isSpace byte = true) : isDigit byte = false := by
  simp only [isSpace, Bool.or_eq_true, beq_iff_eq, Bool.and_eq_true, decide_eq_true_eq, UInt8.le_iff_toNat_le] at blank
  simp only [isDigit, Bool.and_eq_false_iff, decide_eq_false_iff_not, UInt8.le_iff_toNat_le]
  rcases blank with rfl | ⟨_, control⟩
  · exact Or.inl (by decide)
  · exact Or.inl fun digit => absurd (digit.trans control) (by decide)

section
variable {n : Nat} {digits : Bytes} (numeral : NumeralOf n digits)

include numeral in
theorem NumeralOf.cStr : cStr digits = digits := by
  apply List.takeWhile_eq_self_iff.mpr
  intro byte member
  have digit := numeral.all byte member
  by_contra zero
  obtain rfl : byte = 0 := by simpa using zero
  revert digit
  decide

include numeral in
theorem NumeralOf.signedValue : signedValue (digits.dropWhile isSpace) = n := by
  obtain ⟨first, rest, rfl⟩ := List.exists_cons_of_ne_nil numeral.some
  have digit := numeral.all first List.mem_cons_self
  have other (byte : UInt8) (strange : isDigit byte = false) : first ≠ byte := by
    rintro rfl
    rw [digit] at strange
    cases strange
  have printed : isSpace first = false :=
    Bool.eq_false_iff.mpr fun blank => other first (isDigit_of_isSpace blank) rfl
  have whole : (first :: rest).takeWhile isDigit = first :: rest := List.takeWhile_eq_self_iff.mpr numeral.all
  rw [List.dropWhile_cons_of_neg (by simp [printed])]
  unfold IoTGateway.signedValue
  split
  next same => exact absurd (List.cons.inj same).1 (other 45 (by decide))
  next same => exact absurd (List.cons.inj same).1 (other 43 (by decide))
  next => rw [whole, numeral.value]

include numeral in
theorem NumeralOf.atoi (os : Platform) :
    atoi os (IoTGateway.cStr digits) = if n ≤ 2147483647 then Int32.ofInt n else os.atoiOutside n := by
  rw [numeral.cStr, IoTGateway.atoi, numeral.signedValue]
  by_cases fits : n ≤ 2147483647
  · rw [if_pos fits, if_pos (by omega)]
  · rw [if_neg fits, if_neg (by omega)]

end

private theorem queriedInt_given {request : CoapPdu} {n : Nat} (os : Platform) (given : GivesLifetime request n) :
    queriedInt os (ascii "lt") (uriQuery request) =
      if n ≤ 2147483647 then Int32.ofInt n else os.atoiOutside n := by
  obtain ⟨first, rest, earlier, digits, later, options, split, absent, numeral⟩ := given
  have read : queried (ascii "lt") [] (first :: rest) = digits := by
    have found := name_append isName_lt.whole digits
    rw [queried, split, encodeParam, answer_first isName_lt.whole absent found, assigned_nil, if_pos (by simp),
      Delimited.after_marked isName_lt.whole]
  rw [options, queriedInt, read, if_neg numeral.some, numeral.atoi]

/-- No `int` reaches beyond its range, so a longer lifetime is recorded shorter. -/
theorem lifetimeText_lt {lt : Int32} {n : Nat} (long : 2147483647 < n) : lifetimeText lt ≠ decimal (max 60 n) := by
  intro same
  have equal := Numerals.text_injective (by decide) (by decide) same
  have bound := lt.toInt_lt
  omega

/-- The recorded lifetime is the requested one, but not less than 60, exactly
when the requested one fits an `int`. -/
theorem update_lifetime_iff (os : Platform) (node : CoAPResource) (callback : CoAPCallback) (n : Nat)
    (given : GivesLifetime callback.request n) (range : n ≤ 4294967295) :
    ∃ after, node.update os callback = .ok after ∧
      (after.attr[ascii "lt"]? = some (decimal (max 60 n)) ↔ n ≤ 2147483647) := by
  refine ⟨_, update_eq os node callback, ?_⟩
  rw [updatedAttr_lt, requested, queriedInt_given os given, Option.some_inj]
  by_cases fits : n ≤ 2147483647
  · refine iff_of_true ?_ fits
    have value : (Int32.ofInt n).toInt = n := Int32.toInt_ofInt_of_le (by omega) (by omega)
    rw [if_pos fits, lifetimeText, value]
    congr 1
    omega
  · exact iff_of_false (lifetimeText_lt (Nat.lt_of_not_le fits)) fits

def asking (lt : Bytes) : CoAPCallback where
  request := { options := [(coapOptionUriQuery, encodeQuery [(ascii "ep", ascii "n1"), (ascii "lt", lt)])] }
  peer := .ip (.inet 0x7f000001) 5683

theorem asking_gives (n : Nat) : GivesLifetime (asking (decimal n)).request n := by
  have clean : amp ∉ decimal n := fun member => absurd (isDigit_of_decimal member) (by decide)
  refine ⟨_, [], [encodeParam (ascii "ep", ascii "n1")], decimal n, [], rfl, ?_, by decide, numeralOf_decimal n⟩
  exact splitOn_encodeQuery (by simp) (by simpa using ⟨isName_ep, isName_lt⟩)
    (by simpa using ⟨by decide, clean⟩)

theorem update_lifetime_hour : ∃ after,
    CoAPResource.update .reference { uri := rdUri } (asking (decimal 3600)) = .ok after ∧
      (after.attr[ascii "lt"]? = some (decimal (max 60 3600)) ↔ 3600 ≤ 2147483647) :=
  update_lifetime_iff .reference { uri := rdUri } (asking (decimal 3600)) 3600 (asking_gives 3600) (by decide)

/-- The longest lifetime of all is recorded as one minute, the shortest there is. -/
theorem longest_lifetime_collapses : GivesLifetime (asking (decimal 4294967295)).request 4294967295 ∧
    ∃ after, CoAPResource.update .reference { uri := rdUri } (asking (decimal 4294967295)) = .ok after ∧
      after.attr[ascii "lt"]? = some (ascii "60") := by
  refine ⟨asking_gives _, _, update_eq _ _ _, ?_⟩
  rw [updatedAttr_lt, requested, queriedInt_given .reference (asking_gives _)]
  decide

end IoTGateway.Proofs.Lifetime
