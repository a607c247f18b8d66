import Mathlib.Data.Nat.Digits.Lemmas

/-! Positional numerals as bytes, written most significant digit first with the
digits `0`-`9` and `a`-`f`. Reading a numeral gives back the number, so no two
numbers share one. -/

namespace Numerals

def digitByte (digit : Nat) : UInt8 := if digit < 10 then (48 + digit).toUInt8 else (87 + digit).toUInt8

def digitValue (byte : UInt8) : Nat := if byte < 58 then byte.toNat - 48 else byte.toNat - 87

/-- The numeral of `n`; zero is the one number that keeps a leading `0`. -/
def text (base n : Nat) : List UInt8 :=
  if n = 0 then [digitByte 0] else (Nat.digits base n).reverse.map digitByte

def value (base : Nat) (numeral : List UInt8) : Nat :=
  numeral.foldl (fun sum byte => sum * base + digitValue byte) 0

variable {base : Nat}

private theorem digitValue_digitByte {digit : Nat} (small : digit < 16) : digitValue (digitByte digit) = digit := by
  interval_cases digit <;> rfl

private theorem foldl_digits (digits : List Nat) (small : ∀ digit ∈ digits, digit < 16) :
    (digits.reverse.map digitByte).foldl (fun sum byte => sum * base + digitValue byte) 0 = Nat.ofDigits base digits := by
  induction digits with
  | nil => rfl
  | cons digit digits ih =>
    have rest := ih (fun other member => small other (List.mem_cons_of_mem _ member))
    simp only [List.reverse_cons, List.map_append, List.foldl_append, rest, List.map_cons, List.map_nil,
      List.foldl_cons, List.foldl_nil, Nat.ofDigits_cons, digitValue_digitByte (small digit List.mem_cons_self)]
    ring

theorem value_text (two : 2 ≤ base) (sixteen : base ≤ 16) (n : Nat) : value base (text base n) = n := by
  unfold text value
  split
  next zero =>
    subst zero
    simp [digitValue_digitByte]
  next =>
    have small : ∀ digit ∈ Nat.digits base n, digit < 16 := fun digit member =>
      Nat.lt_of_lt_of_le (Nat.digits_lt_base two member) sixteen
    rw [foldl_digits _ small, Nat.ofDigits_digits]

theorem text_injective (two : 2 ≤ base) (sixteen : base ≤ 16) : Function.Injective (text base) := by
  intro first second same
  rw [← value_text two sixteen first, same, value_text two sixteen]

theorem text_length (two : 2 ≤ base) {n width : Nat} (some : 0 < width) (bound : n < base ^ width) :
    (text base n).length ≤ width := by
  unfold text
  split
  · exact some
  · simpa using (Nat.digits_length_le_iff two n).mpr bound

theorem text_bytes (two : 2 ≤ base) (sixteen : base ≤ 16) {n : Nat} {byte : UInt8} (member : byte ∈ text base n) :
    (48 ≤ byte ∧ byte ≤ 57) ∨ (97 ≤ byte ∧ byte ≤ 102) := by
  have digits : ∀ digit < 16, (48 ≤ digitByte digit ∧ digitByte digit ≤ 57) ∨
      (97 ≤ digitByte digit ∧ digitByte digit ≤ 102) := by decide
  unfold text at member
  split at member
  · rw [List.mem_singleton.mp member]
    exact digits 0 (by omega)
  · obtain ⟨digit, among, rfl⟩ := List.mem_map.mp member
    exact digits digit (Nat.lt_of_lt_of_le (Nat.digits_lt_base two (List.mem_reverse.mp among)) sixteen)

def isDecimal (byte : UInt8) : Bool := 48 ≤ byte && byte ≤ 57

theorem isDecimal_of_text {n : Nat} {byte : UInt8} (member : byte ∈ text 10 n) : isDecimal byte = true := by
  have tens : ∀ digit < 10, isDecimal (digitByte digit) = true := by decide
  rw [text] at member
  split at member
  · rw [List.mem_singleton.mp member]
    exact tens 0 (by decide)
  · obtain ⟨digit, among, rfl⟩ := List.mem_map.mp member
    exact tens digit (Nat.digits_lt_base (by decide) (List.mem_reverse.mp among))

theorem text_ne_nil (base n : Nat) : text base n ≠ [] := by
  intro empty
  rw [text] at empty
  split at empty
  · cases empty
  next positive =>
    rw [List.map_eq_nil_iff, List.reverse_eq_nil_iff, Nat.digits_eq_nil_iff_eq_zero] at empty
    exact positive empty

end Numerals
