import IoTGateway.Lib.Delimited
import IoTGateway.Lib.Numeral

/-! The authority of a URI: a host and a port with a colon between them. A host
that holds colons itself is a literal and stands in brackets; without them the
first colon would end it. -/

namespace Authorities

def openBracket : UInt8 := 91
def closeBracket : UInt8 := 93
def colon : UInt8 := 58

inductive Host where
  | literal (address : List UInt8)
  | name (name : List UInt8)
  deriving Repr, DecidableEq

def write : Host → Nat → List UInt8
  | .literal address, port => openBracket :: (address ++ closeBracket :: colon :: Numerals.text 10 port)
  | .name name, port => name ++ colon :: Numerals.text 10 port

def readPort (digits : List UInt8) : Option Nat :=
  if digits ≠ [] ∧ digits.all Numerals.isDecimal then some (Numerals.value 10 digits) else none

def read (authority : List UInt8) : Option (Host × Nat) :=
  if authority.head? = some openBracket then
    match Delimited.after closeBracket authority.tail with
    | 58 :: digits => (readPort digits).map fun port => (.literal (Delimited.before closeBracket authority.tail), port)
    | _ => none
  else (readPort (Delimited.after colon authority)).map fun port => (.name (Delimited.before colon authority), port)

theorem readPort_text (port : Nat) : readPort (Numerals.text 10 port) = some port := by
  have digits : (Numerals.text 10 port).all Numerals.isDecimal = true :=
    List.all_eq_true.mpr fun _ member => Numerals.isDecimal_of_text member
  rw [readPort, if_pos ⟨Numerals.text_ne_nil 10 port, digits⟩, Numerals.value_text (by decide) (by decide)]

theorem readPort_colon {digits : List UInt8} (strange : colon ∈ digits) : readPort digits = none := by
  rw [readPort, if_neg]
  intro read
  exact absurd (List.all_eq_true.mp read.2 colon strange) (by decide)

theorem read_literal {address : List UInt8} (closed : closeBracket ∉ address) (port : Nat) :
    read (write (.literal address) port) = some (.literal address, port) := by
  have behind : Delimited.after closeBracket (address ++ closeBracket :: colon :: Numerals.text 10 port) =
      58 :: Numerals.text 10 port := Delimited.after_marked closed
  simp only [read, write, List.head?_cons, if_pos, List.tail_cons, behind, Delimited.before_marked closed,
    readPort_text, Option.map_some]

theorem read_name {name : List UInt8} (bare : name.head? ≠ some openBracket) (whole : colon ∉ name) (port : Nat) :
    read (write (.name name) port) = some (.name name, port) := by
  have opened : (name ++ colon :: Numerals.text 10 port).head? ≠ some openBracket := by
    cases name with
    | nil => simp [colon, openBracket]
    | cons first name => simpa using bare
  rw [read, write, if_neg opened, Delimited.after_marked whole, Delimited.before_marked whole, readPort_text,
    Option.map_some]

/-- A host with a colon in it is not read without brackets. -/
theorem read_unbracketed {name : List UInt8} (bare : name.head? ≠ some openBracket) (split : colon ∈ name)
    (port : Nat) : read (write (.name name) port) = none := by
  obtain ⟨before, behind, whole, rfl⟩ := (Delimited.first_mark colon name).resolve_left fun absent => absent split
  have opened : (before ++ colon :: behind ++ colon :: Numerals.text 10 port).head? ≠ some openBracket := by
    cases before with
    | nil => simp [colon, openBracket]
    | cons first before => simpa using bare
  have rest : Delimited.after colon (before ++ colon :: behind ++ colon :: Numerals.text 10 port) =
      behind ++ colon :: Numerals.text 10 port := by
    rw [List.append_assoc, List.cons_append, Delimited.after_marked whole]
  rw [read, write, if_neg opened, rest, readPort_colon (by simp), Option.map_none]

end Authorities
