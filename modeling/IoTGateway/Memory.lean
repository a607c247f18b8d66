import Mathlib.Logic.Basic

/-! Bytes, and the memory accesses of the C code that the language does not
check. An access outside its object is a fault, so a theorem that a function
returns is a theorem that it stays inside its buffers. -/

namespace IoTGateway

abbrev Bytes := List UInt8

/-- The bytes of an ASCII string literal of the source. -/
def ascii (literal : String) : Bytes := literal.toList.map fun char => char.toNat.toUInt8

/-- What a C or C++ expression can do besides returning. -/
inductive Fault where
  | readOutside (index : Nat)
  | writeOutside (index : Nat)
  /-- an unsigned length was decremented below zero -/
  | lengthWrap
  | nullPointer
  /-- `*m.end()`, what an unchecked `*m.find(k)` does when `k` is absent -/
  | endIterator
  /-- a loop model ran out of fuel -/
  | unbounded
  deriving Repr, DecidableEq

abbrev Checked := Except Fault

@[simp] theorem ok_bind (value : α) (next : α → Checked β) : (Except.ok value : Checked α) >>= next = next value := rfl

@[simp] theorem error_bind (fault : Fault) (next : α → Checked β) :
    (Except.error fault : Checked α) >>= next = .error fault := rfl

theorem bind_ok {first : Checked α} {next : α → Checked β} {result : β} (returned : first >>= next = .ok result) :
    ∃ value, first = .ok value ∧ next value = .ok result := by
  cases first with
  | error fault => cases returned
  | ok value => exact ⟨value, rfl, returned⟩

@[simp] theorem pure_eq_ok (value : α) : (pure value : Checked α) = .ok value := rfl

/-- `--n` on an unsigned number. -/
def decrement (n : Nat) : Checked Nat := if n = 0 then .error .lengthWrap else .ok (n - 1)

def readByte (buf : Bytes) (index : Nat) : Checked UInt8 :=
  match buf[index]? with
  | some byte => .ok byte
  | none => .error (.readOutside index)

/-- Store `bytes` at `index`; the fault names the first byte outside `buf`. -/
def writeBytes (buf : Bytes) (index : Nat) (bytes : Bytes) : Checked Bytes :=
  if index + bytes.length ≤ buf.length then
    .ok (buf.take index ++ bytes ++ buf.drop (index + bytes.length))
  else .error (.writeOutside (max index buf.length))

/-- The C string in `buf`, up to its terminator. -/
def cString (buf : Bytes) : Checked Bytes :=
  if 0 ∈ buf then .ok (buf.takeWhile (· != 0)) else .error (.readOutside buf.length)

/-- What a callee sees of a `std::string` handed over as `c_str()`: everything
after an embedded zero byte is lost. -/
def cStr (s : Bytes) : Bytes := s.takeWhile (· != 0)

end IoTGateway
