import IoTGateway.Memory
import IoTGateway.Lib.Numeral

/-! The C library and the operating system, as far as the gateway relies on
them. What C leaves open, or what another package decides, is a field. -/

namespace IoTGateway

/-- The address family and address of `coap_address_t`, in host byte order. -/
inductive InetAddress where
  | inet (address : BitVec 32)
  | inet6 (address : BitVec 128)
  deriving Repr, DecidableEq

/-- `coap_address_t`: an IPv4 or IPv6 peer with its port, or another family. -/
inductive CoapAddress where
  | ip (address : InetAddress) (port : UInt16)
  | other (family : Nat)
  deriving Repr, DecidableEq

def inet6Addrstrlen : Nat := 46

structure Platform where
  /-- the first `rand()` after `srand(seed)`, between 0 and `RAND_MAX` -/
  rand : UInt32 → Fin 2147483648
  /-- `atoi` of a numeral that does not fit an `int`, which C leaves undefined -/
  atoiOutside : Int → Int32
  /-- the text `inet_ntop` gives for an IPv6 address -/
  inet6Text : BitVec 128 → Bytes
  /-- `inet_pton` on such a text -/
  inet6Parse : Bytes → Option (BitVec 128)
  inet6Text_length : ∀ address, (inet6Text address).length < inet6Addrstrlen
  /-- the text is made of hexadecimal digits, colons and dots -/
  inet6Text_bytes : ∀ address, ∀ byte ∈ inet6Text address,
    (48 ≤ byte ∧ byte ≤ 57) ∨ (97 ≤ byte ∧ byte ≤ 102) ∨ byte = 58 ∨ byte = 46
  inet6Text_colon : ∀ address, 58 ∈ inet6Text address
  inet6Parse_text : ∀ address, inet6Parse (inet6Text address) = some address

/-- `%d` of a number that is not negative. -/
def decimal (n : Nat) : Bytes := Numerals.text 10 n

/-- `%x`. -/
def hexadecimal (n : Nat) : Bytes := Numerals.text 16 n

/-- `%d` of an `int`. -/
def formatInt (n : Int32) : Bytes :=
  if n < 0 then 45 :: decimal n.toInt.natAbs else decimal n.toInt.natAbs

/-- The dotted decimal text of an IPv4 address. -/
def inetText (address : BitVec 32) : Bytes :=
  decimal (address.extractLsb' 24 8).toNat ++ 46 :: decimal (address.extractLsb' 16 8).toNat ++
    46 :: decimal (address.extractLsb' 8 8).toNat ++ 46 :: decimal (address.extractLsb' 0 8).toNat

def isDigit (byte : UInt8) : Bool := 48 ≤ byte && byte ≤ 57

/-- `isspace` in the C locale. -/
def isSpace (byte : UInt8) : Bool := byte == 32 || (9 ≤ byte && byte ≤ 13)

/-- The number a numeral with an optional sign stands for. -/
def signedValue : Bytes → Int
  | 45 :: digits => -(Numerals.value 10 (digits.takeWhile isDigit) : Int)
  | 43 :: digits => Numerals.value 10 (digits.takeWhile isDigit)
  | digits => Numerals.value 10 (digits.takeWhile isDigit)

/-- `atoi`: blanks, an optional sign and digits, up to the first other byte. -/
def atoi (os : Platform) (text : Bytes) : Int32 :=
  let number := signedValue (text.dropWhile isSpace)
  if -2147483648 ≤ number ∧ number ≤ 2147483647 then Int32.ofInt number else os.atoiOutside number

/-- The text `inet_ntop` gives. -/
def inetNtopText (os : Platform) : InetAddress → Bytes
  | .inet address => inetText address
  | .inet6 address => os.inet6Text address

end IoTGateway
