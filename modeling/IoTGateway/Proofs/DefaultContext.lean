import IoTGateway.Lib.Authority
import IoTGateway.Proofs.Address
import IoTGateway.Reference

/-! The default context as a URI. A reader takes the authority apart and the host
for an IPv4 address or, in brackets, for an IPv6 one; the gateway writes both
without brackets. -/

namespace IoTGateway.Proofs.DefaultContext
open Authorities Address

def dot : UInt8 := 46

/-- A decimal numeral of one octet, without leading zeros. -/
def readOctet (numeral : Bytes) : Option (BitVec 8) :=
  let value := Numerals.value 10 numeral
  if numeral = decimal value ∧ value < 256 then some (BitVec.ofNat 8 value) else none

def inetParse (text : Bytes) : Option (BitVec 32) :=
  match (text.splitOn dot).map readOctet with
  | [some a, some b, some c, some d] => some (a ++ b ++ c ++ d)
  | _ => none

def readHost (os : Platform) : Host → Option InetAddress
  | .literal address => (os.inet6Parse address).map .inet6
  | .name name => (inetParse name).map .inet

/-- The peer a client contacts when it dereferences `coap://host:port`. -/
def dereference (os : Platform) (uri : Bytes) : Option CoapAddress :=
  if ascii "coap://" <+: uri then
    match read (uri.drop (ascii "coap://").length) with
    | some (host, port) => if port < 65536 then (readHost os host).map (.ip · port.toUInt16) else none
    | none => none
  else none

private theorem dot_not_mem_decimal (n : Nat) : dot ∉ decimal n := fun member => by
  have := Numerals.isDecimal_of_text member
  revert this
  decide

private theorem readOctet_decimal (octet : BitVec 8) : readOctet (decimal octet.toNat) = some octet := by
  have value : Numerals.value 10 (decimal octet.toNat) = octet.toNat := Numerals.value_text (by decide) (by decide) _
  simp only [readOctet, value, octet.isLt, and_self, ite_true, BitVec.ofNat_toNat, BitVec.setWidth_eq]

private theorem octets_append (address : BitVec 32) :
    address.extractLsb' 24 8 ++ address.extractLsb' 16 8 ++ address.extractLsb' 8 8 ++ address.extractLsb' 0 8 =
      address := by
  have two : address.extractLsb' 24 8 ++ address.extractLsb' 16 8 = address.extractLsb' 16 16 :=
    BitVec.extractLsb'_append_extractLsb'_eq_extractLsb' rfl
  have three : address.extractLsb' 16 16 ++ address.extractLsb' 8 8 = address.extractLsb' 8 24 :=
    BitVec.extractLsb'_append_extractLsb'_eq_extractLsb' rfl
  have four : address.extractLsb' 8 24 ++ address.extractLsb' 0 8 = address.extractLsb' 0 32 :=
    BitVec.extractLsb'_append_extractLsb'_eq_extractLsb' rfl
  rw [two, three, four]
  exact BitVec.extractLsb'_eq_self

private theorem splitOn_inetText (address : BitVec 32) : (inetText address).splitOn dot =
    [24, 16, 8, 0].map fun start => decimal (address.extractLsb' start 8).toNat := by
  have absent (start : Nat) := dot_not_mem_decimal (address.extractLsb' start 8).toNat
  simp only [inetText, ← show dot = 46 from rfl, List.append_assoc, List.cons_append, List.map_cons, List.map_nil,
    List.splitOn_append_cons_self_of_not_mem (absent _), List.splitOn_eq_singleton (absent _)]

private theorem inetParse_inetText (address : BitVec 32) : inetParse (inetText address) = some address := by
  simp only [inetParse, splitOn_inetText, List.map_cons, List.map_nil, readOctet_decimal, octets_append]

private theorem inetText_bytes {address : BitVec 32} {byte : UInt8} (member : byte ∈ inetText address) :
    Numerals.isDecimal byte = true ∨ byte = dot := by
  simp only [inetText, List.mem_append, List.mem_cons] at member
  rcases member with ((first | rfl | second) | rfl | third) | rfl | fourth
  all_goals first
    | exact Or.inr rfl
    | exact Or.inl (Numerals.isDecimal_of_text ‹_›)

private theorem name_inetText (address : BitVec 32) :
    (inetText address).head? ≠ some openBracket ∧ colon ∉ inetText address := by
  constructor
  · intro opened
    rcases inetText_bytes (List.mem_of_head? opened) with digit | marked
    · exact absurd digit (by decide)
    · exact absurd marked (by decide)
  · intro split
    rcases inetText_bytes split with digit | marked
    · exact absurd digit (by decide)
    · exact absurd marked (by decide)

private theorem inet6Text_other (os : Platform) (address : BitVec 128) {byte : UInt8}
    (bracket : byte = openBracket ∨ byte = closeBracket) : byte ∉ os.inet6Text address := by
  intro member
  have plain := os.inet6Text_bytes address byte member
  rcases bracket with rfl | rfl
  · exact absurd plain (by decide)
  · exact absurd plain (by decide)

theorem dereference_write (os : Platform) (authority : Bytes) : dereference os (ascii "coap://" ++ authority) =
    match read authority with
    | some (host, port) => if port < 65536 then (readHost os host).map (.ip · port.toUInt16) else none
    | none => none := by
  rw [dereference, if_pos (List.prefix_append _ _), List.drop_left]

section
variable (os : Platform) (port : UInt16)

private theorem dereference_inet (address : BitVec 32) :
    dereference os (defaultCon os (.ip (.inet address) port)) = some (.ip (.inet address) port) := by
  obtain ⟨bare, whole⟩ := name_inetText address
  have found : read (inetText address ++ 58 :: decimal port.toNat) = some (.name (inetText address), port.toNat) :=
    read_name bare whole port.toNat
  have back : port.toNat.toUInt16 = port := by simp
  simp only [defaultCon, inetNtopText, dereference_write, found, port.toNat_lt, ite_true, readHost, inetParse_inetText,
    Option.map_some, back]

/-- The text of an IPv6 peer is no URI: its first colon ends the host. -/
theorem dereference_inet6 (address : BitVec 128) :
    dereference os (defaultCon os (.ip (.inet6 address) port)) = none := by
  have bare : (os.inet6Text address).head? ≠ some openBracket := fun opened =>
    inet6Text_other os address (Or.inl rfl) (List.mem_of_head? opened)
  have found : read (os.inet6Text address ++ 58 :: decimal port.toNat) = none :=
    read_unbracketed bare (os.inet6Text_colon address) port.toNat
  simp only [defaultCon, inetNtopText, dereference_write, found]

/-- With its brackets the same text would lead back to the peer. -/
theorem dereference_bracketed (address : BitVec 128) :
    dereference os (ascii "coap://" ++ write (.literal (os.inet6Text address)) port.toNat) =
      some (.ip (.inet6 address) port) := by
  have closed := inet6Text_other os address (Or.inr rfl)
  have back : port.toNat.toUInt16 = port := by simp
  simp only [dereference_write, read_literal closed, port.toNat_lt, ite_true, readHost, os.inet6Parse_text,
    Option.map_some, back]

end

/-- The default context is never cut off, and leads back to the peer exactly when
the peer has an IPv4 address. -/
theorem getDefaultCon_decodes_iff (os : Platform) (address : InetAddress) (port : UInt16) : ∃ con,
    getDefaultCon os (.ip address port) = .ok con ∧
      con = ascii "coap://" ++ (inetNtopText os address ++ 58 :: decimal port.toNat) ∧
      (dereference os con = some (.ip address port) ↔ address.isInet6 = false) := by
  refine ⟨_, getDefaultCon_eq os _, rfl, ?_⟩
  cases address with
  | inet address => exact iff_of_true (dereference_inet os port address) rfl
  | inet6 address =>
    rw [dereference_inet6]
    exact iff_of_false (by simp) (by simp [InetAddress.isInet6])

/-- A peer on the documentation prefix, at port 5683: the first colon ends the
host, and what follows is no port. -/
theorem unbracketed_undecodable :
    getDefaultCon .reference (.ip (.inet6 0x20010db8000100020003000400050006) 5683) =
      .ok (ascii "coap://2001:db8:1:2:3:4:5:6:5683") ∧
    dereference .reference (ascii "coap://2001:db8:1:2:3:4:5:6:5683") = none := by
  decide

end IoTGateway.Proofs.DefaultContext
