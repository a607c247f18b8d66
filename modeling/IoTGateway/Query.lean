import IoTGateway.Lib.Loop
import IoTGateway.Message
import IoTGateway.Platform

/-! The query scanner `parse_param` and the look-ups built on it. The scanner
keeps a pointer into the option and the number of bytes it believes are left;
every access through the pointer is checked against the option. -/

namespace IoTGateway

def amp : UInt8 := 38
def equals : UInt8 := 61

/-- `str`: a slice of a buffer, here by the index of its first byte. -/
structure Str where
  s : Option Nat := none
  length : Nat := 0
  deriving Repr, DecidableEq

/-- `std::string::assign` from a slice of `buf`. -/
def Str.assign (v : Str) (buf : Bytes) : Checked Bytes :=
  match v.s with
  | none => .error .nullPointer
  | some start =>
    if start + v.length ≤ buf.length then .ok ((buf.drop start).take v.length)
    else .error (.readOutside buf.length)

/-- The scanner's variables `data`, as an index into the option, and `data_len`. -/
structure Cursor where
  data : Nat
  dataLen : Nat
  deriving Repr, DecidableEq

/-- `memcmp(search, buf + index, search_len) == 0`; all the bytes may be read. -/
def memcmp : Bytes → Bytes → Nat → Checked Bool
  | [], _, _ => .ok true
  | byte :: search, buf, index => do
    let other ← readByte buf index
    let same ← memcmp search buf (index + 1)
    return byte == other && same

/-- `while (--data_len && *data++ != '&');` -/
def skipSegment (buf : Bytes) (data : Nat) : Nat → Checked Cursor
  | 0 => .error .lengthWrap
  | 1 => .ok ⟨data, 0⟩
  | len + 2 => do
    let byte ← readByte buf data
    if byte == amp then return ⟨data + 1, len + 1⟩ else skipSegment buf (data + 1) (len + 1)

/-- `while (data_len && *data != '=') { ++data; --data_len; }` -/
def seekEquals (buf : Bytes) (data : Nat) : Nat → Checked Cursor
  | 0 => .ok ⟨data, 0⟩
  | len + 1 => do
    let byte ← readByte buf data
    if byte == equals then return ⟨data, len + 1⟩ else seekEquals buf (data + 1) len

/-- `while (--data_len && *data != '&') { ++data; result->length++; }` -/
def valueLength (buf : Bytes) (data length : Nat) : Nat → Checked Nat
  | 0 => .error .lengthWrap
  | 1 => .ok length
  | len + 2 => do
    let byte ← readByte buf data
    if byte == amp then return length else valueLength buf (data + 1) (length + 1) (len + 1)

/-- `!data_len || *data == '=' || *data == '&'` -/
def endsKey (buf : Bytes) (past : Cursor) : Checked Bool :=
  if past.dataLen = 0 then return true
  else do
    let byte ← readByte buf past.data
    return byte == equals || byte == amp

/-- The result slice once the key has matched and `past` stands behind it. -/
def readValue (buf : Bytes) (past : Cursor) : Checked Str := do
  let mark ← seekEquals buf past.data past.dataLen
  if 1 < mark.dataLen then
    let length ← valueLength buf (mark.data + 1) 0 mark.dataLen
    return { s := some (mark.data + 1), length }
  else return {}

/-- One evaluation of the outer loop's condition and body. A key found in the
middle of a longer name leaves the cursor behind it before the segment is
skipped. -/
def parseParamRound (search buf : Bytes) (cursor : Cursor) : Checked (Cursor ⊕ (Bool × Str)) := do
  if search.length ≤ cursor.dataLen then
    if ← memcmp search buf cursor.data then
      let past : Cursor := ⟨cursor.data + search.length, cursor.dataLen - search.length⟩
      if ← endsKey buf past then
        let result ← readValue buf past
        return .inr (true, result)
      else return .inl (← skipSegment buf past.data past.dataLen)
    else return .inl (← skipSegment buf cursor.data cursor.dataLen)
  else return .inr (false, {})

/-- `parse_param` with the flag 1 as `true`. Each round drops at least one byte,
so the fuel is one more than the length of the option. -/
def parseParam (search data : Bytes) : Checked (Bool × Str) :=
  if search.length = 0 then .ok (false, {})
  else do
    match ← Loops.iterate (parseParamRound search data) (data.length + 1) ⟨0, data.length⟩ with
    | some answer => return answer
    | none => throw .unbounded

/-- `parse_param` together with the bytes its result slice covers. -/
def readParam (search data : Bytes) : Checked (Bool × Bytes) := do
  let (found, v) ← parseParam search data
  if 0 < v.length then return (found, ← v.assign data) else return (found, [])

/-- `query_value`: only the first Uri-Query option is searched, and an empty
value leaves the caller's variable alone. -/
def queryValue (pdu : CoapPdu) (key value : Bytes) : Checked Bytes :=
  match coapCheckOption pdu coapOptionUriQuery with
  | none => .ok value
  | some query => do
    let (_, v) ← parseParam key query
    if 0 < v.length then v.assign query else return value

def findDomainEpFromQuery (pdu : CoapPdu) (domain ep : Bytes) : Checked (Bytes × Bytes) := do
  let domain ← queryValue pdu (ascii "d") domain
  let ep ← queryValue pdu (ascii "ep") ep
  return (domain, ep)

def getDomainAndEndpointIdentifier (request : CoapPdu) (domain ep : Bytes) : Checked (Bytes × Bytes) :=
  findDomainEpFromQuery request domain ep

def getQueryValue (request : CoapPdu) (key value : Bytes) : Checked Bytes := queryValue request key value

/-- `get_query_value` into an `int`. -/
def getQueryValueInt (os : Platform) (request : CoapPdu) (key : Bytes) (value : Int32) : Checked Int32 := do
  let tmp ← queryValue request key []
  if tmp.isEmpty then return value else return atoi os (cStr tmp)

end IoTGateway
