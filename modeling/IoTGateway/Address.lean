import IoTGateway.Platform

/-! The peer's address as text: `address_to_string` on a buffer of its caller,
and the default context made from it. A write at or beyond the end of the
buffer is a fault. -/

namespace IoTGateway

/-- The value of a `size_t` expression. -/
def sizeT (n : Int) : Nat := (n % 2 ^ 64).toNat

def strnlen (buf : Bytes) (len : Nat) : Nat := ((buf.take len).takeWhile (· != 0)).length

/-- `snprintf(buf + index, size, ...)` of a text: what fits before the
terminator, and the terminator. It returns the length of the whole text. -/
def snprintf (buf : Bytes) (index size : Nat) (text : Bytes) : Checked (Nat × Bytes) :=
  if size = 0 then .ok (text.length, buf)
  else do
    let buf ← writeBytes buf index (text.take (size - 1) ++ [0])
    return (text.length, buf)

/-- `inet_ntop`: the text and its terminator if both fit into `len`, else a null
result and nothing written. -/
def inetNtop (os : Platform) (address : InetAddress) (buf : Bytes) (len : Nat) : Checked (Option Bytes) :=
  let text := inetNtopText os address
  if text.length < len then do
    let buf ← writeBytes buf 0 (text ++ [0])
    return some buf
  else return none

def InetAddress.isInet6 : InetAddress → Bool
  | .inet _ => false
  | .inet6 _ => true

/-- `address_to_string`: the result and the buffer afterwards. The space handed
to `snprintf` is `buf + len - p + 1`, one more than what is left. -/
def addressToString (os : Platform) (addr : CoapAddress) (buf : Bytes) (len : Nat) : Checked (Nat × Bytes) :=
  match addr with
  | .other _ => do
    let buf ← writeBytes buf 0 ((ascii "(unknown address type)").take (min 22 len))
    return (min 22 len, buf)
  | .ip address port =>
    if address.isInet6 && len < 7 then .ok (0, buf)
    else do
      match ← inetNtop os address buf len with
      | none => return (0, buf)
      | some buf =>
        let p := strnlen buf len
        if address.isInet6 && !(p < len) then return (0, buf)
        else
          let (written, buf) ← snprintf buf p (len - p + 1) (58 :: decimal port.toNat)
          return (sizeT ((len : Int) - (p + written : Nat)), buf)

/-- `get_default_con`, on a zeroed buffer of `INET6_ADDRSTRLEN+8` bytes. -/
def getDefaultCon (os : Platform) (peer : CoapAddress) : Checked Bytes := do
  let addr := List.replicate (inet6Addrstrlen + 8) 0
  let (_, addr) ← addressToString os peer addr (inet6Addrstrlen + 8)
  let text ← cString addr
  return ascii "coap://" ++ text

end IoTGateway
