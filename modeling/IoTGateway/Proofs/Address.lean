import IoTGateway.Address
import IoTGateway.Lib.Delimited

/-! The default context is the whole text of the peer: the buffer of its only
caller is long enough for every address and port. -/

namespace IoTGateway.Proofs.Address

private theorem zero_not_mem_decimal (n : Nat) : 0 ∉ decimal n := fun member => by
  have := Numerals.text_bytes (by decide) (by decide) member
  revert this
  decide

private theorem decimal_length {n width : Nat} (some : 0 < width) (bound : n < 10 ^ width) :
    (decimal n).length ≤ width :=
  Numerals.text_length (by decide) some bound

private theorem inetText_length (address : BitVec 32) : (inetText address).length ≤ 15 := by
  have three (start : Nat) : (decimal (address.extractLsb' start 8).toNat).length ≤ 3 :=
    decimal_length (by decide) (Nat.lt_trans (address.extractLsb' start 8).isLt (by decide))
  have := three 24
  have := three 16
  have := three 8
  have := three 0
  simp only [inetText, List.length_append, List.length_cons]
  omega

private theorem inetNtopText_length (os : Platform) (address : InetAddress) :
    (inetNtopText os address).length < inet6Addrstrlen := by
  cases address with
  | inet address => exact Nat.lt_of_le_of_lt (inetText_length address) (by decide)
  | inet6 address => exact os.inet6Text_length address

theorem zero_not_mem_inetNtopText (os : Platform) (address : InetAddress) : 0 ∉ inetNtopText os address := by
  cases address with
  | inet address => simp [inetNtopText, inetText, zero_not_mem_decimal]
  | inet6 address =>
    intro member
    have := os.inet6Text_bytes address 0 member
    revert this
    decide

private theorem port_length (port : UInt16) : (decimal port.toNat).length ≤ 5 :=
  decimal_length (by decide) (Nat.lt_trans port.toNat_lt (by decide))

theorem cString_terminated {text : Bytes} (clean : 0 ∉ text) (rest : Bytes) :
    cString (text ++ 0 :: rest) = .ok text := by
  have whole : (text ++ 0 :: rest).takeWhile (· != 0) = text := Delimited.before_marked clean
  simp [cString, whole]

theorem strnlen_terminated {text : Bytes} (clean : 0 ∉ text) (rest : Bytes) {len : Nat} (fits : text.length < len) :
    strnlen (text ++ 0 :: rest) len = text.length := by
  obtain ⟨more, rfl⟩ : ∃ more, len = text.length + (more + 1) := ⟨len - text.length - 1, by omega⟩
  have whole : (text ++ 0 :: rest.take more).takeWhile (· != 0) = text := Delimited.before_marked clean
  simp [strnlen, List.take_append, List.take_of_length_le, whole]

theorem writeBytes_behind (front text buf : Bytes) (fits : text.length ≤ buf.length) :
    writeBytes (front ++ buf) front.length text = .ok (front ++ (text ++ buf.drop text.length)) := by
  simp [writeBytes, fits, List.drop_append, List.drop_of_length_le]

theorem snprintf_fits (front text buf : Bytes) {size : Nat} (room : text.length < size)
    (fits : text.length < buf.length) : snprintf (front ++ buf) front.length size text =
      .ok (text.length, front ++ (text ++ 0 :: buf.drop (text.length + 1))) := by
  have positive : size ≠ 0 := by omega
  have whole : text.take (size - 1) = text := List.take_of_length_le (by omega)
  simp only [snprintf, positive, ite_false, whole]
  rw [writeBytes_behind front (text ++ [0]) buf (by simpa using fits)]
  simp

theorem inetNtop_fits (os : Platform) (address : InetAddress) {buf : Bytes} {len : Nat}
    (room : (inetNtopText os address).length < len) (fits : len ≤ buf.length) :
    inetNtop os address buf len =
      .ok (some (inetNtopText os address ++ 0 :: buf.drop ((inetNtopText os address).length + 1))) := by
  have written := writeBytes_behind [] (inetNtopText os address ++ [0]) buf (by simp; omega)
  simp only [List.nil_append, List.length_nil] at written
  simp [inetNtop, room, written]

/-- With seven bytes to spare behind the longest address, the address and the
port are written whole and terminated. -/
theorem addressToString_fits (os : Platform) (address : InetAddress) (port : UInt16) (buf : Bytes) {len : Nat}
    (room : inet6Addrstrlen + 7 ≤ len) (whole : buf.length = len) :
    ∃ result rest, addressToString os (.ip address port) buf len =
      .ok (result, inetNtopText os address ++ 58 :: decimal port.toNat ++ 0 :: rest) := by
  have short := inetNtopText_length os address
  have digits := port_length port
  have clean := zero_not_mem_inetNtopText os address
  have long : ¬ len < 7 := by simp only [inet6Addrstrlen] at room; omega
  have inside : (inetNtopText os address).length < len := by omega
  have bounded : (58 :: decimal port.toNat).length < len - (inetNtopText os address).length + 1 := by
    rw [List.length_cons]
    omega
  have printed := snprintf_fits (inetNtopText os address) (58 :: decimal port.toNat)
    (0 :: buf.drop ((inetNtopText os address).length + 1)) bounded (by simp; omega)
  simp only [addressToString, long, decide_false, Bool.and_false, Bool.false_eq_true, ite_false,
    inetNtop_fits os address inside whole.ge, ok_bind, strnlen_terminated clean _ inside, inside, decide_true,
    Bool.not_true, printed, pure_eq_ok, List.append_assoc, List.cons_append]
  exact ⟨_, _, rfl⟩

def defaultCon (os : Platform) : CoapAddress → Bytes
  | .ip address port => ascii "coap://" ++ (inetNtopText os address ++ 58 :: decimal port.toNat)
  | .other _ => ascii "coap://(unknown address type)"

theorem getDefaultCon_eq (os : Platform) (peer : CoapAddress) : getDefaultCon os peer = .ok (defaultCon os peer) := by
  cases peer with
  | ip address port =>
    have room : inet6Addrstrlen + 7 ≤ inet6Addrstrlen + 8 := by decide
    obtain ⟨result, rest, written⟩ :=
      addressToString_fits os address port (List.replicate (inet6Addrstrlen + 8) 0) room (by decide)
    have clean : 0 ∉ inetNtopText os address ++ 58 :: decimal port.toNat := by
      simp [zero_not_mem_inetNtopText, zero_not_mem_decimal]
    simp only [getDefaultCon, written, ok_bind, cString_terminated clean, pure_eq_ok, defaultCon]
  | other family => rfl

theorem defaultCon_ne_nil (os : Platform) (peer : CoapAddress) : defaultCon os peer ≠ [] := by
  cases peer with
  | ip address port => exact List.append_ne_nil_of_left_ne_nil (by decide) _
  | other family =>
    rw [defaultCon]
    decide

end IoTGateway.Proofs.Address
