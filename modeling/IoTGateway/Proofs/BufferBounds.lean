import IoTGateway.Proofs.Address
import IoTGateway.Reference

/-! Which writes of `address_to_string` stay inside the buffer of its caller.
The space handed to `snprintf` counts one byte too many, so the port may only be
cut off where nothing is written. -/

namespace IoTGateway.Proofs.BufferBounds
open Address

/-- Either the call stops before the port, or the address, the port and the
terminator all fit. -/
def PortFits (os : Platform) (len : Nat) : CoapAddress → Prop
  | .other _ => True
  | .ip address port =>
    (address.isInet6 = true ∧ len < 7) ∨ len ≤ (inetNtopText os address).length ∨
      (inetNtopText os address).length + (58 :: decimal port.toNat).length < len

private theorem writeBytes_within_iff (buf bytes : Bytes) (index : Nat) :
    (∃ after, writeBytes buf index bytes = .ok after) ↔ index + bytes.length ≤ buf.length := by
  unfold writeBytes
  split
  next inside => exact ⟨fun _ => inside, fun _ => ⟨_, rfl⟩⟩
  next outside =>
    constructor
    · intro written
      obtain ⟨after, written⟩ := written
      cases written
    · intro inside
      exact absurd inside outside

/-- What `snprintf` writes is cut to the size it is told, with room for a
terminator. -/
theorem snprintf_within_iff (buf text : Bytes) (index : Nat) {size : Nat} (some : 0 < size) :
    (∃ printed, snprintf buf index size text = .ok printed) ↔ index + min (size - 1) text.length < buf.length := by
  have bytes := writeBytes_within_iff buf (text.take (size - 1) ++ [0]) index
  rw [List.length_append, List.length_take, List.length_singleton, ← Nat.add_assoc, Nat.succ_le_iff] at bytes
  rw [← bytes]
  simp only [snprintf, Nat.pos_iff_ne_zero.mp some, ite_false]
  constructor
  · intro printed
    obtain ⟨printed, returned⟩ := printed
    cases written : writeBytes buf index (text.take (size - 1) ++ [0]) with
    | error fault =>
      rw [written] at returned
      cases returned
    | ok after => exact ⟨after, rfl⟩
  · intro written
    obtain ⟨after, written⟩ := written
    rw [written]
    exact ⟨_, rfl⟩

private theorem inetNtop_short (os : Platform) (address : InetAddress) (buf : Bytes) {len : Nat}
    (short : len ≤ (inetNtopText os address).length) : inetNtop os address buf len = .ok none := by
  simp [inetNtop, Nat.not_lt.mpr short]

private theorem addressToString_port (os : Platform) (address : InetAddress) (port : UInt16) (buf : Bytes)
    (proceeds : ¬ (address.isInet6 = true ∧ buf.length < 7)) (fits : (inetNtopText os address).length < buf.length) :
    (∃ result, addressToString os (.ip address port) buf buf.length = .ok result) ↔
      ∃ printed, snprintf (inetNtopText os address ++ 0 :: buf.drop ((inetNtopText os address).length + 1))
        (inetNtopText os address).length (buf.length - (inetNtopText os address).length + 1)
        (58 :: decimal port.toNat) = .ok printed := by
  have clean := zero_not_mem_inetNtopText os address
  have enters : (address.isInet6 && decide (buf.length < 7)) = false := by
    rw [Bool.and_eq_false_iff, decide_eq_false_iff_not]
    by_cases six : address.isInet6 = true
    · exact Or.inr fun short => proceeds ⟨six, short⟩
    · exact Or.inl (Bool.eq_false_iff.mpr six)
  simp only [addressToString, enters, Bool.false_eq_true, ite_false, inetNtop_fits os address fits (Nat.le_refl _),
    ok_bind, strnlen_terminated clean _ fits, fits, decide_true, Bool.not_true, Bool.and_false]
  cases snprintf (inetNtopText os address ++ 0 :: buf.drop ((inetNtopText os address).length + 1))
    (inetNtopText os address).length (buf.length - (inetNtopText os address).length + 1)
    (58 :: decimal port.toNat) with
  | error fault => simp
  | ok printed => exact iff_of_true ⟨_, rfl⟩ ⟨_, rfl⟩

/-- No byte is written at or behind the end of the buffer exactly when the port
fits behind the address or is not printed at all. -/
theorem addressToString_within_iff (os : Platform) (addr : CoapAddress) (buf : Bytes) :
    (∃ result, addressToString os addr buf buf.length = .ok result) ↔ PortFits os buf.length addr := by
  cases addr with
  | other family =>
    have inside : min 22 buf.length ≤ buf.length := Nat.min_le_right _ _
    have text : (ascii "(unknown address type)").length = 22 := by decide
    simp [addressToString, PortFits, writeBytes, text]
  | ip address port =>
    rw [PortFits]
    by_cases stops : address.isInet6 = true ∧ buf.length < 7
    · exact iff_of_true ⟨(0, buf), by simp [addressToString, stops]⟩ (Or.inl stops)
    · by_cases fits : (inetNtopText os address).length < buf.length
      · have length : (inetNtopText os address ++ 0 :: buf.drop ((inetNtopText os address).length + 1)).length =
            buf.length := by
          simp only [List.length_append, List.length_cons, List.length_drop]
          omega
        rw [addressToString_port os address port buf stops fits, snprintf_within_iff _ _ _ (Nat.succ_pos _), length]
        simp only [stops, false_or, Nat.not_le.mpr fits]
        omega
      · have short := Nat.not_lt.mp fits
        refine iff_of_true ⟨(0, buf), ?_⟩ (Or.inr (Or.inl short))
        have enters : (address.isInet6 && decide (buf.length < 7)) = false := by
          simpa using stops
        simp [addressToString, enters, inetNtop_short os address buf short]

/-- `1.2.3.4` and its terminator fit into eight bytes; the colon of the port
takes the last one, and its terminator the one behind the buffer. -/
theorem port_outside_buffer :
    addressToString Platform.reference (.ip (.inet 0x01020304) 5683) (List.replicate 8 0) 8 =
      .error (.writeOutside 8) := by
  decide

end IoTGateway.Proofs.BufferBounds
