import IoTGateway.Memory

/-! CoAP messages as the handlers see them: `coap_pdu_t` with its options in
order, the option look-up and the response codes of libcoap's `pdu.h`. -/

namespace IoTGateway

def coapOptionLocationPath : Nat := 8
def coapOptionContentType : Nat := 12
def coapOptionMaxage : Nat := 14
def coapOptionUriQuery : Nat := 15
def coapMediatypeApplicationLinkFormat : Nat := 40

/-- A message: its code, its options as number and value in the order of the
datagram, and its payload if it has one. -/
structure CoapPdu where
  code : Nat := 0
  options : List (Nat × Bytes) := []
  data : Option Bytes := none
  deriving Repr, DecidableEq

/-- `COAP_RESPONSE_CODE(N)`, so 201 is the byte of 2.01. -/
def coapResponseCode (n : Nat) : Nat := (n / 100) <<< 5 ||| n % 100

def coapResponseClass (code : Nat) : Nat := code >>> 5 &&& 0xff

/-- What an option iterator filtered to `number` delivers, in this order. -/
def coapOptions (pdu : CoapPdu) (number : Nat) : List Bytes :=
  (pdu.options.filter (·.1 == number)).map Prod.snd

/-- `coap_check_option`: the first option of the requested type. -/
def coapCheckOption (pdu : CoapPdu) (number : Nat) : Option Bytes := (coapOptions pdu number).head?

/-- `coap_add_option`: options must be added in the order of their numbers. -/
def coapAddOption (pdu : CoapPdu) (number : Nat) (value : Bytes) : CoapPdu :=
  if (pdu.options.getLast?.any fun last => number < last.1) then { pdu with data := none }
  else { pdu with data := none, options := pdu.options ++ [(number, value)] }

/-- `coap_encode_var_bytes`: the bytes of a 32-bit value without leading zeros. -/
def coapEncodeVarBytes (val : UInt32) : Bytes :=
  [(val >>> 24).toUInt8, (val >>> 16).toUInt8, (val >>> 8).toUInt8, val.toUInt8].dropWhile (· == 0)

/-- `coap_get_data` and the copy into a `std::string`; without data the caller's
string stays empty. -/
def getPayload (pdu : CoapPdu) : Bytes :=
  match pdu.data with
  | some load => load
  | none => []

/-- `make_bad_request`, which despite its name writes every plain response. -/
def makeBadRequest (response : CoapPdu) (code : Nat) : CoapPdu :=
  let response := { response with code := coapResponseCode code }
  let response := coapAddOption response coapOptionContentType
    (coapEncodeVarBytes coapMediatypeApplicationLinkFormat.toUInt32)
  coapAddOption response coapOptionMaxage (coapEncodeVarBytes 0x2ffff)

def defaultHandleRequest (response : CoapPdu) : CoapPdu := makeBadRequest response 501
def badRequest (response : CoapPdu) : CoapPdu := makeBadRequest response 400
def changedRequest (response : CoapPdu) : CoapPdu := makeBadRequest response 200
def internalErrRequest (response : CoapPdu) : CoapPdu := makeBadRequest response 500

@[simp] theorem coapAddOption_code (pdu : CoapPdu) (number : Nat) (value : Bytes) :
    (coapAddOption pdu number value).code = pdu.code := by
  unfold coapAddOption
  split <;> rfl

@[simp] theorem makeBadRequest_code (response : CoapPdu) (code : Nat) :
    (makeBadRequest response code).code = coapResponseCode code := by
  simp [makeBadRequest]

example : (badRequest {}).options = [(12, [40]), (14, [2, 255, 255])] := by decide

end IoTGateway
