import Collective.Codec.Kind
import Collective.Decimal.Binary
import Collective.Text.Utf8

/-!
# Codecs

A codec maps values to byte strings and back. The fixed codecs carry byte strings as they are,
texts as UTF-8 and numbers as words with the most significant byte first; a number is carried by
its bits, so that infinities and NaNs come back as they were sent.
-/

namespace Collective

/-- Why bytes could not be decoded. -/
inductive DecodeFault where
  /-- The bytes are not the JSON text of a value of the type. -/
  | json
  /-- `what` takes `expected` bytes. -/
  | width (expected : Nat) (what : String) (got : Nat)
  | utf8 (fault : Utf8.Fault)
  /-- A fault that a codec words itself. -/
  | worded (text : String)
  deriving DecidableEq, Repr

/-- The wording of a fault. -/
def DecodeFault.message : DecodeFault → String
  | .json => "malformed JSON"
  | .width expected what got => s!"expected {expected} bytes for {what}, got {got}"
  | .utf8 fault => fault.message
  | .worded text => text

/-- Why a codec failed. -/
inductive CodecError where
  | encode (text : String)
  | decode (fault : DecodeFault)
  /-- Codecs of the kind do not carry values of the type. -/
  | unsupported (kind : String) (typeName : String)
  deriving DecidableEq, Repr

/-- The wording of a codec error. -/
def CodecError.message : CodecError → String
  | .encode text => s!"failed to encode message: {text}"
  | .decode fault => s!"failed to decode message: {fault.message}"
  | .unsupported kind typeName => s!"codec '{kind}' cannot carry values of type {typeName}"

/-- A way to write values as bytes and to read them. -/
structure Codec (α : Type) where
  encode : α → Except CodecError Bytes
  decode : Bytes → Except CodecError α

namespace Codec

/-- Byte strings as they are. -/
def bytes : Codec Bytes where
  encode := .ok
  decode := .ok

/-- Texts as UTF-8. -/
def utf8 : Codec String where
  encode text := .ok (Utf8.encode text)
  decode data := (Utf8.decode data).mapError fun fault => .decode (.utf8 fault)

/-- A word of `width` bytes, if that many are given; `what` names it in the error. -/
def word (width : Nat) (what : String) (data : Bytes) : Except CodecError Nat :=
  if data.length = width then .ok (Bytes.toNat data)
  else .error (.decode (.width width what data.length))

/-- Integers as eight bytes. -/
def integer : Codec Int64 where
  encode value := .ok (Bytes.ofNat 8 value.toUInt64.toNat)
  decode data := (word 8 "an integer" data).map fun n => (UInt64.ofNat n).toInt64

/-- Doubles as eight bytes. -/
def double : Codec Binary64 where
  encode value := .ok (Bytes.ofNat 8 value.bits.toNat)
  decode data := (word 8 "a double" data).map fun n => ⟨UInt64.ofNat n⟩

/-- Singles as four bytes. -/
def single : Codec Binary32 where
  encode value := .ok (Bytes.ofNat 4 value.bits.toNat)
  decode data := (word 4 "a float" data).map fun n => ⟨UInt32.ofNat n⟩

end Codec

end Collective
