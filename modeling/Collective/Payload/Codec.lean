import Collective.Codec.Basic
import Collective.Json.Float
import Collective.Json.Parser
import Collective.Json.Printer
import Collective.Payload.Type

/-!
# Codecs for payload types

Every payload type but byte strings can be carried as JSON. Beyond that a type is carried by the
fixed codec made for it, and no other pairing of type and kind has a codec.
-/

namespace Collective

/-! ## JSON forms -/

/-- The JSON form of a number. -/
def NumericType.toJson : (type : NumericType) → type.Carrier → Json
  | .i32, value => .ofInt value.toInt
  | .i64, value => .ofInt value.toInt
  | .u32, value => .ofInt value.toNat
  | .u64, value => .ofInt value.toNat
  | .f32, value => .ofBinary32 value
  | .f64, value => .ofBinary64 value

/-- The number that a JSON value is the form of. -/
def NumericType.ofJson? : (type : NumericType) → Json → Option type.Carrier
  | .i32, j => (j.int? (-(2 ^ 31)) (2 ^ 31 - 1)).map Int32.ofInt
  | .i64, j => (j.int? (-(2 ^ 63)) (2 ^ 63 - 1)).map Int64.ofInt
  | .u32, j => (j.nat? (2 ^ 32)).map UInt32.ofNat
  | .u64, j => j.word?
  | .f32, j => j.binary32?
  | .f64, j => j.binary64?

/-- The JSON form of an element. -/
def ElementType.toJson : (type : ElementType) → type.Carrier → Json
  | .u8, value => .ofInt value.toNat
  | .numeric type, value => type.toJson value
  | .bool, value => .bool value
  | .string, value => .ofString value
  | .list element, values => .array (values.map element.toJson)

/-- The element that a JSON value is the form of. -/
def ElementType.ofJson? : (type : ElementType) → Json → Option type.Carrier
  | .u8, j => (j.nat? (2 ^ 8)).map UInt8.ofNat
  | .numeric type, j => type.ofJson? j
  | .bool, j => j.bool?
  | .string, j => j.string?
  | .list element, j => j.items?.bind fun items => items.mapM element.ofJson?

/-! ## Resolution -/

namespace Codec

/-- JSON texts, for values with a JSON form. -/
def json (toJson : α → Json) (ofJson? : Json → Option α) : Codec α where
  encode value := .ok (toJson value).print
  decode data :=
    match (Json.parse? data).bind ofJson? with
    | some value => .ok value
    | none => .error (.decode .json)

end Codec

namespace PayloadType

/-- The JSON form of a list of elements. What a text holds nests less than 128 deep where it is read
(`Json.maxLevels`); that is not checked here, so this is the codec of lists of lists only of types
that nest less deeply. Those in use nest at most twice. -/
def listCodec (element : ElementType) : Codec (List element.Carrier) :=
  .json (ElementType.toJson (.list element)) (ElementType.ofJson? (.list element))

/-- The codec of a kind for values of a type. -/
def codec : (type : PayloadType) → CodecKind → Except CodecError (Codec type.Carrier)
  | .numeric type, .json => .ok (.json type.toJson type.ofJson?)
  | .bool, .json => .ok (.json .bool Json.bool?)
  | .string, .json => .ok (.json .ofString Json.string?)
  | .list element, .json => .ok (listCodec element)
  | .numeric .i64, .integer => .ok .integer
  | .numeric .f64, .double => .ok .double
  | .numeric .f32, .double => .ok .single
  | .string, .utf8 => .ok .utf8
  | .bytes, .bytes => .ok .bytes
  | type, kind => .error (.unsupported kind.name type.qualifiedName)

end PayloadType

end Collective
