import Collective.Decimal.Binary

/-!
# Payload types

The values that travel through a group: numbers, truth values, texts, byte strings and lists. A list
holds elements of one type, lists among them; a byte is only ever an element.
-/

namespace Collective

/-- Types of numbers. -/
inductive NumericType where
  | i32
  | i64
  | u32
  | u64
  | f32
  | f64
  deriving DecidableEq, Repr

/-- Types of elements of lists. -/
inductive ElementType where
  | u8
  | numeric (type : NumericType)
  | bool
  | string
  | list (element : ElementType)
  deriving DecidableEq, Repr

/-- Types of payloads. -/
inductive PayloadType where
  | numeric (type : NumericType)
  | bool
  | string
  | bytes
  | list (element : ElementType)
  deriving DecidableEq, Repr

/-- The values of a type of numbers. -/
@[reducible] def NumericType.Carrier : NumericType → Type
  | .i32 => Int32
  | .i64 => Int64
  | .u32 => UInt32
  | .u64 => UInt64
  | .f32 => Binary32
  | .f64 => Binary64

/-- The values of an element type. -/
@[reducible] def ElementType.Carrier : ElementType → Type
  | .u8 => UInt8
  | .numeric type => type.Carrier
  | .bool => Bool
  | .string => String
  | .list element => List element.Carrier

/-- The values of a payload type. -/
@[reducible] def PayloadType.Carrier : PayloadType → Type
  | .numeric type => type.Carrier
  | .bool => Bool
  | .string => String
  | .bytes => Bytes
  | .list element => List element.Carrier

/-- The short name of a type of numbers. -/
def NumericType.name : NumericType → String
  | .i32 => "i32"
  | .i64 => "i64"
  | .u32 => "u32"
  | .u64 => "u64"
  | .f32 => "f32"
  | .f64 => "f64"

/-- The qualified name by which messages call an element type. -/
def ElementType.qualifiedName : ElementType → String
  | .u8 => "u8"
  | .numeric type => type.name
  | .bool => "bool"
  | .string => "alloc::string::String"
  | .list element => s!"alloc::vec::Vec<{element.qualifiedName}>"

/-- The qualified name by which messages call a payload type. -/
def PayloadType.qualifiedName : PayloadType → String
  | .numeric type => type.name
  | .bool => "bool"
  | .string => "alloc::string::String"
  | .bytes => "bytes::bytes::Bytes"
  | .list element => s!"alloc::vec::Vec<{element.qualifiedName}>"

end Collective
