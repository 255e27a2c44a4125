import Collective.Json.Number
import Collective.Text.Utf8

/-!
# JSON values

A value keeps its strings as they are written, because a string that is passed over need not be
the text of anything: `string?` decides whether it is one. Conversely `ofString` chooses the one
written form in which texts are sent.
-/

namespace Collective

namespace Json

/-- A unit of a written string: a byte of UTF-8, or a code unit of 16 bits given by number. -/
inductive Piece where
  | byte (b : UInt8)
  | unit (u : UInt16)
  deriving DecidableEq, Repr

end Json

/-- A JSON value. -/
inductive Json where
  | null
  | bool (b : Bool)
  | number (n : Json.Number)
  | string (pieces : List Json.Piece)
  | array (items : List Json)
  | object (members : List (List Json.Piece × Json))

namespace Json

namespace Piece

/-- The unit is the first half of a surrogate pair. -/
def isHigh (u : UInt16) : Bool := 0xD800 ≤ u && u < 0xDC00

/-- The unit is the second half of a surrogate pair. -/
def isLow (u : UInt16) : Bool := 0xDC00 ≤ u && u < 0xE000

/-- The UTF-8 that pieces stand for, if the halves of surrogate pairs stand together. -/
def bytes? : List Piece → Option Bytes
  | [] => some []
  | .byte b :: rest => (bytes? rest).map (b :: ·)
  | .unit u :: .unit v :: rest =>
    if isHigh u then
      if isLow v then
        let code := 0x10000 + (u.toNat - 0xD800) * 0x400 + (v.toNat - 0xDC00)
        (bytes? rest).map (String.utf8EncodeChar (Char.ofNat code) ++ ·)
      else none
    else if isLow u then none
    else (bytes? (.unit v :: rest)).map (String.utf8EncodeChar (Char.ofNat u.toNat) ++ ·)
  | .unit u :: rest =>
    if isHigh u || isLow u then none
    else (bytes? rest).map (String.utf8EncodeChar (Char.ofNat u.toNat) ++ ·)

/-- The text that pieces stand for. -/
def text? (pieces : List Piece) : Option String := (bytes? pieces).bind Utf8.decode?

/-- The control characters that have a letter of their own behind a backslash. -/
def letter? (b : UInt8) : Option UInt8 :=
  if b = 8 then some 98
  else if b = 9 then some 116
  else if b = 10 then some 110
  else if b = 12 then some 102
  else if b = 13 then some 114
  else none

/-- The piece that writes a byte: a control character without a letter goes by its number. -/
def ofByte (b : UInt8) : Piece :=
  if b < 0x20 ∧ letter? b = none then .unit b.toUInt16 else .byte b

/-- The pieces of a text. -/
def ofText (text : String) : List Piece := (Utf8.encode text).map ofByte

end Piece

/-- A string. -/
def ofString (text : String) : Json := .string (Piece.ofText text)

/-- An integer. -/
def ofInt (i : Int) : Json := .number (Number.ofInt i)

/-- An object with members in the order given. -/
def ofMembers (members : List (String × Json)) : Json :=
  .object (members.map fun (name, value) => (Piece.ofText name, value))

/-- The text of a string. -/
def string? : Json → Option String
  | .string pieces => Piece.text? pieces
  | _ => none

/-- A truth value. -/
def bool? : Json → Option Bool
  | .bool b => some b
  | _ => none

/-- An integer between two bounds. -/
def int? (low high : Int) : Json → Option Int
  | .number n => n.toInt?.filter fun i => low ≤ i && i ≤ high
  | _ => none

/-- A number below a bound. -/
def nat? (bound : Nat) (j : Json) : Option Nat := (int? 0 (bound - 1) j).map Int.toNat

/-- A number of 64 bits. -/
def word? (j : Json) : Option UInt64 := (j.nat? (2 ^ 64)).map UInt64.ofNat

/-- The double near a number. -/
def float? : Json → Option Float
  | .number n => n.toFloat?
  | _ => none

/-- The items of an array. -/
def items? : Json → Option (List Json)
  | .array items => some items
  | _ => none

/-- The first member of an object with a name. -/
def member? (name : String) : Json → Option Json
  | .object members => (members.find? fun (n, _) => Piece.text? n == some name).map (·.2)
  | _ => none

/-- The value is `null`. -/
def isNull : Json → Bool
  | .null => true
  | _ => false

/-- An absent value is written `null`. -/
def optional? (read : Json → Option α) (j : Json) : Option (Option α) :=
  if j.isNull then some none else (read j).map some

/-- What a text holds nests less deep than this where it is read. -/
def maxLevels : Nat := 128

mutual

/-- The value can be held: its strings are texts, its numbers are words or have doubles, and its
arrays and objects nest less than `levels` deep. -/
def holds (levels : Nat) : Json → Bool
  | .null => true
  | .bool _ => true
  | .number n => n.isHeld
  | .string pieces => (Piece.text? pieces).isSome
  | .array items => 1 < levels && holdsItems (levels - 1) items
  | .object members => 1 < levels && holdsMembers (levels - 1) members

/-- Every item can be held. -/
def holdsItems (levels : Nat) : List Json → Bool
  | [] => true
  | item :: rest => holds levels item && holdsItems levels rest

/-- Every member can be held, its name included. -/
def holdsMembers (levels : Nat) : List (List Piece × Json) → Bool
  | [] => true
  | (name, value) :: rest =>
    (Piece.text? name).isSome && holds levels value && holdsMembers levels rest

end

end Json

end Collective
