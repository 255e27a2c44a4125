import Collective.Json.Basic
import Collective.Settings.Value

/-!
# JSON values as values of settings

Overrides may be given as JSON. An integer has 64 bits, with a sign if it is negative; every other
number counts as one with a fraction.
-/

namespace Collective.Settings.Value

/-- The value of a number. -/
def ofNumber (n : Json.Number) : Value :=
  match n.toInt? with
  | some i => if -(2 ^ 63) ≤ i ∧ i < 2 ^ 64 then .integer i else .real
  | none => .real

/-- A string that is not the text of anything stands for the empty text. -/
def textOf (pieces : List Json.Piece) : String := (Json.Piece.text? pieces).getD ""

mutual

/-- The value of settings that a JSON value gives. -/
def ofJson : Json → Value
  | .null => .null
  | .bool b => .bool b
  | .number n => ofNumber n
  | .string pieces => .text (textOf pieces)
  | .array items => .list (ofItems items)
  | .object members => .table (ofMembers members)

/-- The values of items. -/
def ofItems : List Json → List Value
  | [] => []
  | item :: rest => ofJson item :: ofItems rest

/-- The values of members. -/
def ofMembers : List (List Json.Piece × Json) → List (String × Value)
  | [] => []
  | (name, value) :: rest => (textOf name, ofJson value) :: ofMembers rest

end

end Collective.Settings.Value
