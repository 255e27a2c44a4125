import Collective.Json.Parser
import Collective.Json.Printer

/-!
# Records and variants in JSON

A record is an object whose members carry its fields, or the array of its fields in order. By name,
unknown members are passed over, a field given twice is refused and a missing one is seen as
such; by position, only fields at the end may be missing. A value of an enumeration is its name.
-/

namespace Collective.Json

/-- The fields of a record, as they are given. -/
inductive Fields where
  /-- By name; the list has an entry for each field. -/
  | named (values : List (Option Json))
  /-- By position. -/
  | listed (values : List Json)

namespace Fields

/-- The value of a field that is given. -/
def get? : Fields → Nat → Option Json
  | .named values, i => (values[i]?).join
  | .listed values, i => values[i]?

/-- A field that has to be given. -/
def required (fields : Fields) (i : Nat) (read : Json → Option α) : Option α :=
  (fields.get? i).bind read

/-- A field that has a default. -/
def defaulted (fields : Fields) (i : Nat) (read : Json → Option α) (default : α) : Option α :=
  match fields.get? i with
  | some value => read value
  | none => some default

/-- A field that may be absent: then it is `null`, or not given by name. -/
def optional (fields : Fields) (i : Nat) (read : Json → Option α) : Option (Option α) :=
  match fields.get? i, fields with
  | some value, _ => optional? read value
  | none, .named _ => some none
  | none, .listed _ => none

end Fields

/-- The members of an object with their names read. -/
def namedMembers? (members : List (List Piece × Json)) : Option (List (String × Json)) :=
  members.mapM fun (name, value) => (Piece.text? name).map (·, value)

/-- The value given for a name, which must not be given twice. -/
def uniqueMember? (members : List (String × Json)) (name : String) : Option (Option Json) :=
  match members.filter (·.1 == name) with
  | [] => some none
  | [(_, value)] => some (some value)
  | _ => none

/-- The fields of a record with the given field names. -/
def fields? (names : List String) : Json → Option Fields
  | .object members => do
    let members ← namedMembers? members
    let values ← names.mapM (uniqueMember? members)
    some (.named values)
  | .array items => if items.length ≤ names.length then some (.listed items) else none
  | _ => none

/-- The value of an enumeration with a name for each value: its name, or an object with the name as
its one member, whose value is blank. -/
def enum? (blank : Json → Bool) (ofName? : String → Option α) : Json → Option α
  | .string pieces => (Piece.text? pieces).bind ofName?
  | .object [(name, value)] => if blank value then (Piece.text? name).bind ofName? else none
  | _ => none

/-- `null`, or in a value that is held before it is read, an empty object as well. -/
def isBlankHeld : Json → Bool
  | .null => true
  | .object [] => true
  | _ => false

/-- The parts of a variant: its tag, and its fields for the reader that the tag selects. The tag is
the first item of an array or the member named `tag`; `readTag` reads it. -/
def variant? (tag : String) (readTag : Json → Option τ) : Json → Option (τ × Json)
  | .array (first :: rest) => (readTag first).map (·, .array rest)
  | .object members => do
    let named ← namedMembers? members
    let value ← uniqueMember? named tag
    let value ← value
    let t ← readTag value
    some (t, .object (members.filter fun (name, _) => Piece.text? name != some tag))
  | _ => none

end Collective.Json
