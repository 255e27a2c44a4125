import Collective.Json.Token

/-!
# Reading JSON texts

The reader takes one token at a time and keeps the arrays and objects that are open around it. A
text is one value with nothing but blanks around it. Nesting is not limited here.
-/

namespace Collective.Json

/-- An array or object that has been opened; the latest item comes first. -/
inductive Open where
  | array (items : List Json)
  | object (members : List (List Piece × Json))
  /-- An object whose next member has its name already. -/
  | member (members : List (List Piece × Json)) (name : List Piece)

/-- What may come next. -/
inductive Expected where
  | value
  /-- Behind the opening bracket of an array. -/
  | itemOrClose
  /-- Behind the opening brace of an object. -/
  | nameOrClose
  | name
  | colon
  /-- Behind a value. -/
  | commaOrClose

/-- Where the reader stands. -/
inductive Reading where
  | within (expected : Expected) (around : List Open)
  | finished (value : Json)

namespace Reading

/-- A value is complete. -/
def complete (value : Json) : List Open → Option Reading
  | [] => some (.finished value)
  | .array items :: around => some (.within .commaOrClose (.array (value :: items) :: around))
  | .member members name :: around =>
    some (.within .commaOrClose (.object ((name, value) :: members) :: around))
  | .object _ :: _ => none

/-- The first token of a value. -/
def begin : Token → List Open → Option Reading
  | .openArray, around => some (.within .itemOrClose (.array [] :: around))
  | .openObject, around => some (.within .nameOrClose (.object [] :: around))
  | .null, around => complete .null around
  | .bool b, around => complete (.bool b) around
  | .number n, around => complete (.number n) around
  | .string pieces, around => complete (.string pieces) around
  | _, _ => none

/-- One token. -/
def step : Reading → Token → Option Reading
  | .finished _, _ => none
  | .within .value around, t => begin t around
  | .within .itemOrClose (.array items :: around), .closeArray =>
    complete (.array items.reverse) around
  | .within .itemOrClose around, t => begin t around
  | .within .nameOrClose (.object members :: around), .closeObject =>
    complete (.object members.reverse) around
  | .within .nameOrClose (.object members :: around), .string name =>
    some (.within .colon (.member members name :: around))
  | .within .name (.object members :: around), .string name =>
    some (.within .colon (.member members name :: around))
  | .within .colon around, .colon => some (.within .value around)
  | .within .commaOrClose (.array items :: around), .comma =>
    some (.within .value (.array items :: around))
  | .within .commaOrClose (.array items :: around), .closeArray =>
    complete (.array items.reverse) around
  | .within .commaOrClose (.object members :: around), .comma =>
    some (.within .name (.object members :: around))
  | .within .commaOrClose (.object members :: around), .closeObject =>
    complete (.object members.reverse) around
  | _, _ => none

/-- The tokens from here to the end. -/
def run : Reading → List Token → Option Json
  | .finished value, [] => some value
  | .within _ _, [] => none
  | reading, t :: rest =>
    match reading.step t with
    | some next => run next rest
    | none => none

end Reading

/-- The value that tokens write. -/
def ofTokens? (tokens : List Token) : Option Json := Reading.run (.within .value []) tokens

/-- The value that a text writes. -/
def parse? (bytes : Bytes) : Option Json := (Token.scan? bytes).bind ofTokens?

end Collective.Json
