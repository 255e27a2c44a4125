/-!
# Kinds of codecs

An operator names its codec by kind, so that its description can be stored and sent. A kind has one
name; a reader of settings also takes other spellings.
-/

namespace Collective

/-- The kinds of codecs. -/
inductive CodecKind where
  | json
  | bytes
  | utf8
  | integer
  | double
  deriving DecidableEq, Repr, Inhabited

namespace CodecKind

/-- Every kind. -/
def all : List CodecKind := [.json, .bytes, .utf8, .integer, .double]

/-- The kind of an operator that names none. -/
def standard : CodecKind := .json

/-- The name of a kind. -/
def name : CodecKind → String
  | .json => "json"
  | .bytes => "bytes"
  | .utf8 => "utf8"
  | .integer => "integer"
  | .double => "double"

/-- The kind with a name. -/
def ofName? (name : String) : Option CodecKind := all.find? (·.name == name)

theorem ofName?_name (kind : CodecKind) : ofName? kind.name = some kind := by
  cases kind <;> rfl

/-- A text names no kind. -/
structure Unknown where
  text : String
  deriving DecidableEq, Repr

/-- The wording of the error. -/
def Unknown.message (e : Unknown) : String :=
  s!"unknown codec '{e.text}'; expected json, bytes, utf8, integer or double"

/-- The kind that a text names, in letters of either case; some kinds have a second name. -/
def parse (text : String) : Except Unknown CodecKind :=
  match text.toLower with
  | "json" => .ok .json
  | "bytes" => .ok .bytes
  | "utf8" | "string" => .ok .utf8
  | "integer" | "int" => .ok .integer
  | "double" | "float" => .ok .double
  | _ => .error ⟨text⟩

end CodecKind

end Collective
