import Collective.Json.Token

/-!
# Writing JSON texts

A value is written compactly: no blanks, members in their order.
-/

namespace Collective.Json

mutual

/-- The tokens of a value. -/
def tokens : Json → List Token
  | .null => [.null]
  | .bool b => [.bool b]
  | .number n => [.number n]
  | .string pieces => [.string pieces]
  | .array items => .openArray :: (tokensOfItems items ++ [.closeArray])
  | .object members => .openObject :: (tokensOfMembers members ++ [.closeObject])

/-- The tokens between the brackets of an array. -/
def tokensOfItems : List Json → List Token
  | [] => []
  | [item] => tokens item
  | item :: rest => tokens item ++ .comma :: tokensOfItems rest

/-- The tokens between the braces of an object. -/
def tokensOfMembers : List (List Piece × Json) → List Token
  | [] => []
  | [(name, value)] => .string name :: .colon :: tokens value
  | (name, value) :: rest =>
    .string name :: .colon :: (tokens value ++ .comma :: tokensOfMembers rest)

end

/-- The bytes of a value's text. -/
def print (j : Json) : Bytes := j.tokens.flatMap Token.print

/-- The text of a value. -/
def text (j : Json) : String := (Utf8.decode? j.print).getD ""

end Collective.Json
