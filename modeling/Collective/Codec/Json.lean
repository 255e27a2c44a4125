import Collective.Codec.Kind
import Collective.Json.Record

/-!
# Codec kinds in JSON

A kind is its name.
-/

namespace Collective.CodecKind

/-- The JSON form of a kind. -/
def toJson (kind : CodecKind) : Json := .ofString kind.name

/-- The kind that a JSON value names. -/
def ofJson? : Json → Option CodecKind := Json.enum? Json.isNull ofName?

end Collective.CodecKind
