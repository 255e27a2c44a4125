import Collective.Json.Record
import Collective.Pipeline.Chunk
import Collective.Text.Base64

/-!
# Messages between tasks

A message carries one chunk of an operator's value from one task to another, stamped with the
sender's epoch. It travels as JSON with its payload in base64; a message without a stamp belongs to
the first epoch.
-/

namespace Collective

/-- The JSON form of a chunk header. -/
def ChunkHeader.toJson (h : ChunkHeader) : Json :=
  .ofMembers [("index", .ofInt h.index.toNat), ("is_last", .bool h.isLast)]

/-- The chunk header that a value describes. -/
def ChunkHeader.ofJson? (j : Json) : Option ChunkHeader := do
  let fields ← j.fields? ["index", "is_last"]
  let index ← fields.required 0 Json.word?
  let isLast ← fields.required 1 Json.bool?
  some ⟨index, isLast⟩

/-- A message between two tasks of a group. -/
structure Message where
  group : String
  /-- The epoch of the sender. -/
  epoch : UInt64
  operator : String
  source : String
  destination : String
  chunk : ChunkHeader
  payload : Bytes
  deriving DecidableEq, Repr

namespace Message

/-- The JSON form of a message. -/
def toJson (m : Message) : Json :=
  .ofMembers [
    ("group", .ofString m.group),
    ("epoch", .ofInt m.epoch.toNat),
    ("operator", .ofString m.operator),
    ("source", .ofString m.source),
    ("destination", .ofString m.destination),
    ("chunk", m.chunk.toJson),
    ("payload", .ofString (String.ofList (Base64.encode m.payload)))]

/-- The message that a value describes. -/
def ofJson? (j : Json) : Option Message := do
  let fields ← j.fields?
    ["group", "epoch", "operator", "source", "destination", "chunk", "payload"]
  let group ← fields.required 0 Json.string?
  let epoch ← fields.defaulted 1 Json.word? 0
  let operator ← fields.required 2 Json.string?
  let source ← fields.required 3 Json.string?
  let destination ← fields.required 4 Json.string?
  let chunk ← fields.required 5 ChunkHeader.ofJson?
  let payload ← fields.required 6 fun j => j.string?.bind fun text => Base64.decode? text.toList
  some ⟨group, epoch, operator, source, destination, chunk, payload⟩

end Message

end Collective
