import Collective.Payload.Type
import Collective.Pipeline.Chunk

/-!
# Converting values to chunks

A converter splits a value into a chunk sequence and joins such a sequence to a value again. Lists
can be split into chunks of a fixed size; every other value, and every value that is to travel
whole, is one chunk.
-/

namespace Collective

/-- A way to send values as chunks. -/
structure Converter (α : Type) where
  split : α → List (Chunk α)
  join : List (Chunk α) → Except OutOfOrder α

namespace Converter

/-- The one chunk of a value that travels whole. -/
def single (value : α) : List (Chunk α) := [⟨⟨0, true⟩, value⟩]

/-- One more chunk of a sequence: its header has to fit, and its data is put to what has been built
from the chunks before it. -/
def addChunk (put : β → α → β) : Assembler × β → Chunk α → Except OutOfOrder (Assembler × β)
  | (assembler, built), chunk =>
    (assembler.accept chunk.header).map fun next => (next, put built chunk.data)

/-- What is built from the chunks of a complete sequence. -/
def assemble (put : β → α → β) (empty : β) (chunks : List (Chunk α)) : Except OutOfOrder β := do
  let (assembler, built) ← chunks.foldlM (addChunk put) (.start, empty)
  assembler.finish
  return built

/-- The value of a complete sequence: each chunk replaces what the ones before it have brought. -/
def joinWhole (chunks : List (Chunk α)) : Except OutOfOrder α := do
  match ← assemble (fun _ data => some data) none chunks with
  | some value => .ok value
  | none => .error ⟨some 0, none⟩

/-- The chunk of an index, which takes its elements from those that are left. -/
def takeChunk (size total index : Nat) : StateM (List ε) (Chunk (List ε)) := do
  let data ← modifyGet fun left => (left.take size, left.drop size)
  return ⟨⟨UInt64.ofNat index, index + 1 == total⟩, data⟩

/-- The chunks of a list; the empty list has one, which is empty. -/
def splitList (size : ChunkSize) (elements : List ε) : List (Chunk (List ε)) :=
  if elements.isEmpty then single []
  else
    let size := size.count.toNat
    let total := (elements.length + size - 1) / size
    (((List.range total).mapM (takeChunk size total)).run elements).1

/-- The elements of a complete sequence: each chunk adds its own to those before them. -/
def joinLists (chunks : List (Chunk (List ε))) : Except OutOfOrder (List ε) :=
  assemble (· ++ ·) [] chunks

/-- Values that travel whole. -/
def whole : Converter α where
  split := single
  join := joinWhole

/-- Lists that travel in chunks. -/
def chunked (size : ChunkSize) : Converter (List ε) where
  split := splitList size
  join := joinLists

end Converter

/-- The converter of a payload type. -/
def PayloadType.converter : (type : PayloadType) → Pipeline → Converter type.Carrier
  | .list _, .chunked size => .chunked size
  | _, _ => .whole

end Collective
