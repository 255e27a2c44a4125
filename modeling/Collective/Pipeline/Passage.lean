import Collective.Codec.Basic
import Collective.Pipeline.Converter

/-!
# Passages

A passage is how the values of an operator travel: a converter cuts a value into chunks, and a codec
writes each chunk as bytes. On the way back the chunks of a value are read one by one as they
arrive.
-/

namespace Collective

/-- How values travel. -/
structure Passage (α : Type) where
  codec : Codec α
  converter : Converter α

/-- The chunks that carry a value. -/
def Passage.frames (p : Passage α) (value : α) : Except CodecError (List (Chunk Bytes)) :=
  (p.converter.split value).mapM fun chunk =>
    (p.codec.encode chunk.data).map fun data => ⟨chunk.header, data⟩

/-- A value that is arriving from a task. -/
structure Arrival (α : Type) where
  source : String
  /-- The headers seen. -/
  assembler : Assembler
  /-- The chunks read. -/
  chunks : List (Chunk α)
  deriving DecidableEq, Repr

/-- A value that is to come from a task. -/
def Arrival.from (source : String) : Arrival α := ⟨source, .start, []⟩

end Collective
