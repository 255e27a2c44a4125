import Collective.Share

/-!
# Chunk sequences

A value travels as a sequence of chunks, numbered from zero, of which the last one is marked.
`Assembler` checks the headers of one sequence as they come in; a chunk that does not continue the
sequence leaves the assembler as it was.
-/

namespace Collective

/-- A number of elements per chunk. -/
structure ChunkSize where
  count : UInt64
  count_ne_zero : count ≠ 0
  deriving DecidableEq, Repr

/-- How values travel. -/
inductive Pipeline where
  /-- Each as one chunk. -/
  | whole
  /-- Lists in chunks of a fixed size. -/
  | chunked (size : ChunkSize)
  deriving DecidableEq, Repr

/-- The place of a chunk in its sequence. -/
structure ChunkHeader where
  index : UInt64
  isLast : Bool
  deriving DecidableEq, Repr

/-- A part of a value. -/
structure Chunk (α : Type) where
  header : ChunkHeader
  data : α
  deriving DecidableEq, Repr

/-- A chunk came, or a sequence ended, where something else was due. -/
structure OutOfOrder where
  /-- The index that was due; none behind the last chunk. -/
  expected : Option UInt64
  /-- The index that came; none at the end of the chunks. -/
  actual : Option UInt64
  deriving DecidableEq, Repr

namespace OutOfOrder

/-- The wording of an index that may be missing. -/
def showIndex : Option UInt64 → String
  | some index => s!"Some({index.toNat})"
  | none => "None"

/-- The wording of the error. -/
def message (e : OutOfOrder) : String :=
  s!"chunk out of order: expected {showIndex e.expected}, got {showIndex e.actual}"

end OutOfOrder

/-- How far a sequence has come. -/
structure Assembler where
  next : UInt64
  complete : Bool
  deriving DecidableEq, Repr

namespace Assembler

/-- Before the first chunk. -/
def start : Assembler := ⟨0, false⟩

/-- The next chunk of the sequence. -/
def accept (a : Assembler) (header : ChunkHeader) : Except OutOfOrder Assembler :=
  if a.complete then .error ⟨none, some header.index⟩
  else if header.index ≠ a.next then .error ⟨some a.next, some header.index⟩
  else .ok ⟨a.next + 1, header.isLast⟩

/-- The next chunk of the sequence, for an assembler that stays in its place: whether the chunk was
the last one, or why it was refused. -/
def enter (header : ChunkHeader) : StateM Assembler (Except OutOfOrder Bool) := do
  let a ← get
  if a.complete then return .error ⟨none, some header.index⟩
  if header.index ≠ a.next then return .error ⟨some a.next, some header.index⟩
  modify fun a => { a with next := a.next + 1 }
  modify fun a => { a with complete := header.isLast }
  return .ok header.isLast

/-- The end of the chunks, which has to be the end of the sequence. -/
def finish (a : Assembler) : Except OutOfOrder Unit :=
  if a.complete then .ok () else .error ⟨some a.next, none⟩

/-- A whole list of headers, from the first to the end. -/
def acceptAll (a : Assembler) (headers : List ChunkHeader) : Except OutOfOrder Assembler :=
  headers.foldlM accept a

end Assembler

end Collective
