import Collective.Group.Error
import Collective.Pipeline.Passage

/-!
# Calls

A call of an operator's endpoint is a program of sends and receptions. It sends chunks one after
the other, receives a value chunk by chunk while it relays each chunk, or gathers one value from
each of several tasks in whatever order their chunks come. `sent?` and `take?` are its steps; a send
that fails ends it with `fail`.
-/

namespace Collective

/-- A chunk on its way to a task. -/
structure Parcel where
  destination : String
  chunk : Chunk Bytes
  deriving DecidableEq, Repr

/-- What has come from one of the tasks from which values are gathered. -/
inductive Incoming (α : Type) where
  | underway (arrival : Arrival α)
  | complete (value : α)
  deriving DecidableEq, Repr

namespace Incoming

/-- The task from which more has to come. -/
def source? : Incoming α → Option String
  | .underway arrival => some arrival.source
  | .complete _ => none

/-- The value, if all of it has come. -/
def value? : Incoming α → Option α
  | .underway _ => none
  | .complete value => some value

end Incoming

/-- What has come from a task, after one more chunk whose header fits. A chunk that cannot be read
is an error, and so are chunks that make no value. -/
def Arrival.absorb (passage : Passage α) (arrival : Arrival α) (assembler : Assembler)
    (chunk : Chunk Bytes) : Except GroupError (Incoming α) :=
  match passage.codec.decode chunk.data with
  | .error e => .error (.serialization e)
  | .ok data =>
    let chunks := arrival.chunks ++ [⟨chunk.header, data⟩]
    if assembler.complete then
      match passage.converter.join chunks with
      | .ok value => .ok (.complete value)
      | .error e => .error (.outOfOrder e)
    else .ok (.underway ⟨arrival.source, assembler, chunks⟩)

/-- A call that handles values of type `α` and ends with one of type `β`. -/
inductive Call (α β : Type) where
  | finished (result : Except GroupError β)
  | send (parcel : Parcel) (rest : Call α β)
  /-- One value is received, and its chunks are relayed to some tasks. -/
  | receive (arrival : Arrival α) (relay : List String) (next : α → Call α β)
  /-- One value is received from each of some tasks. -/
  | gather (incoming : List (Incoming α)) (next : List α → Call α β)

namespace Call

/-- A call that has failed. -/
def fail (e : GroupError) : Call α β := .finished (.error e)

/-- A call that first sends some chunks. -/
def sendAll (parcels : List Parcel) (rest : Call α β) : Call α β := parcels.foldr .send rest

/-- A call that first sends a value to some tasks, to one after the other. -/
def sendValue (passage : Passage α) (destinations : List String) (value : α) (rest : Call α β) :
    Call α β :=
  match passage.frames value with
  | .error e => .fail (.serialization e)
  | .ok frames => sendAll (destinations.flatMap fun d => frames.map (Parcel.mk d)) rest

/-- A call that first sends each of some tasks a value of its own. -/
def sendEach (passage : Passage α) (values : List (String × α)) (rest : Call α β) : Call α β :=
  values.foldr (fun (destination, value) => sendValue passage [destination] value) rest

/-- A call that first gathers a value from each of some tasks. -/
def gatherFrom (sources : List String) (next : List α → Call α β) : Call α β :=
  if sources.isEmpty then next []
  else .gather (sources.map fun source => .underway (.from source)) next

/-- A call whose result is passed on. -/
def map (f : β → γ) : Call α β → Call α γ
  | .finished result => .finished (result.map f)
  | .send parcel rest => .send parcel (rest.map f)
  | .receive arrival relay next => .receive arrival relay fun value => (next value).map f
  | .gather incoming next => .gather incoming fun values => (next values).map f

/-! ## Steps -/

/-- The chunk that the call sends next, and the call once it is sent. -/
def sent? : Call α β → Option (Parcel × Call α β)
  | .send parcel rest => some (parcel, rest)
  | _ => none

/-- The tasks from which the call needs a chunk. -/
def awaits : Call α β → List String
  | .receive arrival _ _ => [arrival.source]
  | .gather incoming _ => incoming.filterMap Incoming.source?
  | _ => []

/-- What has come from the tasks, after a chunk from one of them. -/
def gatherChunk (passage : Passage α) (source : String) (chunk : Chunk Bytes) :
    List (Incoming α) → Option (Except GroupError (List (Incoming α)))
  | [] => none
  | .underway arrival :: rest =>
    if arrival.source = source then
      some <|
        match arrival.assembler.accept chunk.header with
        | .error e => .error (.outOfOrder e)
        | .ok assembler => (arrival.absorb passage assembler chunk).map (· :: rest)
    else (gatherChunk passage source chunk rest).map (·.map (.underway arrival :: ·))
  | .complete value :: rest =>
    (gatherChunk passage source chunk rest).map (·.map (.complete value :: ·))

/-- The call after a chunk from a task, if it needs one from there. A chunk is relayed before it is
read. -/
def take? (passage : Passage α) (source : String) (chunk : Chunk Bytes) :
    Call α β → Option (Call α β)
  | .receive arrival relay next =>
    if arrival.source = source then
      some <|
        match arrival.assembler.accept chunk.header with
        | .error e => .fail (.outOfOrder e)
        | .ok assembler =>
          sendAll (relay.map fun destination => ⟨destination, chunk⟩) <|
            match arrival.absorb passage assembler chunk with
            | .error e => .fail e
            | .ok (.underway arrival) => .receive arrival relay next
            | .ok (.complete value) => next value
    else none
  | .gather incoming next =>
    (gatherChunk passage source chunk incoming).map fun
      | .error e => .fail e
      | .ok incoming =>
        match incoming.mapM Incoming.value? with
        | some values => next values
        | none => .gather incoming next
  | _ => none

/-- The call after as many sends as it makes in a row. A send that fails is its last. -/
def advance (send : σ → Parcel → σ × Except GroupError Unit) (s : σ) : Call α β → σ × Call α β
  | .send parcel rest =>
    match send s parcel with
    | (s, .ok ()) => advance send s rest
    | (s, .error e) => (s, .fail e)
  | call => (s, call)

@[simp] theorem sendAll_nil (rest : Call α β) : sendAll [] rest = rest := rfl

end Call

end Collective
