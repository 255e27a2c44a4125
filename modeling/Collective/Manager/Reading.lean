import Collective.Manager.Basic

/-!
# Reading from links

Every link has a loop that takes the frames which its peer sends. A frame that holds a message goes
to the observers; a frame that holds none, or a fault of the stream, is reported to the observer
bound to the source and ends the loop. A loop that ends closes its link and evicts it.
-/

namespace Collective

/-- What an observer is told. -/
inductive Notice (α : Type) where
  /-- A message from the source that the observer is bound to. -/
  | value (message : α)
  /-- A message from some source. -/
  | message (source : Address) (message : α)
  /-- The link to the observer's source has failed. -/
  | failure (e : TransportError)
  deriving Repr

/-- How far a read loop has come. -/
inductive Reading where
  /-- It looks for the next frame. -/
  | next
  /-- It closes its link. -/
  | close
  /-- It evicts its link. -/
  | evict
  | done
  deriving DecidableEq, Repr

namespace Manager

variable {ω α : Type}

/-- Who is told what when a message comes from a source. -/
def dispatch (m : Manager ω) (source : Address) (message : α) : List (ω × Notice α) :=
  ((m.observers.boundTo source).toList.map fun o => (o, .value message))
    ++ m.observers.everywhere.map fun (_, o) => (o, .message source message)

/-- Who is told when the link from a source fails. -/
def report (m : Manager ω) (source : Address) (e : TransportError) : List (ω × Notice α) :=
  (m.observers.boundTo source).toList.map fun o => (o, .failure e)

end Manager

/-- What a step of a read loop leaves behind. -/
structure Reading.Outcome (ω α : Type) where
  manager : Manager ω
  reading : Reading
  notices : List (ω × Notice α)
  /-- The step has taken what the stream offered. -/
  took : Bool

/-- The next step of the read loop of a link, given what the stream offers, if it offers anything.
A closed link is seen before anything is taken. -/
def Reading.step? {ω α : Type} (decode : Bytes → Except CodecError α) (source : Address)
    (link : Nat) (offer : Option Offer) (m : Manager ω) : Reading → Option (Outcome ω α)
  | .next =>
    if (m.link? link).any (·.closed) then some ⟨m, .close, [], false⟩
    else
      match offer with
      | none => none
      | some .finished => some ⟨m, .close, [], true⟩
      | some (.fault fault) => some ⟨m, .close, m.report source (Link.streamError fault), true⟩
      | some (.frame content) =>
        match decode content with
        | .ok message => some ⟨m, .next, m.dispatch source message, true⟩
        | .error e => some ⟨m, .close, m.report source (.serialization e), true⟩
  | .close => some ⟨m.closeLink link, .evict, [], false⟩
  | .evict => some ⟨m.evict source link, .done, [], false⟩
  | .done => none

end Collective
