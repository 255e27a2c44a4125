import Collective.Codec.Kind
import Collective.Pipeline.Chunk
import Collective.Reduction

/-!
# Operators

An operator moves values through a tree of tasks. A broadcast and a scatter go down from the root,
a reduction goes up to it; so the root of a reduction receives where all other roots send, and every
other task has the opposite role.
-/

namespace Collective

/-- The kinds of operators. -/
inductive OperatorKind where
  | broadcast
  | reduce
  | scatter
  deriving DecidableEq, Repr

/-- The name of a kind. -/
def OperatorKind.name : OperatorKind → String
  | .broadcast => "broadcast"
  | .reduce => "reduce"
  | .scatter => "scatter"

/-- Every kind. -/
def OperatorKind.all : List OperatorKind := [.broadcast, .reduce, .scatter]

/-- The kind with a name. -/
def OperatorKind.ofName? (name : String) : Option OperatorKind := all.find? (·.name == name)

/-- What a task does in an operator. -/
inductive Role where
  | sender
  | receiver
  deriving DecidableEq, Repr

/-- The name of a role. -/
def Role.name : Role → String
  | .sender => "sender"
  | .receiver => "receiver"

/-- The role with a name. -/
def Role.ofName? (name : String) : Option Role :=
  [Role.sender, Role.receiver].find? (·.name == name)

/-- What an operator does with the values of its tasks. -/
inductive Purpose where
  | broadcast
  | reduce (function : Reduction)
  | scatter
  deriving DecidableEq, Repr

/-- The description of an operator. -/
structure OperatorSpec where
  purpose : Purpose
  /-- The task at the root of the tree. -/
  root : String
  codec : CodecKind
  pipeline : Pipeline
  deriving DecidableEq, Repr

namespace OperatorSpec

/-- An operator with the standard codec that sends values whole. -/
def plain (purpose : Purpose) (root : String) : OperatorSpec := ⟨purpose, root, .standard, .whole⟩

/-- The kind of an operator. -/
def kind (spec : OperatorSpec) : OperatorKind :=
  match spec.purpose with
  | .broadcast => .broadcast
  | .reduce _ => .reduce
  | .scatter => .scatter

/-- The reduction of an operator that reduces. -/
def reduction? (spec : OperatorSpec) : Option Reduction :=
  match spec.purpose with
  | .reduce function => some function
  | _ => none

/-- The role of a task. -/
def roleOf (spec : OperatorSpec) (task : String) : Role :=
  match spec.kind, decide (task = spec.root) with
  | .reduce, true => .receiver
  | .reduce, false => .sender
  | _, true => .sender
  | _, false => .receiver

end OperatorSpec

end Collective
