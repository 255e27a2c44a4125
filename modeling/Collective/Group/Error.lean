import Collective.Group.Bundle
import Collective.Link.Error
import Collective.Naming

/-!
# Group errors

What the calls of a group answer when they fail. Errors of the layers below are lifted: a closed
connection, a codec error and a name that is not registered become errors of the group's own, and
every other transport error is passed on as it is.
-/

namespace Collective

/-- Why a call of a group failed. -/
inductive GroupError where
  | membership (e : MembershipError)
  /-- A task has no registered address. -/
  | unresolvedTask (task : String)
  /-- Only the root may call this end of the operator. -/
  | notRoot (task operator : String)
  /-- The task receives the operator's result. -/
  | notSender (task operator : String)
  /-- The task sends the operator's values. -/
  | notReceiver (task operator : String)
  | reduction (e : ReductionError)
  | outOfOrder (e : OutOfOrder)
  | unknownOperator (name : String)
  | wrongKind (operator : String) (expected actual : OperatorKind)
  /-- The task's manager does not listen. -/
  | notListening (task : String)
  | timeout (operator source : String)
  | connectionClosed (peer : String)
  | serialization (e : CodecError)
  | transport (e : TransportError)
  deriving DecidableEq, Repr

namespace GroupError

/-- The wording of a group error. -/
def message : GroupError → String
  | .membership e => e.message
  | .unresolvedTask task => s!"task '{task}' could not be resolved to an address"
  | .notRoot task operator => s!"task '{task}' is not the root of operator '{operator}'"
  | .notSender task operator =>
    s!"task '{task}' receives the result of operator '{operator}' and cannot send"
  | .notReceiver task operator =>
    s!"task '{task}' is the sender of operator '{operator}' and cannot receive"
  | .reduction e => e.message
  | .outOfOrder e => e.message
  | .unknownOperator name => UnknownOperator.message ⟨name⟩
  | .wrongKind operator expected actual =>
    s!"operator '{operator}' is a {actual.name} operator, not {expected.name}"
  | .notListening task => s!"task '{task}' has no listening address to publish"
  | .timeout operator source => s!"timed out waiting for '{operator}' data from task '{source}'"
  | .connectionClosed peer => s!"connection to '{peer}' is closed"
  | .serialization e => s!"serialization failed: {e.message}"
  | .transport e => e.message

/-- A transport error as an error of the group. -/
def ofTransport : TransportError → GroupError
  | .connectionClosed address => .connectionClosed address.render
  | .serialization e => .serialization e
  | e => .transport e

/-- A missing name as an error of the group. -/
def ofUnresolved (e : Unresolved) : GroupError := .unresolvedTask e.task

end GroupError

end Collective
