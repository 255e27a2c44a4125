import Collective.Address.Text
import Collective.Table

/-!
# The name service

The name service gives each task the address of the manager it listens on. A later registration
replaces an earlier one, and removing a task that is not registered changes nothing.
-/

namespace Collective

/-- A task has no address. -/
structure Unresolved where
  task : String
  deriving DecidableEq, Repr

/-- The wording of the error. -/
def Unresolved.message (e : Unresolved) : String :=
  s!"task '{e.task}' is not registered with the name service"

/-- The addresses of tasks. -/
structure Registry where
  addresses : Table String Address
  deriving DecidableEq, Repr

namespace Registry

/-- No task is registered. -/
def empty : Registry := ⟨.empty⟩

/-- The number of registered tasks. -/
def size (r : Registry) : Nat := r.addresses.size

/-- A task is registered. -/
def contains (r : Registry) (task : String) : Bool := r.addresses.contains task

/-- Publishes the address of a task. -/
def register (r : Registry) (task : String) (address : Address) : Registry :=
  ⟨r.addresses.insert task address⟩

/-- Withdraws the address of a task. -/
def unregister (r : Registry) (task : String) : Registry := ⟨r.addresses.erase task⟩

/-- The address of a task. -/
def lookup (r : Registry) (task : String) : Except Unresolved Address :=
  match r.addresses.get? task with
  | some address => .ok address
  | none => .error ⟨task⟩

/-- The addresses of several tasks, or the first task that has none. -/
def lookupAll (r : Registry) (tasks : List String) : Except Unresolved (List Address) :=
  tasks.mapM r.lookup

end Registry

end Collective
