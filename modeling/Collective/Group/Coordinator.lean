import Collective.Group.Bundle

/-!
# The coordinator of a group

The coordinator keeps the members of a group in join order and one tree per operator, all over the
same members. It hands out the bundle of each task. Its epoch counts the changes that re-placed
tasks; joining alone does not change it.
-/

namespace Collective

/-- The coordinator of a group. -/
structure Coordinator where
  group : String
  fanOut : Nat
  epoch : UInt64
  members : List String
  topologies : Table String Topology
  deriving DecidableEq, Repr

namespace Coordinator

/-- The coordinator of a group without members and operators. -/
def new (group : String) (fanOut : Nat) : Except MembershipError Coordinator :=
  if fanOut = 0 then .error (.fanOut fanOut) else .ok ⟨group, fanOut, 0, [], .empty⟩

/-- The tree of an operator. -/
def topology? (c : Coordinator) (operator : String) : Option Topology := c.topologies.get? operator

/-! ## Changes

A change answers whether it succeeded, and leaves a coordinator behind in either case. -/

/-- Every tree changed, one after the other until one refuses, and then the rest of the
coordinator. -/
def changeAll (c : Coordinator) (change : Topology → Except MembershipError Unit × Topology)
    (finish : Coordinator → Coordinator) : Except MembershipError Unit × Coordinator :=
  match c.topologies.changeEach change with
  | (.ok (), topologies) => (.ok (), finish { c with topologies })
  | (.error e, topologies) => (.error e, { c with topologies })

/-- Defines an operator over the members the group has. -/
def addOperator (c : Coordinator) (name : String) (spec : OperatorSpec) :
    Except MembershipError Unit × Coordinator :=
  if c.topologies.contains name then (.error (.duplicateOperator name), c)
  else
    match Topology.new name spec c.fanOut with
    | .error e => (.error e, c)
    | .ok t =>
      match t.addAll c.members with
      | (.ok (), t) => (.ok (), { c with topologies := c.topologies.insert name t })
      | (.error e, _) => (.error e, c)

/-- A task joins. -/
def add (c : Coordinator) (task : String) : Except MembershipError Unit × Coordinator :=
  if task ∈ c.members then (.error (.duplicate task), c)
  else c.changeAll (·.add task) fun c => { c with members := c.members ++ [task] }

/-- A task is replaced by one that joins after all others. -/
def replace (c : Coordinator) (failed replacement : String) :
    Except MembershipError Unit × Coordinator :=
  if failed ∉ c.members then (.error (.unknown failed), c)
  else if replacement ∈ c.members then (.error (.duplicate replacement), c)
  else c.changeAll (·.replace failed replacement) fun c =>
    { c with
      members := c.members.filter (· ≠ failed) ++ [replacement], epoch := c.epoch + 1 }

/-- A task leaves. -/
def remove (c : Coordinator) (task : String) : Except MembershipError Unit × Coordinator :=
  if task ∉ c.members then (.error (.unknown task), c)
  else c.changeAll (·.remove task) fun c =>
    { c with members := c.members.filter (· ≠ task), epoch := c.epoch + 1 }

/-! ## Bundles -/

/-- The bundle of a task; there is none while a tree waits for its root. -/
def bundle (c : Coordinator) (task : String) : Except MembershipError Bundle := do
  if task ∉ c.members then .error (.unknown task)
  else
    let views ← c.topologies.makeEach fun t => (t.place task).map (OperatorView.mk t.spec)
    .ok ⟨c.group, task, c.epoch, views⟩

/-- The operators that wait for their root, with their kinds. -/
def waiting (c : Coordinator) : List (String × OperatorKind) :=
  (c.topologies.entries.filter fun (_, t) => !t.isPlaced t.spec.root).map
    fun (name, t) => (name, t.spec.kind)

end Coordinator

end Collective
