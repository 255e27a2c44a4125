import Collective.Operator.Spec

/-!
# The tree of an operator

The members of an operator form a tree with a bounded number of children per task. The operator's
distinguished task is the root; every other task becomes a child of the earliest placed task that
has room. Members that join before the root wait for it. A task that leaves or is replaced takes
its place with it: the tree is built again from the join order of the others.
-/

namespace Collective

/-- A placed task. -/
structure Node where
  task : String
  parent : Option String
  children : List String
  depth : Nat
  deriving DecidableEq, Repr

/-- Why a group does not take a change of its members. -/
inductive MembershipError where
  /-- The task is a member already. -/
  | duplicate (task : String)
  /-- The task is no member, or has no place yet. -/
  | unknown (task : String)
  /-- A tree has to give each task room for a child. -/
  | fanOut (count : Nat)
  /-- The group has an operator of that name already. -/
  | duplicateOperator (name : String)
  deriving DecidableEq, Repr

/-- The wording of the error. -/
def MembershipError.message : MembershipError → String
  | .duplicate task => s!"task '{task}' has already been added"
  | .unknown task => s!"task '{task}' is not part of the topology"
  | .fanOut count => s!"fan-out must be at least 1, got {count}"
  | .duplicateOperator name => s!"operator '{name}' is already defined in this group"

/-- A task's place in the tree of an operator. -/
structure Place where
  task : String
  parent : Option String
  children : List String
  role : Role
  deriving DecidableEq, Repr

namespace Place

/-- The task is the root. -/
def isRoot (place : Place) : Bool := place.parent.isNone

/-- The task has no children. -/
def isLeaf (place : Place) : Bool := place.children.isEmpty

end Place

/-- The tree of an operator. -/
structure Topology where
  /-- The name of the operator. -/
  name : String
  spec : OperatorSpec
  /-- The greatest number of children of a task. -/
  fanOut : Nat
  fanOut_pos : 0 < fanOut
  /-- The members in the order in which they joined. -/
  members : List String
  /-- The set of the members; its order means nothing. -/
  known : List String
  /-- The nodes by task; their order means nothing. -/
  nodes : List Node
  /-- The placed members in the order in which they were placed. -/
  placement : List String
  /-- The index of the earliest placed member that may still have room for a child. -/
  frontier : Nat
  deriving DecidableEq, Repr

namespace Topology

/-- The tree of an operator without members. -/
def new (name : String) (spec : OperatorSpec) (fanOut : Nat) : Except MembershipError Topology :=
  if h : 0 < fanOut then .ok ⟨name, spec, fanOut, h, [], [], [], [], 0⟩
  else .error (.fanOut fanOut)

/-! ## Queries -/

/-- The node of a task. -/
def node? (t : Topology) (task : String) : Option Node := t.nodes.find? (·.task = task)

/-- The task is a member. -/
def contains (t : Topology) (task : String) : Bool := task ∈ t.known

/-- The task has a place in the tree. -/
def isPlaced (t : Topology) (task : String) : Bool := (t.node? task).isSome

/-- The placed members, the root first. -/
def placed (t : Topology) : List String := t.placement

/-- The members that wait for the root. -/
def parked (t : Topology) : List String := t.members.filter fun task => !t.isPlaced task

/-- The parent of a task. -/
def parentOf (t : Topology) (task : String) : Option String := (t.node? task).bind (·.parent)

/-- The children of a task. -/
def childrenOf (t : Topology) (task : String) : List String :=
  ((t.node? task).map (·.children)).getD []

/-- The height of the tree, if there is a root. -/
def depth (t : Topology) : Option Nat :=
  if t.isPlaced t.spec.root then some ((t.nodes.map (·.depth)).foldl max 0) else none

/-- The place of a task. -/
def place (t : Topology) (task : String) : Except MembershipError Place :=
  match t.node? task with
  | some node => .ok ⟨task, node.parent, node.children, t.spec.roleOf task⟩
  | none => .error (.unknown task)

/-! ## Placement -/

/-- Nodes with one more, in the place of an older node of its task. -/
def putNode (node : Node) (nodes : List Node) : List Node :=
  if nodes.any (·.task = node.task) then
    nodes.map fun other => if other.task = node.task then node else other
  else nodes ++ [node]

/-- Nodes with a task as the last child of a node. -/
def hangUnder (parent : Node) (task : String) (nodes : List Node) : List Node :=
  putNode ⟨task, some parent.task, [], parent.depth + 1⟩ (nodes.map fun node =>
    if node.task = parent.task then { node with children := node.children ++ [task] } else node)

/-- A task becomes a child of the first candidate that has room. The frontier moves past the
candidates without room, and they are not looked at again. -/
def placeAmong (t : Topology) (task : String) : List String → Topology
  | [] => t
  | candidate :: later =>
    match (t.node? candidate).filter (·.children.length < t.fanOut) with
    | some parent =>
      { t with nodes := hangUnder parent task t.nodes, placement := t.placement ++ [task] }
    | none => placeAmong { t with frontier := t.frontier + 1 } task later

/-- A task becomes a child of a placed one. -/
def placeChild (t : Topology) (task : String) : Topology :=
  t.placeAmong task (t.placement.drop t.frontier)

/-- A member finds its place: the root is followed by all who have waited for it, and nobody is
placed before it. -/
def settle (t : Topology) (task : String) : Topology :=
  if task = t.spec.root then
    (t.members.filter (· ≠ task)).foldl placeChild
      { t with nodes := putNode ⟨task, none, [], 0⟩ t.nodes, placement := t.placement ++ [task] }
  else if t.isPlaced t.spec.root then t.placeChild task
  else t

/-! ## Changes

A change answers whether it succeeded, and leaves a tree behind in either case. -/

/-- A task joins. -/
def add (t : Topology) (task : String) : Except MembershipError Unit × Topology :=
  if task ∈ t.known then (.error (.duplicate task), t)
  else (.ok (), settle { t with known := task :: t.known, members := t.members ++ [task] } task)

/-- Tasks join one after the other, until one cannot. -/
def addAll (t : Topology) : List String → Except MembershipError Unit × Topology
  | [] => (.ok (), t)
  | task :: rest =>
    match t.add task with
    | (.ok (), t) => t.addAll rest
    | failed => failed

/-- The tree is cleared, and tasks join it in the given order. -/
def replay (t : Topology) (order : List String) : Except MembershipError Unit × Topology :=
  addAll { t with members := [], known := [], nodes := [], placement := [], frontier := 0 } order

/-- A task is replaced by one that joins after all others. -/
def replace (t : Topology) (failed replacement : String) : Except MembershipError Unit × Topology :=
  if failed ∉ t.known then (.error (.unknown failed), t)
  else if replacement ∈ t.known then (.error (.duplicate replacement), t)
  else t.replay (t.members.filter (· ≠ failed) ++ [replacement])

/-- A task leaves. -/
def remove (t : Topology) (task : String) : Except MembershipError Unit × Topology :=
  if task ∉ t.known then (.error (.unknown task), t)
  else t.replay (t.members.filter (· ≠ task))

end Topology

end Collective
