import Collective.Group.Coordinator
import Collective.Topology.Change

/-!
# Changes of a group

A group changes when an operator is defined or when its members change. A history goes on behind a
change that failed; `after` is the coordinator that it leaves.
-/

namespace Collective.Coordinator

/-- A change of a group. -/
inductive Change where
  | operator (name : String) (spec : OperatorSpec)
  | member (change : MemberChange)
  deriving DecidableEq, Repr

/-- The coordinator after a change of the members. -/
def changeMember (c : Coordinator) : MemberChange → Except MembershipError Unit × Coordinator
  | .add task => c.add task
  | .replace failed replacement => c.replace failed replacement
  | .remove task => c.remove task

/-- The coordinator after a change. -/
def change (c : Coordinator) : Change → Except MembershipError Unit × Coordinator
  | .operator name spec => c.addOperator name spec
  | .member change => c.changeMember change

/-- The coordinator that a history of changes leaves behind. -/
def after (c : Coordinator) (history : List Change) : Coordinator :=
  history.foldl (fun c change => (c.change change).2) c

@[simp] theorem after_nil (c : Coordinator) : c.after [] = c := rfl

@[simp] theorem after_cons (c : Coordinator) (change : Change) (history : List Change) :
    c.after (change :: history) = (c.change change).2.after history := rfl

/-- The coordinators of a group that any history can leave behind. -/
def Reachable (group : String) (fanOut : Nat) (c : Coordinator) : Prop :=
  ∃ start history, new group fanOut = .ok start ∧ start.after history = c

end Collective.Coordinator
