import Collective.Operator.Json
import Collective.Table
import Collective.Topology.Basic

/-!
# Bundles

A bundle is what a task needs to take part in a group: for every operator its description and the
task's place in its tree, and the epoch of the placement. Bundles travel as JSON; a bundle without
an epoch belongs to the first one.
-/

namespace Collective

/-- One operator as one task sees it. -/
structure OperatorView where
  spec : OperatorSpec
  place : Place
  deriving DecidableEq, Repr

/-- What a task needs to take part in a group. -/
structure Bundle where
  group : String
  task : String
  epoch : UInt64
  operators : Table String OperatorView
  deriving DecidableEq, Repr

/-- A group has no operator of that name. -/
structure UnknownOperator where
  name : String
  deriving DecidableEq, Repr

/-- The wording of the error. -/
def UnknownOperator.message (e : UnknownOperator) : String :=
  s!"operator '{e.name}' is not defined in this group"

namespace Place

/-- The tasks with which a task exchanges messages. -/
def neighbors (place : Place) : List String := place.parent.toList ++ place.children

/-- The JSON form of a place. -/
def toJson (place : Place) : Json :=
  .ofMembers [
    ("task_id", .ofString place.task),
    ("parent", (place.parent.map Json.ofString).getD .null),
    ("children", .array (place.children.map Json.ofString)),
    ("role", .ofString place.role.name)]

/-- The place that a value describes. -/
def ofJson? (j : Json) : Option Place := do
  let fields ← j.fields? ["task_id", "parent", "children", "role"]
  let task ← fields.required 0 Json.string?
  let parent ← fields.optional 1 Json.string?
  let children ← fields.required 2 fun j => j.items?.bind fun items => items.mapM Json.string?
  let role ← fields.required 3 (Json.enum? Json.isNull Role.ofName?)
  some ⟨task, parent, children, role⟩

end Place

namespace OperatorView

/-- The JSON form of a view. -/
def toJson (view : OperatorView) : Json :=
  .ofMembers [("spec", view.spec.toJson), ("topology", view.place.toJson)]

/-- The view that a value describes; the value may nest less than `levels` deep. -/
def ofJson? (levels : Nat) (j : Json) : Option OperatorView := do
  let fields ← j.fields? ["spec", "topology"]
  let spec ← fields.required 0 (OperatorSpec.ofJson? (levels - 1))
  let place ← fields.required 1 Place.ofJson?
  some ⟨spec, place⟩

end OperatorView

namespace Bundle

/-- The view of an operator. -/
def operator (b : Bundle) (name : String) : Except UnknownOperator OperatorView :=
  match b.operators.get? name with
  | some view => .ok view
  | none => .error ⟨name⟩

/-- The tasks with which the bundle's task exchanges messages; one may be listed more than once. -/
def neighbors (b : Bundle) : List String := b.operators.values.flatMap (·.place.neighbors)

/-- The JSON form of a bundle. -/
def toJson (b : Bundle) : Json :=
  .ofMembers [
    ("group_name", .ofString b.group),
    ("task_id", .ofString b.task),
    ("epoch", .ofInt b.epoch.toNat),
    ("operators", .ofMembers (b.operators.entries.map fun (name, view) => (name, view.toJson)))]

/-- Named values of one kind, of which later ones win. -/
def tableOfJson? (read : Json → Option α) : Json → Option (Table String α)
  | .object members => do
    let named ← Json.namedMembers? members
    let entries ← named.mapM fun (name, value) => (read value).map (name, ·)
    some (.ofList entries)
  | _ => none

/-- The bundle that a value describes; the value may nest less than `levels` deep where it is
held. -/
def ofJson? (levels : Nat) (j : Json) : Option Bundle := do
  let fields ← j.fields? ["group_name", "task_id", "epoch", "operators"]
  let group ← fields.required 0 Json.string?
  let task ← fields.required 1 Json.string?
  let epoch ← fields.defaulted 2 Json.word? 0
  let operators ← fields.required 3 (tableOfJson? (OperatorView.ofJson? (levels - 2)))
  some ⟨group, task, epoch, operators⟩

/-- The text of a bundle. -/
def print (b : Bundle) : Bytes := b.toJson.print

/-- The bundle that a text describes. -/
def parse? (text : Bytes) : Option Bundle := (Json.parse? text).bind (ofJson? Json.maxLevels)

end Bundle

end Collective
