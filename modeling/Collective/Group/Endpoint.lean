import Collective.Group.Call
import Collective.Payload.Codec
import Collective.Share

/-!
# Endpoints

A task calls an operator through an endpoint, made from the task's bundle for its side of the
operator and a type of values. Making one fails, in this order, when the bundle has no such
operator, when the operator is of another kind, when its codec does not carry values of the type,
and when the task is on the other side.
-/

namespace Collective

/-- A task's end of an operator. -/
structure Endpoint (α : Type) where
  operator : String
  place : Place
  passage : Passage α

/-! ## Making endpoints -/

namespace Bundle

/-- The view of an operator of a kind. -/
def view (b : Bundle) (name : String) (kind : OperatorKind) : Except GroupError OperatorView :=
  match b.operator name with
  | .error e => .error (.unknownOperator e.name)
  | .ok view =>
    if view.spec.kind = kind then .ok view
    else .error (.wrongKind name kind view.spec.kind)

/-- The endpoint of an operator of a kind, for a task of a role. -/
def endpoint (b : Bundle) (type : PayloadType) (name : String) (kind : OperatorKind) (role : Role)
    (otherwise : GroupError) : Except GroupError (Endpoint type.Carrier) := do
  let view ← b.view name kind
  match type.codec view.spec.codec with
  | .error e => .error (.serialization e)
  | .ok codec =>
    if view.place.role = role then
      .ok ⟨name, view.place, ⟨codec, type.converter view.spec.pipeline⟩⟩
    else .error otherwise

/-- The root's end of a broadcast. -/
def broadcastSender (b : Bundle) (type : PayloadType) (name : String) :
    Except GroupError (Endpoint type.Carrier) :=
  b.endpoint type name .broadcast .sender (.notRoot b.task name)

/-- Another task's end of a broadcast. -/
def broadcastReceiver (b : Bundle) (type : PayloadType) (name : String) :
    Except GroupError (Endpoint type.Carrier) :=
  b.endpoint type name .broadcast .receiver (.notReceiver b.task name)

/-- The end of a reduction at a task other than the root, whatever the function. -/
def reduceSenderWith (b : Bundle) (type : PayloadType) (name : String) :
    Except GroupError (Endpoint type.Carrier) :=
  b.endpoint type name .reduce .sender (.notSender b.task name)

/-- The root's end of a reduction, whatever the function. -/
def reduceReceiverWith (b : Bundle) (type : PayloadType) (name : String) :
    Except GroupError (Endpoint type.Carrier) :=
  b.endpoint type name .reduce .receiver (.notRoot b.task name)

/-- The built-in function of a reduction. -/
def reduction (b : Bundle) (name : String) : Except GroupError Reduction := do
  let view ← b.view name .reduce
  match view.spec.reduction? with
  | some function => .ok function
  | none => .error (.unknownOperator name)

/-- The end of a reduction at a task other than the root, with the built-in function. -/
def reduceSender (b : Bundle) (type : NumericType) (name : String) :
    Except GroupError (Endpoint type.Carrier × Reduction) := do
  let function ← b.reduction name
  let endpoint ← b.reduceSenderWith (.numeric type) name
  .ok (endpoint, function)

/-- The root's end of a reduction, with the built-in function. -/
def reduceReceiver (b : Bundle) (type : NumericType) (name : String) :
    Except GroupError (Endpoint type.Carrier × Reduction) := do
  let function ← b.reduction name
  let endpoint ← b.reduceReceiverWith (.numeric type) name
  .ok (endpoint, function)

/-- The root's end of a scatter of lists. -/
def scatterSender (b : Bundle) (element : ElementType) (name : String) :
    Except GroupError (Endpoint (List element.Carrier)) :=
  b.endpoint (.list element) name .scatter .sender (.notRoot b.task name)

/-- Another task's end of a scatter of lists. -/
def scatterReceiver (b : Bundle) (element : ElementType) (name : String) :
    Except GroupError (Endpoint (List element.Carrier)) :=
  b.endpoint (.list element) name .scatter .receiver (.notReceiver b.task name)

end Bundle

/-! ## Calling them -/

namespace Endpoint

variable {α ε : Type}

/-- A call that needs the task's parent. The root has none, and no endpoint made for a task below
it lacks one. -/
def withParent (e : Endpoint α) (call : String → Call α β) : Call α β :=
  match e.place.parent with
  | some parent => call parent
  | none => .fail (.notReceiver e.place.task e.operator)

/-- The root sends a value to every child. -/
def sendBroadcast (e : Endpoint α) (value : α) : Call α Unit :=
  .sendValue e.passage e.place.children value (.finished (.ok ()))

/-- A task waits for the value from its parent and relays it to its children. -/
def receiveBroadcast (e : Endpoint α) : Call α α :=
  e.withParent fun parent =>
    .receive (.from parent) e.place.children fun value => .finished (.ok value)

/-- A task folds its own value with those of its children, its own first, and sends the result to
its parent. -/
def sendReduce (e : Endpoint α) (function : List α → Except ReductionError α) (value : α) :
    Call α Unit :=
  e.withParent fun parent =>
    .gatherFrom e.place.children fun values =>
      match function (value :: values) with
      | .error e => .fail (.reduction e)
      | .ok result => .sendValue e.passage [parent] result (.finished (.ok ()))

/-- The root folds the values of its children. -/
def receiveReduce (e : Endpoint α) (function : List α → Except ReductionError α) : Call α α :=
  .gatherFrom e.place.children fun values => .finished ((function values).mapError .reduction)

/-- The root sends each child a share of a list; a root without children drops the list. -/
def sendScatter (e : Endpoint (List ε)) (elements : List ε) : Call (List ε) Unit :=
  let shares := Share.shares e.place.children.length elements
  .sendEach e.passage (e.place.children.zip shares) (.finished (.ok ()))

/-- A task waits for its subtree's share, keeps the front of it and sends each child a share of
the rest. -/
def receiveScatter (e : Endpoint (List ε)) : Call (List ε) (List ε) :=
  e.withParent fun parent =>
    .receive (.from parent) [] fun share =>
      let parts := Share.shares (e.place.children.length + 1) share
      .sendEach e.passage (e.place.children.zip parts.tail) (.finished (.ok (parts.headD [])))

end Endpoint

end Collective
