import Collective.Manager.Activity

/-!
# Observers that come and go

While a manager is at work, observers are registered with it and registrations are withdrawn; each
of these calls is one step among the others. Registrations go by number, in the order in which they
were made. `hearing` reads off the history of a manager by which registrations its observers hear of
a message.
-/

namespace Collective

/-- A manager at work, with the registrations made with it, in order. -/
structure Audience (ω α : Type) where
  activity : Activity ω α
  registrations : List Registration

namespace Audience

variable {ω α : Type}

/-- A step at a manager. -/
inductive Event (ω : Type) where
  /-- An observer is bound to a source. -/
  | observe (source : Address) (observer : ω)
  /-- An observer of every message is registered. -/
  | observeAll (observer : ω)
  /-- The registration of a number is withdrawn. -/
  | withdraw (number : Nat)
  /-- The manager's work goes on. -/
  | work (event : Activity.Event)

/-- A manager that has done nothing, and that nobody observes. -/
def new (home : Option Address) (maxFrame : Nat) : Audience ω α := ⟨.idle (.new home maxFrame), []⟩

/-- The manager. -/
def manager (a : Audience ω α) : Manager ω := a.activity.manager

/-- The manager with other observers. -/
def putObservers (a : Audience ω α) (observers : Observers ω) : Audience ω α :=
  { a with activity := { a.activity with manager := { a.manager with observers } } }

/-- A registration has been made. -/
def register (a : Audience ω α) (made : Observers ω × Registration) : Audience ω α :=
  { a.putObservers made.1 with registrations := a.registrations ++ [made.2] }

/-- How things stand after a step, where the step can happen. -/
def step? (decode : Bytes → Except CodecError α) (a : Audience ω α) :
    Event ω → Option (Audience ω α)
  | .observe source observer => some (a.register (a.manager.observers.observe source observer))
  | .observeAll observer => some (a.register (a.manager.observers.observeAll observer))
  | .withdraw number => (a.registrations[number]?).map fun registration =>
    a.putObservers (a.manager.observers.withdraw registration)
  | .work event => (a.activity.step? decode event).map fun activity => { a with activity }

/-- How things stand after several steps. -/
def run? (decode : Bytes → Except CodecError α) (a : Audience ω α) (history : List (Event ω)) :
    Option (Audience ω α) :=
  history.foldlM (step? decode) a

/-! ## What a history says -/

/-- An observer that has been registered. -/
structure Entry (ω : Type) where
  /-- The source to which it is bound, unless it observes every message. -/
  source : Option Address
  observer : ω
  /-- The number of its registration. -/
  number : Nat
  deriving DecidableEq, Repr

/-- The observers that a history registers, in order, with the sources to which they are bound. -/
def registered (history : List (Event ω)) : List (Option Address × ω) :=
  history.filterMap fun
    | .observe source observer => some (some source, observer)
    | .observeAll observer => some (none, observer)
    | _ => none

/-- The same, numbered. -/
def entries (history : List (Event ω)) : List (Entry ω) :=
  (registered history).zipIdx.map fun ((source, observer), number) => ⟨source, observer, number⟩

/-- The numbers of the registrations that a history withdraws. -/
def withdrawn (history : List (Event ω)) : List Nat :=
  history.filterMap fun
    | .withdraw number => some number
    | _ => none

/-- The latest registration that binds an observer to a source. -/
def latest? (history : List (Event ω)) (source : Address) : Option (Entry ω) :=
  ((entries history).filter (·.source = some source)).getLast?

/-- The registrations of observers of every message. -/
def general (history : List (Event ω)) : List (Entry ω) :=
  (entries history).filter (·.source = none)

/-- The registrations by which observers hear of a message from a source, in the order in which they
do: the latest that binds one to the source, and those of all observers of every message, unless
they have been withdrawn. -/
def hearing (history : List (Event ω)) (source : Address) : List (Entry ω) :=
  ((latest? history source).toList ++ general history).filter (·.number ∉ withdrawn history)

/-- What an observer is told of a message from a source. -/
def Entry.notice (e : Entry ω) (source : Address) (message : α) : ω × Notice α :=
  (e.observer, if e.source.isSome then .value message else .message source message)

end Audience

end Collective
