import Collective.Group.Coordinator
import Collective.Group.Execution

/-!
# Sessions

A session is a group at work: its coordinator, its name service and the clients of its tasks. A task
that joins again gets a new client; the old one lives on as long as someone uses it, and its name
stays published until a client of that task is shut down.
-/

namespace Collective

/-- A group at work. -/
structure Session where
  coordinator : Coordinator
  names : Registry
  /-- All clients there have been, by number. -/
  clients : List Client
  /-- The number of the present client of each task. -/
  present : Table String Nat
  deriving DecidableEq, Repr

namespace Session

/-- A group that nobody has joined. -/
def new (coordinator : Coordinator) : Session := ⟨coordinator, .empty, [], .empty⟩

/-- The present client of a task, with its number. -/
def client? (s : Session) (task : String) : Option (Nat × Client) :=
  (s.present.get? task).bind fun number => (s.clients[number]?).map (number, ·)

/-- The session with another state of a client. -/
def put (s : Session) (number : Nat) (c : Client) : Session :=
  { s with clients := s.clients.set number c }

/-- The bundle that the coordinator has for a task. -/
def bundle (s : Session) (task : String) : Except GroupError Bundle :=
  (s.coordinator.bundle task).mapError .membership

/-- A task joins with a bundle, over a manager and with a limit on the time it waits. -/
def join (s : Session) (task : String) (bundle : Bundle) (manager : Manager Unit)
    (limit : Option Nat) : Except GroupError (Session × Client) := do
  let (c, names) ← Client.join bundle manager limit s.names
  .ok ({ s with
    names
    clients := s.clients ++ [c]
    present := s.present.insert task s.clients.length }, c)

/-- The client of a task gets a bundle. -/
def reconfigure (s : Session) (task : String) (bundle : Bundle) : Except GroupError Session :=
  match s.client? task with
  | some (number, c) => (c.reconfigure bundle).map (s.put number)
  | none => .ok s

/-- Every present client gets the coordinator's bundle, or none does. -/
def reconfigureAll (s : Session) : Except GroupError Session :=
  s.present.keys.foldlM (fun s' task => do s'.reconfigure task (← s.bundle task)) s

/-- The client of a task leaves the group. -/
def shutdown (s : Session) (task : String) : Session :=
  match s.client? task with
  | some (number, c) =>
    let (c, names) := c.shutdown s.names
    { s.put number c with names }
  | none => s

/-- The client of a task is no longer used, but has not left. -/
def drop (s : Session) (task : String) : Session := { s with present := s.present.erase task }

/-- A client carries out a call as far as it can. -/
def begin (s : Session) (reach : Address → Except TransportError Unit) (number : Nat)
    (e : Endpoint α) (call : Call α β) : Session × Call α β :=
  match s.clients[number]? with
  | some c =>
    let (c, call) := c.begin reach s.names e call
    (s.put number c, call)
  | none => (s, call)

/-- What a call of a client comes to if no message comes any more. -/
def conclude (s : Session) (number : Nat) (operator : String) (call : Call α β) :
    Option (Except GroupError β) :=
  (s.clients[number]?).bind fun c => c.conclude operator call

end Session

end Collective
