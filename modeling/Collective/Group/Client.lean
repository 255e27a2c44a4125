import Collective.Group.Endpoint
import Collective.Group.Mailbox
import Collective.Manager.Basic

/-!
# Clients

A client is a task's part in a group. It publishes where its manager listens, puts the messages that
reach the manager into mailboxes and stamps those that it sends with its epoch. Messages with an
older stamp are skipped when they are received. A new bundle replaces the old one; the epoch never
goes back. A client that has been shut down sends and receives no more.

What a client does in one call of its own is given here as the indivisible steps of the call.
-/

namespace Collective

/-- Messages as JSON texts. -/
def Message.codec : Codec Message := .json Message.toJson Message.ofJson?

/-- A task's part in a group. -/
structure Client where
  /-- The group and the task, which no bundle changes. -/
  group : String
  task : String
  /-- The bundle installed last. -/
  bundle : Bundle
  /-- The epoch by which messages are stamped and skipped. -/
  epoch : UInt64
  mailboxes : Mailboxes
  /-- The manager, whose one observer puts messages into the mailboxes. -/
  manager : Manager Unit
  /-- The registration of that observer. -/
  registration : Option Registration
  /-- The longest time that a receiver waits. -/
  limit : Option Nat
  /-- The client has been shut down. -/
  cancelled : Bool
  deriving DecidableEq, Repr

namespace Client

/-- A task joins the group over a manager, which has to listen, and publishes its address. -/
def join (bundle : Bundle) (manager : Manager Unit) (limit : Option Nat) (names : Registry) :
    Except GroupError (Client × Registry) :=
  match manager.home with
  | none => .error (.notListening bundle.task)
  | some home =>
    let (observers, registration) := manager.observers.observeAll ()
    .ok ({
      group := bundle.group
      task := bundle.task
      bundle
      epoch := bundle.epoch
      mailboxes := .empty
      manager := { manager with observers }
      registration := some registration
      limit
      cancelled := false }, names.register bundle.task home)

/-- The name service has the address where the client listens. -/
def isPublished (c : Client) (names : Registry) : Bool :=
  match names.lookup c.task with
  | .ok address => c.manager.home = some address
  | .error _ => false

/-! ## Receiving -/

/-- A message that has reached the client's manager goes into its mailbox, if it is for this group
and task. -/
def route (c : Client) (m : Message) : Client :=
  if m.group = c.group ∧ m.destination = c.task then
    { c with mailboxes := c.mailboxes.deliver m }
  else c

/-- What the client does with a message that its manager has read from a source. -/
def hear (c : Client) (source : Address) (m : Message) : Client :=
  (c.manager.observers.hearing source).foldl (fun c _ => c.route m) c

/-- A receiver asks for the queue from which it will take messages. -/
def openQueue (c : Client) (box : Mailbox) : Client × Nat :=
  let (mailboxes, number) := c.mailboxes.opened box
  ({ c with mailboxes }, number)

/-- A receiver takes a message out of a queue; one with an older stamp is skipped. -/
def pop? (c : Client) (number : Nat) : Option (Client × Option Message) :=
  (c.mailboxes.pop? number).map fun (m, mailboxes) =>
    ({ c with mailboxes }, if c.epoch ≤ m.epoch then some m else none)

/-- Why a receiver that gets nothing gives up: the client is shut down, or the time is over. -/
def giveUp (c : Client) (box : Mailbox) : GroupError :=
  if c.cancelled then .connectionClosed box.source else .timeout box.operator box.source

/-! ## Sending -/

/-- The first steps of a send: the client must not be shut down, and the task must have an
address. -/
def resolve (c : Client) (names : Registry) (destination : String) : Except GroupError Address :=
  if c.cancelled then .error (.connectionClosed destination)
  else (names.lookup destination).mapError .ofUnresolved

/-- The message that carries a chunk, stamped when it is made. -/
def stamp (c : Client) (operator : String) (parcel : Parcel) : Message where
  group := c.group
  epoch := c.epoch
  operator
  source := c.task
  destination := parcel.destination
  chunk := parcel.chunk.header
  payload := parcel.chunk.data

/-- A transport error on the way to a task: a peer that is gone is a closed connection. -/
def peerError (destination : String) (e : TransportError) : GroupError :=
  if e.isDisconnect then .connectionClosed destination else .ofTransport e

/-- The last step of a send: the message joins the queue of a link. -/
def post (c : Client) (link : Nat) (m : Message) : Except TransportError Client :=
  match Message.codec.encode m with
  | .error e => .error (.serialization e)
  | .ok frame => (c.manager.send link frame).map fun manager => { c with manager }

/-- A send while no other step happens; `reach` says what opening a connection comes to. -/
def send (reach : Address → Except TransportError Unit) (names : Registry) (operator : String)
    (c : Client) (parcel : Parcel) : Client × Except GroupError Unit :=
  match c.resolve names parcel.destination with
  | .error e => (c, .error e)
  | .ok address =>
    match c.manager.dial reach address with
    | (manager, .error e) => ({ c with manager }, .error (peerError parcel.destination e))
    | (manager, .ok link) =>
      let c := { c with manager }
      match c.post link (c.stamp operator parcel) with
      | .error e => (c, .error (peerError parcel.destination e))
      | .ok c => (c, .ok ())

/-! ## Changes -/

/-- The steps of installing a bundle of the client's task: mailboxes of tasks that are no longer
neighbours are dropped, the epoch rises, and the bundle takes its place. -/
def dropStrangers (c : Client) (bundle : Bundle) : Client :=
  { c with mailboxes := c.mailboxes.retain bundle.neighbors }

/-- The epoch rises to that of a bundle. -/
def raiseEpoch (c : Client) (bundle : Bundle) : Client :=
  { c with epoch := max c.epoch bundle.epoch }

/-- The bundle takes its place. -/
def install (c : Client) (bundle : Bundle) : Client := { c with bundle }

/-- A new bundle, which has to be one of the client's task. -/
def reconfigure (c : Client) (bundle : Bundle) : Except GroupError Client :=
  if bundle.task = c.task then .ok (((c.dropStrangers bundle).raiseEpoch bundle).install bundle)
  else .error (.membership (.unknown bundle.task))

/-- The first step of leaving: the manager's messages are heard no more. -/
def deafen (c : Client) : Client :=
  match c.registration with
  | some registration =>
    { c with
      manager := { c.manager with observers := c.manager.observers.withdraw registration }
      registration := none }
  | none => c

/-- The client leaves the group: its name is withdrawn and its links are closed. -/
def shutdown (c : Client) (names : Registry) : Client × Registry :=
  let c := c.deafen
  ({ c with cancelled := true, manager := c.manager.dispose }, names.unregister c.task)

end Client

end Collective
