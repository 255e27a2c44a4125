import Collective.Group.Session

/-!
# A group at work

The calls of all tasks, the messages under way between them and the bundles being installed go on at
the same time. A system is a session and how far each of these has come; an event is one indivisible
step of one of them. Messages between the same two clients arrive in the order in which they were
sent, and nothing else orders events. `Reachable` lets them follow each other under a condition on
each, so that a run in which, say, no bundle changes is one of its instances.
-/

namespace Collective

/-- A call of an endpoint that a client has begun. -/
structure Job (β : Type) where
  client : Nat
  operator : String
  type : PayloadType
  passage : Passage type.Carrier
  /-- The call as it began. -/
  begun : Call type.Carrier β
  /-- What is left of it. -/
  call : Call type.Carrier β
  /-- The queues from which it is taking, by source. -/
  held : List (String × Nat)

/-- A message under way between two clients. -/
structure Letter where
  sender : Nat
  receiver : Nat
  message : Message
  deriving DecidableEq, Repr

/-- How far installing a bundle has come. -/
inductive Installation where
  /-- It drops the mailboxes of strangers, if the bundle is one of the client's task. -/
  | start
  /-- It raises the epoch. -/
  | raise
  /-- It puts the bundle in its place. -/
  | replace
  | done (result : Except GroupError Unit)

/-- The next step of installing a bundle. -/
def Installation.step? (bundle : Bundle) (c : Client) :
    Installation → Option (Client × Installation)
  | .start =>
    if bundle.task = c.task then some (c.dropStrangers bundle, .raise)
    else some (c, .done (.error (.membership (.unknown bundle.task))))
  | .raise => some (c.raiseEpoch bundle, .replace)
  | .replace => some (c.install bundle, .done (.ok ()))
  | .done _ => none

/-- A group at work. Calls end with a `β`. -/
structure System (β : Type) where
  session : Session
  /-- The messages that have been sent and have not arrived, in the order in which they were
  sent. -/
  transit : List Letter
  /-- All messages that have been sent, in order. -/
  sent : List Letter
  /-- All messages that have arrived, in order. -/
  arrived : List Letter
  /-- All calls, in the order in which they began. -/
  jobs : List (Job β)
  /-- The bundles being installed, with their clients. -/
  installations : List (Nat × Bundle × Installation)

namespace Job

variable {β : Type}

/-- A call that an endpoint's client begins. -/
def new (client : Nat) (type : PayloadType) (e : Endpoint type.Carrier)
    (call : Call type.Carrier β) : Job β :=
  ⟨client, e.operator, type, e.passage, call, call, []⟩

/-- What the call has come to, if it has ended. -/
def result? (job : Job β) : Option (Except GroupError β) :=
  match job.call with
  | .finished result => some result
  | _ => none

/-- The queue from which the call is taking what a task sends, while it needs a chunk from there. -/
def queue? (job : Job β) (source : String) : Option Nat :=
  if source ∈ job.call.awaits then job.held.lookup source else none

/-- The call ends with an error. -/
def fail (job : Job β) (e : GroupError) : Job β := { job with call := .fail e, held := [] }

end Job

namespace System

variable {β : Type}

/-- A session in which nothing goes on. -/
def idle (session : Session) : System β := ⟨session, [], [], [], [], []⟩

/-- One step, of a call or a bundle by its number. -/
inductive Event (β : Type) where
  /-- A call begins. -/
  | begin (job : Job β)
  /-- A call sends its next chunk. -/
  | send (job : Nat)
  /-- A call asks for the queue of a task from which it needs a chunk. -/
  | hold (job : Nat) (source : String)
  /-- A call takes a message out of the queue of a task. -/
  | take (job : Nat) (source : String)
  /-- A call stops waiting for a task. -/
  | giveUp (job : Nat) (source : String)
  /-- A message arrives. -/
  | deliver (letter : Nat)
  /-- A client is given a bundle. -/
  | reconfigure (client : Nat) (bundle : Bundle)
  /-- Installing a bundle goes on. -/
  | install (installation : Nat)
  /-- The client of a task leaves. -/
  | shutdown (task : String)

/-- The client of a number. -/
def client? (s : System β) (number : Nat) : Option Client := s.session.clients[number]?

/-- The system with another state of a client. -/
def putClient (s : System β) (number : Nat) (c : Client) : System β :=
  { s with session := s.session.put number c }

/-- The system with another state of a call. -/
def putJob (s : System β) (number : Nat) (job : Job β) : System β :=
  { s with jobs := s.jobs.set number job }

/-- The client that listens at an address. -/
def listener? (s : System β) (address : Address) : Option Nat :=
  s.session.clients.findIdx? fun c => c.manager.home = some address && !c.manager.disposed

/-! ## Steps -/

/-- A call sends its next chunk to whoever listens at the address of the task. That there is a link
for it and that its frame is not too long is taken for granted; a send that gets its link first is
`System.transmit?`. -/
def send? (s : System β) (number : Nat) : Option (System β) := do
  let job ← s.jobs[number]?
  let (parcel, rest) ← job.call.sent?
  let c ← s.client? job.client
  match c.resolve s.session.names parcel.destination with
  | .error e => some (s.putJob number (job.fail e))
  | .ok address =>
    match s.listener? address with
    | none => some (s.putJob number (job.fail (.connectionClosed parcel.destination)))
    | some receiver =>
      let letter : Letter := ⟨job.client, receiver, c.stamp job.operator parcel⟩
      let s := s.putJob number { job with call := rest }
      some { s with transit := s.transit ++ [letter], sent := s.sent ++ [letter] }

/-- A call asks for the queue of a task from which it needs a chunk. -/
def hold? (s : System β) (number : Nat) (source : String) : Option (System β) := do
  let job ← s.jobs[number]?
  let c ← s.client? job.client
  if source ∈ job.call.awaits ∧ job.held.lookup source = none then
    let (c, queue) := c.openQueue ⟨job.operator, source⟩
    some ((s.putClient job.client c).putJob number { job with held := (source, queue) :: job.held })
  else none

/-- A call takes the first message out of the queue of a task. One with an older stamp is skipped,
and the call goes on waiting. -/
def take? (s : System β) (number : Nat) (source : String) : Option (System β) := do
  let job ← s.jobs[number]?
  let queue ← job.queue? source
  let c ← s.client? job.client
  let (c, message) ← c.pop? queue
  let s := s.putClient job.client c
  match message with
  | none => some s
  | some m =>
    let call ← job.call.take? job.passage source ⟨m.chunk, m.payload⟩
    some (s.putJob number { job with call, held := job.held.filter (·.1 ≠ source) })

/-- A call stops waiting for a task, because its client has left or its time is over. -/
def giveUp? (s : System β) (number : Nat) (source : String) : Option (System β) := do
  let job ← s.jobs[number]?
  let _queue ← job.queue? source
  let c ← s.client? job.client
  if c.cancelled || c.limit.isSome then
    some (s.putJob number (job.fail (c.giveUp ⟨job.operator, source⟩)))
  else none

/-- A message arrives that no other of the same sender and receiver is ahead of. -/
def deliver? (s : System β) (number : Nat) : Option (System β) := do
  let letter ← s.transit[number]?
  let c ← s.client? letter.receiver
  let home ← (← s.client? letter.sender).manager.home
  let ahead := s.transit.take number
  if ahead.any fun l => l.sender = letter.sender ∧ l.receiver = letter.receiver then none
  else
    let s := s.putClient letter.receiver (c.hear home letter.message)
    some { s with transit := s.transit.eraseIdx number, arrived := s.arrived ++ [letter] }

/-- Installing a bundle goes on. -/
def install? (s : System β) (number : Nat) : Option (System β) := do
  let (client, bundle, installation) ← s.installations[number]?
  let c ← s.client? client
  let (c, installation) ← installation.step? bundle c
  let s := s.putClient client c
  some { s with installations := s.installations.set number (client, bundle, installation) }

/-- The system after a step, where the step can happen. -/
def step? (s : System β) : Event β → Option (System β)
  | .begin job => some { s with jobs := s.jobs ++ [job] }
  | .send job => s.send? job
  | .hold job source => s.hold? job source
  | .take job source => s.take? job source
  | .giveUp job source => s.giveUp? job source
  | .deliver letter => s.deliver? letter
  | .reconfigure client bundle =>
    some { s with installations := s.installations ++ [(client, bundle, .start)] }
  | .install installation => s.install? installation
  | .shutdown task => some { s with session := s.session.shutdown task }

/-- What a system can become by steps that are allowed where they happen. -/
inductive Reachable (allowed : System β → Event β → Prop) (start : System β) : System β → Prop
  | start : Reachable allowed start start
  | step {s t : System β} {event : Event β} : Reachable allowed start s → allowed s event →
      s.step? event = some t → Reachable allowed start t

/-- What holds at the start and is kept by every allowed step holds throughout. -/
theorem Reachable.induct {allowed : System β → Event β → Prop} {start s : System β}
    {P : System β → Prop} (hstart : P start)
    (hstep : ∀ s t event, P s → allowed s event → s.step? event = some t → P t)
    (h : Reachable allowed start s) : P s := by
  induction h with
  | start => exact hstart
  | step _ hallowed ht ih => exact hstep _ _ _ ih hallowed ht

/-- The calls of a client, in the order in which they began. -/
def jobsOf (s : System β) (client : Nat) : List (Job β) := s.jobs.filter (·.client = client)

/-- No call of a client goes on. -/
def isIdle (s : System β) (client : Nat) : Bool := (s.jobsOf client).all (·.result?.isSome)

end System

end Collective
