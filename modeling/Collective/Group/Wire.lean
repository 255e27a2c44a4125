import Collective.Group.System

/-!
# A group over its links

In a `System` a message is under way as soon as somebody listens where it goes. Here it goes the way
that it really takes. The client of the sender asks its manager for a link, which opens a connection
if it has none; the message is written as a frame, and the frame joins the queue of the link. All of
this may fail. Managers also take over the connections that others open. Everything else is as in a
`System`.
-/

namespace Collective

/-- What a message is on a connection. -/
def Message.frame (m : Message) : Bytes := m.toJson.print

namespace System

variable {β : Type}

/-- What opening a connection comes to: somebody has to listen at the address. -/
def reach (s : System β) (address : Address) : Except TransportError Unit :=
  if (s.listener? address).isSome then .ok ()
  else .error (.connect address ⟨.named "ConnectionRefused", "connection refused"⟩)

/-- A call sends its next chunk over a link of its client. What joins the queue of a link is lost if
nobody listens at the other end any more. -/
def transmit? (s : System β) (number : Nat) : Option (System β) := do
  let job ← s.jobs[number]?
  let (parcel, rest) ← job.call.sent?
  let c ← s.client? job.client
  match c.send s.reach s.session.names job.operator parcel with
  | (d, .error e) => some ((s.putClient job.client d).putJob number (job.fail e))
  | (d, .ok ()) =>
    let address := (c.resolve s.session.names parcel.destination).toOption
    let letters := (address.bind s.listener?).toList.map fun receiver =>
      (⟨job.client, receiver, c.stamp job.operator parcel⟩ : Letter)
    let s := (s.putClient job.client d).putJob number { job with call := rest }
    some { s with transit := s.transit ++ letters, sent := s.sent ++ letters }

/-- The system after a step, where the step can happen; messages are sent over links. -/
def wireStep? (s : System β) : Event β → Option (System β)
  | .send job => s.transmit? job
  | event => s.step? event

/-- What a system can become by steps that are allowed where they happen, while managers take over
connections from anywhere. -/
inductive WireReachable (allowed : System β → Event β → Prop) (start : System β) : System β → Prop
  | start : WireReachable allowed start start
  | step {s t : System β} {event : Event β} : WireReachable allowed start s → allowed s event →
      s.wireStep? event = some t → WireReachable allowed start t
  | adopt {s : System β} {client : Nat} {c : Client} (source : Address) :
      WireReachable allowed start s → s.client? client = some c →
      WireReachable allowed start (s.putClient client { c with manager := c.manager.adopt source })

/-- The frame that a call sends next, and the length that its client's manager allows. -/
def nextFrame? (s : System β) (number : Nat) : Option (Bytes × Nat) := do
  let job ← s.jobs[number]?
  let (parcel, _) ← job.call.sent?
  let c ← s.client? job.client
  some ((c.stamp job.operator parcel).frame, c.manager.maxFrame)

/-- A step sends no frame that is too long. -/
def fits (s : System β) : Event β → Bool
  | .send number => (s.nextFrame? number).all fun (frame, max) => frame.length ≤ max
  | _ => true

end System

end Collective
