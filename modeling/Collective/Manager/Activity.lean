import Collective.Manager.Reading

/-!
# A manager at work

Calls for links, connections that peers open, read loops, sends and disposals all go on at the same
time. An activity is a manager and how far each of them has come; an event is one indivisible step
of one of them, and events follow each other in any order. A manager that has once been disposed of
stays so, whatever the step (`Manager.Succeeds`).
-/

namespace Collective

/-- The read loop of a link. -/
structure Reader where
  link : Nat
  source : Address
  inlet : Inlet
  reading : Reading
  deriving DecidableEq, Repr

/-- How far the connection of a peer has come. -/
inductive Inbound.Stage where
  /-- The handshake is to come. -/
  | greeting
  /-- The link is being taken over; all that it brings comes from the source. -/
  | adopting (source : Address) (adoption : Adoption)
  /-- The connection has been turned away. -/
  | refused (e : TransportError)
  /-- The manager has been cancelled before the handshake was taken. -/
  | abandoned
  deriving DecidableEq, Repr

/-- The connection of a peer, with what has arrived over it and is not yet taken. -/
structure Inbound where
  peer : Address
  inlet : Inlet
  stage : Inbound.Stage
  deriving DecidableEq, Repr

/-- A frame that has been let through to a link and has not yet joined its queue, or what sending it
came to. -/
structure Sending where
  link : Nat
  frame : Bytes
  answer : Option (Except TransportError Unit)

/-- What goes on at a manager, in the order in which it began. -/
structure Activity (ω α : Type) where
  manager : Manager ω
  /-- The calls for links, with their destinations. -/
  dials : List (Address × Dial)
  /-- The connections that peers have opened. -/
  inbounds : List Inbound
  readers : List Reader
  sendings : List Sending
  disposals : List Disposal
  /-- What observers have been told. -/
  notices : List (ω × Notice α)

namespace Activity

variable {ω α : Type}

/-- A manager at which nothing goes on. -/
def idle (manager : Manager ω) : Activity ω α := ⟨manager, [], [], [], [], [], []⟩

/-- A step of something that goes on, by its number. -/
inductive Event where
  /-- A call for a link begins. -/
  | dial (destination : Address)
  /-- A call for a link goes on; `reach` is what opening a connection comes to. -/
  | dialStep (call : Nat) (reach : Except TransportError Unit)
  /-- A peer opens a connection. -/
  | connect (peer : Address)
  /-- Bytes arrive over a peer's connection before its handshake is taken. -/
  | arrive (inbound : Nat) (piece : Bytes)
  /-- A peer ends its stream before its handshake is taken. -/
  | depart (inbound : Nat)
  /-- The handshake of a peer is taken, or it is too `late` for one; `names` is what names stand for
  at this time. -/
  | greet (inbound : Nat) (names : Address.Resolver) (late : Bool)
  /-- A connection is dropped before its handshake is taken. -/
  | abandon (inbound : Nat)
  /-- Taking over a peer's connection goes on. -/
  | adopt (inbound : Nat)
  /-- Bytes arrive for a read loop. -/
  | receive (reader : Nat) (piece : Bytes)
  /-- The peer of a read loop ends its stream. -/
  | finish (reader : Nat)
  /-- A read loop goes on. -/
  | read (reader : Nat)
  /-- Somebody begins to send a frame over a link. -/
  | send (link : Nat) (frame : Bytes)
  /-- A frame joins the queue of its link. -/
  | join (sending : Nat)
  | dispose
  /-- A disposal goes on. -/
  | disposeStep (disposal : Nat)
  /-- A link is closed, or its writer goes on. -/
  | link (number : Nat) (event : Link.Event)

/-- The loop that a call starts when it has opened a connection. -/
def started (destination : Address) : Dial → List Reader
  | .store _ _ link => [⟨link, destination, .start, .next⟩]
  | _ => []

/-- The activity after a step of a call for a link. -/
def dialStep? (a : Activity ω α) (call : Nat) (reach : Except TransportError Unit) :
    Option (Activity ω α) := do
  let (destination, d) ← a.dials[call]?
  let (manager, d) ← d.step? reach destination a.manager
  some { a with
    manager
    dials := a.dials.set call (destination, d)
    readers := a.readers ++ started destination d }

/-- The activity with another state of a peer's connection. -/
def putInbound (a : Activity ω α) (number : Nat) (inbound : Inbound) : Activity ω α :=
  { a with inbounds := a.inbounds.set number inbound }

/-- The activity after something has come over a peer's connection before its handshake is taken. -/
def arrive? (a : Activity ω α) (number : Nat) (change : Inlet → Inlet) :
    Option (Activity ω α) := do
  let inbound ← a.inbounds[number]?
  if inbound.stage = .greeting then
    some (a.putInbound number { inbound with inlet := change inbound.inlet })
  else none

/-- The activity after the handshake of a peer has been taken, which has to have arrived, or after
the time for it has passed. -/
def greet? (a : Activity ω α) (number : Nat) (names : Address.Resolver) (late : Bool) :
    Option (Activity ω α) := do
  let inbound ← a.inbounds[number]?
  if inbound.stage = .greeting then
    match ← Link.accept? names late inbound.peer a.manager.maxFrame inbound.inlet with
    | .error e => some (a.putInbound number { inbound with stage := .refused e })
    | .ok (link, inlet) =>
      let (manager, made) := a.manager.addLink link false
      let stage := .adopting link.remote (.look made)
      some ({ a with manager }.putInbound number { inbound with inlet, stage })
  else none

/-- The activity after a connection has been dropped before its handshake was taken, as happens once
the manager has been cancelled. -/
def abandon? (a : Activity ω α) (number : Nat) : Option (Activity ω α) := do
  let inbound ← a.inbounds[number]?
  if inbound.stage = .greeting ∧ a.manager.cancelled then
    some (a.putInbound number { inbound with stage := .abandoned })
  else none

/-- The loop that reads from a connection once it has been taken over. -/
def adopted (source : Address) (inlet : Inlet) : Adoption → List Reader
  | .store link _ => [⟨link, source, inlet, .next⟩]
  | _ => []

/-- The activity after a step of taking over a connection. -/
def adopt? (a : Activity ω α) (number : Nat) : Option (Activity ω α) := do
  let inbound ← a.inbounds[number]?
  match inbound.stage with
  | .adopting source adoption =>
    let (manager, next) ← adoption.step? source a.manager
    let readers := a.readers ++ adopted source inbound.inlet adoption
    some ({ a with manager, readers }.putInbound number
      { inbound with stage := .adopting source next })
  | _ => none

/-- The activity after a step of a read loop. -/
def read? (decode : Bytes → Except CodecError α) (a : Activity ω α) (reader : Nat) :
    Option (Activity ω α) := do
  let r ← a.readers[reader]?
  let offer := r.inlet.offer? a.manager.maxFrame
  let outcome ← r.reading.step? decode r.source r.link (offer.map (·.1)) a.manager
  let inlet := if outcome.took then (offer.map (·.2)).getD r.inlet else r.inlet
  some { a with
    manager := outcome.manager
    readers := a.readers.set reader { r with inlet, reading := outcome.reading }
    notices := a.notices ++ outcome.notices }

/-- The activity after somebody has begun to send a frame over a link. -/
def send? (a : Activity ω α) (link : Nat) (frame : Bytes) : Option (Activity ω α) := do
  let l ← a.manager.link? link
  let answer := match l.check frame with
    | .ok () => none
    | .error e => some (.error e)
  some { a with sendings := a.sendings ++ [⟨link, frame, answer⟩] }

/-- The activity after a frame has joined the queue of its link, or has not. -/
def join? (a : Activity ω α) (sending : Nat) : Option (Activity ω α) := do
  let s ← a.sendings[sending]?
  let l ← a.manager.link? s.link
  if s.answer.isSome then none
  else
    match l.enqueue s.frame with
    | .ok sent => some { a with
        manager := a.manager.modifyLink s.link fun _ => sent
        sendings := a.sendings.set sending { s with answer := some (.ok ()) } }
    | .error e => some { a with
        sendings := a.sendings.set sending { s with answer := some (.error e) } }

/-- The activity after a step of a disposal. -/
def disposeStep? (a : Activity ω α) (disposal : Nat) : Option (Activity ω α) := do
  let d ← a.disposals[disposal]?
  let (manager, d) ← d.step? a.manager
  some { a with manager, disposals := a.disposals.set disposal d }

/-- The activity after a step of a link. -/
def link? (a : Activity ω α) (number : Nat) (event : Link.Event) : Option (Activity ω α) := do
  let l ← a.manager.link? number
  let moved ← l.step? event
  some { a with manager := a.manager.modifyLink number fun _ => moved }

/-- The activity after a step, where the step can happen. -/
def step? (decode : Bytes → Except CodecError α) (a : Activity ω α) :
    Event → Option (Activity ω α)
  | .dial destination => some { a with dials := a.dials ++ [(destination, .start)] }
  | .dialStep call reach => a.dialStep? call reach
  | .connect peer =>
    if a.manager.home.isSome then
      some { a with inbounds := a.inbounds ++ [⟨peer, .start, .greeting⟩] }
    else none
  | .arrive inbound piece => a.arrive? inbound (·.receive piece)
  | .depart inbound => a.arrive? inbound Inlet.finish
  | .greet inbound names late => a.greet? inbound names late
  | .abandon inbound => a.abandon? inbound
  | .adopt inbound => a.adopt? inbound
  | .receive reader piece => (a.readers[reader]?).map fun r =>
    { a with readers := a.readers.set reader { r with inlet := r.inlet.receive piece } }
  | .finish reader => (a.readers[reader]?).map fun r =>
    { a with readers := a.readers.set reader { r with inlet := r.inlet.finish } }
  | .read reader => a.read? decode reader
  | .send link frame => a.send? link frame
  | .join sending => a.join? sending
  | .dispose => some { a with disposals := a.disposals ++ [.start] }
  | .disposeStep disposal => a.disposeStep? disposal
  | .link number event => a.link? number event

/-- The activity after several steps. -/
def run? (decode : Bytes → Except CodecError α) (a : Activity ω α) (events : List Event) :
    Option (Activity ω α) :=
  events.foldlM (step? decode) a

end Activity

/-! ## What is not undone -/

/-- The second of two managers has been disposed of and cancelled if the first has. -/
structure Manager.Succeeds {ω : Type} (n m : Manager ω) : Prop where
  disposed : m.disposed = true → n.disposed = true
  cancelled : m.cancelled = true → n.cancelled = true

namespace Manager.Succeeds

variable {ω : Type} {m n : Manager ω}

theorem refl (m : Manager ω) : m.Succeeds m := ⟨id, id⟩

/-- A manager with the same marks. -/
theorem of_eq (hd : n.disposed = m.disposed) (hc : n.cancelled = m.cancelled) : n.Succeeds m :=
  ⟨fun h => hd.trans h, fun h => hc.trans h⟩

theorem cellOf (m : Manager ω) (destination : Address) :
    (m.cellOf destination).1.Succeeds m := by
  rw [Manager.cellOf]
  split <;> exact of_eq rfl rfl

theorem evict (m : Manager ω) (destination : Address) (link : Nat) :
    (m.evict destination link).Succeeds m := by
  rw [Manager.evict]
  split <;> exact of_eq rfl rfl

theorem dialStep {reach : Except TransportError Unit} {destination : Address} {d e : Dial}
    (h : d.step? reach destination m = some (n, e)) : n.Succeeds m := by
  cases d with
  | check tries =>
    cases tries with
    | zero =>
      cases h
      exact refl m
    | succ tries =>
      rw [Dial.step?] at h
      split at h <;> cases h <;> exact refl m
  | look tries =>
    cases h
    exact cellOf m destination
  | wait tries cell =>
    rw [Dial.step?] at h
    split at h <;> cases h
    · exact of_eq rfl rfl
    · exact refl m
  | connect tries cell =>
    rw [Dial.step?] at h
    split at h <;> cases h <;> exact of_eq rfl rfl
  | store tries cell link =>
    cases h
    exact of_eq rfl rfl
  | inspect tries link =>
    cases h
    exact refl m
  | evict tries link =>
    cases h
    exact evict m destination link
  | answered result => cases h

theorem adoptionStep {source : Address} {x y : Adoption} (h : x.step? source m = some (n, y)) :
    n.Succeeds m := by
  cases x with
  | look link =>
    cases h
    exact cellOf m source
  | store link cell =>
    cases h
    split <;> exact of_eq rfl rfl
  | done => cases h

theorem readingStep {α : Type} {decode : Bytes → Except CodecError α} {source : Address}
    {link : Nat} {offer : Option Offer} {r : Reading} {outcome : Reading.Outcome ω α}
    (h : r.step? decode source link offer m = some outcome) : outcome.manager.Succeeds m := by
  cases r with
  | next =>
    simp only [Reading.step?] at h
    split at h
    · cases h
      exact refl m
    · split at h
      · cases h
      · cases h
        exact refl m
      · cases h
        exact refl m
      · split at h <;> cases h <;> exact refl m
  | close =>
    cases h
    exact of_eq rfl rfl
  | evict =>
    cases h
    exact evict m source link
  | done => cases h

theorem disposalStep {x y : Disposal} (h : x.step? m = some (n, y)) : n.Succeeds m := by
  cases x with
  | start =>
    rw [Disposal.step?] at h
    split at h <;> cases h
    · exact refl m
    · exact ⟨fun _ => rfl, id⟩
  | cancel =>
    cases h
    exact ⟨id, fun _ => rfl⟩
  | forget =>
    cases h
    exact of_eq rfl rfl
  | silence =>
    cases h
    exact of_eq rfl rfl
  | done => cases h

end Manager.Succeeds

end Collective
