import Collective.Link.Basic
import Collective.Manager.Observers

/-!
# Managers

A manager keeps one link for each address it talks to. The cache gives a destination a cell, and the
cell is empty, about to get a link, or has one; calls for the same destination share the cell and
with it the connection. A link that has closed is evicted, and the next call opens a new one.
Disposing of a manager closes all its links, those that calls in progress still open among them.

Calls run at the same time, so each is given as the sequence of its indivisible steps: `Dial` for
the call that asks for a link, `Adoption` for a connection that a peer has opened, and `Disposal`.
A step answers `none` where the call has to wait for another one.
-/

namespace Collective

/-- What a place in the cache holds. -/
inductive Cell where
  | empty
  /-- A call is opening the connection. -/
  | opening
  /-- The link of this number. -/
  | full (link : Nat)
  deriving DecidableEq, Repr

/-- A link of a manager. -/
structure Connection where
  link : Link
  /-- The manager has opened the connection itself. -/
  outbound : Bool
  deriving DecidableEq, Repr

/-- A manager, whose observers are of type `ω`. -/
structure Manager (ω : Type) where
  /-- Where it listens, if it does. -/
  home : Option Address
  maxFrame : Nat
  /-- The number of the cell that each destination has. -/
  cache : Table Address Nat
  /-- All cells there have been, by number. -/
  cells : List Cell
  /-- All links there have been, by number. -/
  connections : List Connection
  observers : Observers ω
  /-- No call that begins now succeeds. -/
  disposed : Bool
  /-- Every link is closed, and every new one is closed from the start. -/
  cancelled : Bool
  deriving DecidableEq, Repr

namespace Manager

variable {ω : Type}

/-- A manager that has done nothing. -/
def new (home : Option Address) (maxFrame : Nat) : Manager ω :=
  ⟨home, maxFrame, .empty, [], [], .empty, false, false⟩

/-! ## Queries -/

/-- The link of a number. -/
def link? (m : Manager ω) (number : Nat) : Option Link := (m.connections[number]?).map (·.link)

/-- The link of a number is open. -/
def isOpen (m : Manager ω) (number : Nat) : Bool := (m.link? number).any fun l => !l.isClosed

/-- The link that the cache has for a destination. -/
def cached? (m : Manager ω) (destination : Address) : Option Nat := do
  match ← m.cells[← m.cache.get? destination]? with
  | .full link => some link
  | _ => none

/-- The number of connections that the manager has opened. -/
def opened (m : Manager ω) : Nat := m.connections.countP (·.outbound)

/-- The number of destinations with an open link. -/
def cachedLinks (m : Manager ω) : Nat :=
  m.cache.keys.countP fun destination => (m.cached? destination).any m.isOpen

/-! ## Links and cells -/

/-- A manager with one more link, which is closed if all are. -/
def addLink (m : Manager ω) (link : Link) (outbound : Bool) : Manager ω × Nat :=
  let link := if m.cancelled then link.close else link
  ({ m with connections := m.connections ++ [⟨link, outbound⟩] }, m.connections.length)

/-- A manager with a link changed. -/
def modifyLink (m : Manager ω) (number : Nat) (f : Link → Link) : Manager ω :=
  { m with connections := m.connections.modify number fun c => { c with link := f c.link } }

/-- A manager with a link closed. -/
def closeLink (m : Manager ω) (number : Nat) : Manager ω := m.modifyLink number Link.close

/-- A manager with another content of a cell. -/
def setCell (m : Manager ω) (cell : Nat) (content : Cell) : Manager ω :=
  { m with cells := m.cells.set cell content }

/-- The cell of a destination, which gets one if it has none. -/
def cellOf (m : Manager ω) (destination : Address) : Manager ω × Nat :=
  match m.cache.get? destination with
  | some cell => (m, cell)
  | none =>
    ({ m with
        cache := m.cache.insert destination m.cells.length
        cells := m.cells ++ [.empty] }, m.cells.length)

/-- Forgets the cell of a destination if it holds this very link. -/
def evict (m : Manager ω) (destination : Address) (link : Nat) : Manager ω :=
  if m.cached? destination = some link then { m with cache := m.cache.erase destination } else m

/-- Sends a frame over a link. -/
def send (m : Manager ω) (number : Nat) (frame : Bytes) : Except TransportError (Manager ω) :=
  match m.link? number with
  | some link => (link.send frame).map fun sent => m.modifyLink number fun _ => sent
  | none => .error .disposed

/-- Sends a value over a link, encoded first. -/
def post {α : Type} (codec : Codec α) (m : Manager ω) (number : Nat) (value : α) :
    Except TransportError (Manager ω) :=
  match codec.encode value with
  | .ok frame => m.send number frame
  | .error e => .error (.serialization e)

end Manager

/-! ## Asking for a link -/

/-- How far a call for a link has come, with the tries that are left behind the present one. -/
inductive Dial where
  /-- It begins a try, if one is left. -/
  | check (tries : Nat)
  /-- It looks for the destination's cell. -/
  | look (tries : Nat)
  /-- It needs the link of a cell. -/
  | wait (tries cell : Nat)
  /-- It is opening the connection of a cell. -/
  | connect (tries cell : Nat)
  /-- It puts its new link into a cell. -/
  | store (tries cell link : Nat)
  /-- It sees whether a link is open. -/
  | inspect (tries link : Nat)
  /-- It evicts a closed link. -/
  | evict (tries link : Nat)
  /-- It has ended. -/
  | answered (result : Except TransportError Nat)

namespace Dial

/-- A call before its first step. A link may have closed since it was cached, so there are two
tries. -/
def start : Dial := .check 2

/-- The next step of a call for a link to a destination. `reach` says what opening a connection
comes to, should this step be the one that does it. -/
def step? {ω : Type} (reach : Except TransportError Unit) (destination : Address)
    (m : Manager ω) : Dial → Option (Manager ω × Dial)
  | .check 0 => some (m, .answered (.error (.connectionClosed destination)))
  | .check (tries + 1) =>
    if m.disposed then some (m, .answered (.error .disposed)) else some (m, .look tries)
  | .look tries =>
    let (m, cell) := m.cellOf destination
    some (m, .wait tries cell)
  | .wait tries cell =>
    match m.cells[cell]? with
    | some .empty => some (m.setCell cell .opening, .connect tries cell)
    | some (.full link) => some (m, .inspect tries link)
    | _ => none
  | .connect tries cell =>
    match reach.bind fun _ => Link.opened destination m.home m.maxFrame with
    | .error e => some (m.setCell cell .empty, .answered (.error e))
    | .ok (link, _) =>
      let (m, number) := m.addLink link true
      some (m, .store tries cell number)
  | .store tries cell link => some (m.setCell cell (.full link), .inspect tries link)
  | .inspect tries link =>
    some (m, if m.isOpen link then .answered (.ok link) else .evict tries link)
  | .evict tries link => some (m.evict destination link, .check tries)
  | .answered _ => none

/-- What a step makes smaller. -/
def rank : Dial → Nat
  | .check tries => 8 * tries + 1
  | .look tries => 8 * tries + 7
  | .wait tries _ => 8 * tries + 6
  | .connect tries _ => 8 * tries + 5
  | .store tries _ _ => 8 * tries + 4
  | .inspect tries _ => 8 * tries + 3
  | .evict tries _ => 8 * tries + 2
  | .answered _ => 0

/-- A call that is not kept waiting comes to its end. -/
theorem rank_lt_of_step? {ω : Type} {reach : Except TransportError Unit} {destination : Address}
    {m n : Manager ω} {d e : Dial} (h : step? reach destination m d = some (n, e)) :
    e.rank < d.rank := by
  cases d with
  | check tries =>
    cases tries with
    | zero =>
      simp only [step?, Option.some.injEq, Prod.mk.injEq] at h
      obtain ⟨-, rfl⟩ := h
      simp [rank]
    | succ tries =>
      rw [step?] at h
      split at h
      · cases h
        simp [rank]
      · cases h
        simp only [rank]
        omega
  | look tries =>
    simp only [step?, Option.some.injEq, Prod.mk.injEq] at h
    obtain ⟨-, rfl⟩ := h
    simp [rank]
  | wait tries cell =>
    rw [step?] at h
    split at h
    · cases h
      simp [rank]
    · cases h
      simp [rank]
    · cases h
  | connect tries cell =>
    rw [step?] at h
    split at h
    · cases h
      simp [rank]
    · cases h
      simp [rank]
  | store tries cell link =>
    cases h
    simp [rank]
  | inspect tries link =>
    simp only [step?, Option.some.injEq, Prod.mk.injEq] at h
    obtain ⟨-, rfl⟩ := h
    split <;> simp [rank]
  | evict tries link =>
    cases h
    simp [rank]
  | answered result => cases h

/-- A call made while no other step happens. -/
def run {ω : Type} (reach : Except TransportError Unit) (destination : Address) (m : Manager ω)
    (d : Dial) : Manager ω × Except TransportError Nat :=
  match d with
  | .answered result => (m, result)
  | d =>
    match _h : step? reach destination m d with
    | some (m, d) => run reach destination m d
    | none => (m, .error (.connectionClosed destination))
termination_by d.rank
decreasing_by exact rank_lt_of_step? _h

end Dial

/-- The link of a manager to a destination, opened if need be. -/
def Manager.dial {ω : Type} (m : Manager ω) (reach : Address → Except TransportError Unit)
    (destination : Address) : Manager ω × Except TransportError Nat :=
  Dial.start.run (reach destination) destination m

/-! ## Accepting and leaving connections -/

/-- How far taking over an accepted connection has come. -/
inductive Adoption where
  /-- It looks for the cell of the link's source. -/
  | look (link : Nat)
  /-- It puts the link into the cell, unless that one is taken. -/
  | store (link cell : Nat)
  | done
  deriving DecidableEq, Repr

/-- The next step of taking over a connection from a source. -/
def Adoption.step? {ω : Type} (source : Address) (m : Manager ω) :
    Adoption → Option (Manager ω × Adoption)
  | .look link =>
    let (m, cell) := m.cellOf source
    some (m, .store link cell)
  | .store link cell =>
    some (if m.cells[cell]? = some .empty then m.setCell cell (.full link) else m, .done)
  | .done => none

/-- Takes over a connection from a source while no other step happens. -/
def Manager.adopt {ω : Type} (m : Manager ω) (source : Address) : Manager ω :=
  let (m, link) := m.addLink (.new source m.maxFrame) false
  let (m, cell) := m.cellOf source
  if m.cells[cell]? = some .empty then m.setCell cell (.full link) else m

/-- How far disposing of a manager has come. -/
inductive Disposal where
  | start
  /-- It closes all links. -/
  | cancel
  /-- It empties the cache. -/
  | forget
  /-- It drops all observers. -/
  | silence
  | done
  deriving DecidableEq, Repr

namespace Disposal

/-- The next step of disposing of a manager; only the first call does anything. -/
def step? {ω : Type} (m : Manager ω) : Disposal → Option (Manager ω × Disposal)
  | .start => if m.disposed then some (m, .done) else some ({ m with disposed := true }, .cancel)
  | .cancel =>
    some ({ m with
      cancelled := true
      connections := m.connections.map fun c => { c with link := c.link.close } }, .forget)
  | .forget => some ({ m with cache := .empty }, .silence)
  | .silence => some ({ m with observers := m.observers.clear }, .done)
  | .done => none

end Disposal

/-- Disposes of a manager while no other step happens. -/
def Manager.dispose {ω : Type} (m : Manager ω) : Manager ω :=
  if m.disposed then m
  else { m with
    disposed := true
    cancelled := true
    connections := m.connections.map fun c => { c with link := c.link.close }
    cache := .empty
    observers := m.observers.clear }

end Collective
