import Collective.Group.Message

/-!
# Mailboxes

The messages for a task wait in mailboxes, one for each operator and source, in the order in which
they came. A mailbox is opened when the first message for it comes or the first receiver asks for
it. When a source is no longer a neighbour its mailboxes are dropped: a receiver that already has
one keeps it, but what comes later goes to a new one.
-/

namespace Collective

/-- What the messages of a mailbox have in common. -/
structure Mailbox where
  operator : String
  source : String
  deriving DecidableEq, Repr

/-- The mailbox of a message. -/
def Message.mailbox (m : Message) : Mailbox := ⟨m.operator, m.source⟩

/-- The mailboxes of a task. -/
structure Mailboxes where
  /-- The number of the present queue of each mailbox. -/
  present : List (Mailbox × Nat)
  /-- All queues there have been, by number. -/
  queues : List (List Message)
  deriving DecidableEq, Repr

namespace Mailboxes

/-- No mailboxes. -/
def empty : Mailboxes := ⟨[], []⟩

/-- The number of the queue of a mailbox. -/
def number? (ms : Mailboxes) (box : Mailbox) : Option Nat :=
  (ms.present.find? (·.1 = box)).map (·.2)

/-- The messages that wait in a queue. -/
def queue (ms : Mailboxes) (number : Nat) : List Message := ms.queues[number]?.getD []

/-- The messages that wait in a mailbox. -/
def waiting (ms : Mailboxes) (box : Mailbox) : List Message :=
  ((ms.number? box).map ms.queue).getD []

/-- The queue of a mailbox, which is opened if there is none. -/
def opened (ms : Mailboxes) (box : Mailbox) : Mailboxes × Nat :=
  match ms.number? box with
  | some number => (ms, number)
  | none => (⟨(box, ms.queues.length) :: ms.present, ms.queues ++ [[]]⟩, ms.queues.length)

/-- A message joins the queue of its mailbox. -/
def deliver (ms : Mailboxes) (m : Message) : Mailboxes :=
  let (ms, number) := ms.opened m.mailbox
  { ms with queues := ms.queues.modify number (· ++ [m]) }

/-- The first message of a queue is taken out. -/
def pop? (ms : Mailboxes) (number : Nat) : Option (Message × Mailboxes) :=
  match ms.queue number with
  | m :: rest => some (m, { ms with queues := ms.queues.set number rest })
  | [] => none

/-- The mailboxes of other sources are dropped. -/
def retain (ms : Mailboxes) (sources : List String) : Mailboxes :=
  { ms with present := ms.present.filter fun (box, _) => box.source ∈ sources }

end Mailboxes

end Collective
