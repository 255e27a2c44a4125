import Collective.Group.Client

/-!
# Carrying out calls

A client carries a call out as far as it can without help from outside: it sends, takes the messages
that are waiting for the call, and sends again. Then the call has ended, or it waits for messages
that have not come; if none comes it gives up.
-/

namespace Collective

namespace Mailboxes

/-- The number of messages that wait in any queue. -/
def size (ms : Mailboxes) : Nat := ms.queues.flatten.length

end Mailboxes

namespace Client

variable {α β : Type}

/-- The message taken out of the first of some queues that has one, with its source. It may be one
that is skipped. -/
def nextOf? (c : Client) (operator : String) :
    List String → Option (Client × String × Option Message)
  | [] => none
  | source :: rest =>
    let (c, number) := c.openQueue ⟨operator, source⟩
    match c.pop? number with
    | some (c, m) => some (c, source, m)
    | none => c.nextOf? operator rest

/-- A call carried out while at most `fuel` messages are taken. -/
def carry (reach : Address → Except TransportError Unit) (names : Registry) (operator : String)
    (passage : Passage α) : (fuel : Nat) → Client → Call α β → Client × Call α β
  | 0, c, call => call.advance (send reach names operator) c
  | fuel + 1, c, call =>
    let (c, call) := call.advance (send reach names operator) c
    match c.nextOf? operator call.awaits with
    | none => (c, call)
    | some (c, _, none) => carry reach names operator passage fuel c call
    | some (c, source, some m) =>
      match call.take? passage source ⟨m.chunk, m.payload⟩ with
      | some call => carry reach names operator passage fuel c call
      | none => (c, call)

/-- A call carried out as far as it goes with the messages that are waiting. -/
def begin (reach : Address → Except TransportError Unit) (names : Registry) (e : Endpoint α)
    (c : Client) (call : Call α β) : Client × Call α β :=
  c.carry reach names e.operator e.passage (c.mailboxes.size + 1) call

/-- What a call comes to if no message comes any more: the first of the tasks for which it waits
decides. A call that is about to send is not yet at that point. -/
def conclude (c : Client) (operator : String) (call : Call α β) : Option (Except GroupError β) :=
  match call with
  | .finished result => some result
  | call => call.awaits.head?.map fun source => .error (c.giveUp ⟨operator, source⟩)

end Client

end Collective
