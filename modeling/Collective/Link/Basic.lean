import Collective.Link.Handshake
import Collective.Link.Stream

/-!
# Links

A link is the sending side of one connection. Senders put frames into its queue and a writer takes
them out, one at a time and in order. Closing a link stops the writer, but only after it has written
what it finds in the queue. Sending a frame takes two indivisible steps, `check` and `enqueue`;
every other step is an `Event`, and `step?` says what it does where it can happen.
-/

namespace Collective

/-- How far the writer of a link has come. -/
inductive Writer where
  /-- It takes frames as they come. -/
  | running
  /-- It has seen that the link is closed, and takes what is left. -/
  | flushing
  /-- It takes no more frames. -/
  | leaving
  /-- It is gone, and its end of the queue with it. -/
  | stopped
  deriving DecidableEq, Repr

/-- The sending side of a connection. -/
structure Link where
  /-- The address at the other end. -/
  remote : Address
  maxFrame : Nat
  /-- The frames that wait for the writer, the next one first. -/
  queue : List Bytes
  /-- The frames written behind the handshake, in the order in which they were written. -/
  written : List Bytes
  /-- The link has been closed. -/
  closed : Bool
  writer : Writer
  deriving DecidableEq, Repr

namespace Link

/-- A link over which nothing has been sent. -/
def new (remote : Address) (maxFrame : Nat) : Link := ⟨remote, maxFrame, [], [], false, .running⟩

/-- Nothing more can be sent. -/
def isClosed (l : Link) : Bool := l.closed || l.writer = .stopped

/-- The link closed. -/
def close (l : Link) : Link := { l with closed := true }

/-! ## Sending -/

/-- The first step of sending a frame: it has to be short enough, and the link open. -/
def check (l : Link) (frame : Bytes) : Except TransportError Unit :=
  if l.maxFrame < frame.length then .error (.frameTooLarge frame.length l.maxFrame)
  else if l.closed then .error (.connectionClosed l.remote)
  else .ok ()

/-- The second step: the frame joins the queue while there is a writer. -/
def enqueue (l : Link) (frame : Bytes) : Except TransportError Link :=
  if l.writer = .stopped then .error (.connectionClosed l.remote)
  else .ok { l with queue := l.queue ++ [frame] }

/-- A frame sent without another step in between. -/
def send (l : Link) (frame : Bytes) : Except TransportError Link := do
  l.check frame
  l.enqueue frame

/-! ## Writing -/

/-- The writer still takes frames out of the queue. -/
def Writer.takes : Writer → Bool
  | .running | .flushing => true
  | .leaving | .stopped => false

/-- The next frame is written. -/
def write? (l : Link) : Option Link :=
  match l.queue with
  | frame :: rest =>
    if Writer.takes l.writer then some { l with queue := rest, written := l.written ++ [frame] }
    else none
  | [] => none

/-- Writing the next frame fails, which closes the link. -/
def fail? (l : Link) : Option Link :=
  match l.queue with
  | _ :: rest =>
    if Writer.takes l.writer then
      some { l with queue := rest, closed := true, writer := .leaving }
    else none
  | [] => none

/-- The writer sees that the link is closed. -/
def notice? (l : Link) : Option Link :=
  if l.writer = .running ∧ l.closed then some { l with writer := .flushing } else none

/-- The writer finds nothing left to write. -/
def drain? (l : Link) : Option Link :=
  if l.writer = .flushing ∧ l.queue = [] then some { l with writer := .leaving } else none

/-- The writer goes. -/
def stop? (l : Link) : Option Link :=
  if l.writer = .leaving then some { l with writer := .stopped } else none

/-- A step on a link by which nothing is sent. -/
inductive Event where
  /-- The link is closed. -/
  | close
  /-- The next frame is written. -/
  | write
  /-- Writing the next frame fails. -/
  | fail
  /-- The writer sees that the link is closed. -/
  | notice
  /-- The writer finds nothing left to write. -/
  | drain
  /-- The writer goes. -/
  | stop
  deriving DecidableEq, Repr

/-- The link after a step, where the step can happen. -/
def step? (l : Link) : Event → Option Link
  | .close => some l.close
  | .write => l.write?
  | .fail => l.fail?
  | .notice => l.notice?
  | .drain => l.drain?
  | .stop => l.stop?

/-! ## Both ends of a connection -/

/-- The side that opens a connection first writes its handshake, which has to be a frame that it
may send. The link, and the bytes of the handshake. -/
def opened (remote : Address) (home : Option Address) (maxFrame : Nat) :
    Except TransportError (Link × Bytes) :=
  match Frame.encode maxFrame (Handshake.ofHome home).print with
  | .ok bytes => .ok (new remote maxFrame, bytes)
  | .error e => .error (.io ⟨.invalidData, e.message⟩)

/-- A fault of a stream of frames as a transport error. -/
def streamError (fault : Frame.Fault) : TransportError :=
  match fault with
  | .oversize _ => .io ⟨.invalidData, fault.message⟩
  | .unfinished => .io ⟨.other, fault.message⟩

/-- The side that accepts a connection reads the handshake first, once it has arrived: all that
follows comes from the address in it, or from the peer itself if it does not listen. Where nothing
has arrived and it is too `late` for it, the connection is turned away. The link, and what is left
of the stream behind the handshake. -/
def accept? (names : Address.Resolver) (late : Bool) (peer : Address) (maxFrame : Nat)
    (inlet : Inlet) : Option (Except TransportError (Link × Inlet)) :=
  match inlet.offer? maxFrame with
  | none => if late then some (.error (.handshake (.silent peer))) else none
  | some (.finished, _) => some (.error (.connectionClosed peer))
  | some (.fault fault, _) => some (.error (streamError fault))
  | some (.frame frame, rest) =>
    match Handshake.read names frame with
    | .error fault => some (.error (.handshake fault))
    | .ok h => some (.ok (new (h.address.getD peer) maxFrame, rest))

/-! ## What a sender and a writer do by themselves -/

@[simp] theorem isClosed_close (l : Link) : l.close.isClosed = true := by
  simp [isClosed, close]

/-- Over a closed link nothing is sent. -/
theorem send_of_closed {l : Link} (h : l.closed = true) (frame : Bytes) :
    ∃ e, l.send frame = .error e := by
  rw [send, check, if_pos h]
  split <;> exact ⟨_, rfl⟩

end Link

end Collective
