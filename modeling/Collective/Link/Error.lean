import Collective.Address.Text
import Collective.Codec.Basic

/-!
# Transport errors

What can go wrong on the way to another manager. Some of these errors say that the peer is gone, the
others that a message or a setting was bad.
-/

namespace Collective

/-- Kinds of input and output errors. -/
inductive IoKind where
  | connectionReset
  | connectionAborted
  | brokenPipe
  | unexpectedEnd
  | invalidData
  | other
  /-- A kind that nothing here depends on. -/
  | named (name : String)
  deriving DecidableEq, Repr

/-- The kind says that the other end is gone. -/
def IoKind.isDisconnect : IoKind → Bool
  | .connectionReset | .connectionAborted | .brokenPipe | .unexpectedEnd => true
  | _ => false

/-- An input or output error. -/
structure IoFault where
  kind : IoKind
  text : String
  deriving DecidableEq, Repr

/-- Why a handshake was refused. -/
inductive HandshakeFault where
  /-- The first frame is no handshake. -/
  | malformed
  /-- The peer speaks another version. -/
  | version (got expected : Nat)
  /-- The peer has sent none in time. -/
  | silent (peer : Address)
  /-- A fault worded elsewhere. -/
  | worded (text : String)
  deriving DecidableEq, Repr

/-- The wording of a fault. -/
def HandshakeFault.message : HandshakeFault → String
  | .malformed => "malformed handshake: not a handshake"
  | .version got expected => s!"unsupported handshake version: {got} (expected {expected})"
  | .silent peer => s!"{peer} sent no handshake"
  | .worded text => text

/-- Why a message could not be sent or received. -/
inductive TransportError where
  | connectionClosed (address : Address)
  | connect (address : Address) (cause : IoFault)
  | connectTimeout (address : Address)
  | handshake (fault : HandshakeFault)
  | frameTooLarge (size max : Nat)
  | serialization (e : CodecError)
  /-- The manager has been disposed. -/
  | disposed
  | io (fault : IoFault)
  deriving DecidableEq, Repr

namespace TransportError

/-- The wording of a transport error. -/
def message : TransportError → String
  | .connectionClosed address => s!"connection to {address} is closed"
  | .connect address cause => s!"failed to connect to {address}: {cause.text}"
  | .connectTimeout address => s!"timed out connecting to {address}"
  | .handshake fault => s!"handshake failed: {fault.message}"
  | .frameTooLarge size max => s!"frame of {size} bytes exceeds maximum {max}"
  | .serialization e => s!"serialization failed: {e.message}"
  | .disposed => "remote manager has been disposed"
  | .io fault => fault.text

/-- The error means that the peer is gone, not that a message was bad. -/
def isDisconnect : TransportError → Bool
  | .connectionClosed _ | .connect _ _ | .connectTimeout _ => true
  | .io fault => fault.kind.isDisconnect
  | _ => false

end TransportError

end Collective
