import Collective.Address.Text
import Collective.Json.Record
import Collective.Link.Error

/-!
# Handshakes

The first frame on a connection is the handshake of the side that opened it: the version it speaks
and the address it listens on, if it listens. Only one version is spoken. A peer may give its address
by a name, so the reader brings along what names stand for.
-/

namespace Collective

/-- The first frame on a connection. -/
structure Handshake where
  version : UInt16
  /-- Where the side that opened the connection listens. -/
  address : Option Address
  deriving DecidableEq, Repr

namespace Handshake

/-- The version that is spoken. -/
def spoken : UInt16 := 1

/-- The handshake of a manager, given where it listens. -/
def ofHome (home : Option Address) : Handshake := ⟨spoken, home⟩

/-- The JSON form of a handshake. -/
def toJson (h : Handshake) : Json :=
  .ofMembers [
    ("version", .ofInt h.version.toNat),
    ("address", (h.address.map Address.toJson).getD .null)]

/-- The handshake that a value describes. -/
def ofJson? (names : Address.Resolver) (j : Json) : Option Handshake := do
  let fields ← j.fields? ["version", "address"]
  let version ← fields.required 0 (Json.nat? (2 ^ 16))
  let address ← fields.optional 1 (Address.fromJson? names)
  some ⟨UInt16.ofNat version, address⟩

/-- The frame of a handshake. -/
def print (h : Handshake) : Bytes := h.toJson.print

/-- The handshake that a frame holds. Its version is looked at last. -/
def read (names : Address.Resolver) (frame : Bytes) : Except HandshakeFault Handshake :=
  match (Json.parse? frame).bind (ofJson? names) with
  | none => .error .malformed
  | some h =>
    if h.version = spoken then .ok h
    else .error (.version h.version.toNat spoken.toNat)

end Handshake

end Collective
