import Collective.Text.Bytes

/-!
# Frames

On a connection a frame is four bytes with its length, the most significant first, and its content.
Neither side accepts a frame longer than its maximum. `next` looks at the bytes received so far and
never changes what is left over except by taking a whole frame off its front.
-/

namespace Collective.Frame

/-- A frame is longer than the maximum. -/
structure Oversize where
  size : Nat
  max : Nat
  deriving DecidableEq, Repr

/-- The wording of the error. -/
def Oversize.message (e : Oversize) : String := s!"Frame size {e.size} exceeds maximum {e.max}"

/-- The number of bytes that hold the length. -/
def lengthWidth : Nat := 4

/-- The bytes that send a frame. -/
def encode (max : Nat) (content : Bytes) : Except Oversize Bytes :=
  if max < content.length then .error ⟨content.length, max⟩
  else .ok (Bytes.ofNat lengthWidth content.length ++ content)

/-- What a buffer of received bytes begins with. -/
inductive Next where
  /-- A whole frame, and the bytes behind it. -/
  | frame (content rest : Bytes)
  /-- A part of a frame, or nothing. -/
  | incomplete
  /-- The length of a frame above the maximum. -/
  | oversize (e : Oversize)
  deriving DecidableEq, Repr

/-- What a buffer begins with. -/
def next (max : Nat) (buffer : Bytes) : Next :=
  if buffer.length < lengthWidth then .incomplete
  else
    let length := Bytes.toNat (buffer.take lengthWidth)
    let body := buffer.drop lengthWidth
    if max < length then .oversize ⟨length, max⟩
    else if body.length < length then .incomplete
    else .frame (body.take length) (body.drop length)

/-- Why no frame can be taken off a buffer. -/
inductive Fault where
  | oversize (e : Oversize)
  /-- The stream ended within a frame. -/
  | unfinished
  deriving DecidableEq, Repr

/-- The wording of a fault. -/
def Fault.message : Fault → String
  | .oversize e => e.message
  | .unfinished => "bytes remaining on stream"

/-- Takes a frame off the front of a buffer: the frame if there is one, and the buffer left. -/
def decode (max : Nat) (buffer : Bytes) : Except Fault (Option Bytes) × Bytes :=
  match next max buffer with
  | .frame content rest => (.ok (some content), rest)
  | .incomplete => (.ok none, buffer)
  | .oversize e => (.error (.oversize e), buffer)

/-- The same behind the end of the stream, where a part of a frame is a fault. -/
def decodeEnd (max : Nat) (buffer : Bytes) : Except Fault (Option Bytes) × Bytes :=
  match decode max buffer with
  | (.ok none, left) => if left.isEmpty then (.ok none, left) else (.error .unfinished, left)
  | answer => answer

end Collective.Frame
