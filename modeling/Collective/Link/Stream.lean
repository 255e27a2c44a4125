import Collective.Link.Frame

/-!
# Streams of frames

The bytes of a connection arrive in pieces, and frames are taken off their front as soon as they are
whole. A length that is too large stays so when more bytes arrive (`next_append_of_oversize`).
`Inlet` is the receiving end of a connection.
-/

namespace Collective

namespace Frame

variable {max : Nat} {buffer content rest more : Bytes}

/-- What makes a whole frame. -/
theorem next_eq_frame_iff : next max buffer = .frame content rest ↔
    lengthWidth ≤ buffer.length ∧ Bytes.toNat (buffer.take lengthWidth) ≤ max ∧
      Bytes.toNat (buffer.take lengthWidth) ≤ (buffer.drop lengthWidth).length ∧
      content = (buffer.drop lengthWidth).take (Bytes.toNat (buffer.take lengthWidth)) ∧
      rest = (buffer.drop lengthWidth).drop (Bytes.toNat (buffer.take lengthWidth)) := by
  rw [next]
  split
  · rename_i hshort
    simp [Nat.not_le.2 hshort]
  · rename_i hlong
    simp only [Nat.not_lt] at hlong
    simp only [hlong, true_and]
    split
    · rename_i hmax
      simp [Nat.not_le.2 hmax]
    · rename_i hmax
      simp only [Nat.not_lt] at hmax
      split
      · rename_i hbody
        simp only [Nat.not_le.2 hbody, false_and, and_false, reduceCtorEq]
      · rename_i hbody
        simp only [Nat.not_lt] at hbody
        simp only [hmax, hbody, Next.frame.injEq, true_and]
        exact ⟨fun h => ⟨h.1.symm, h.2.symm⟩, fun h => ⟨h.1.symm, h.2.symm⟩⟩

/-- A frame that is taken leaves less behind. -/
theorem length_lt_of_next (h : next max buffer = .frame content rest) :
    rest.length < buffer.length := by
  obtain ⟨hlong, -, -, -, rfl⟩ := next_eq_frame_iff.1 h
  simp only [List.length_drop, lengthWidth] at hlong ⊢
  omega

/-- What makes a length that is too large. -/
theorem next_eq_oversize_iff {e : Oversize} : next max buffer = .oversize e ↔
    lengthWidth ≤ buffer.length ∧ max < Bytes.toNat (buffer.take lengthWidth) ∧
      e = ⟨Bytes.toNat (buffer.take lengthWidth), max⟩ := by
  rw [next]
  split
  · rename_i hshort
    simp [Nat.not_le.2 hshort]
  · rename_i hlong
    simp only [Nat.not_lt] at hlong
    simp only [hlong, true_and]
    split
    · rename_i hmax
      simp only [hmax, Next.oversize.injEq, true_and]
      exact eq_comm
    · rename_i hmax
      split <;> simp [hmax]

/-- A length that is too large stays so, whatever follows. -/
theorem next_append_of_oversize {e : Oversize} (h : next max buffer = .oversize e) (more : Bytes) :
    next max (buffer ++ more) = .oversize e := by
  obtain ⟨hlong, hmax, rfl⟩ := next_eq_oversize_iff.1 h
  rw [next_eq_oversize_iff, List.take_append_of_le_length hlong]
  refine ⟨?_, hmax, rfl⟩
  rw [List.length_append]
  omega

/-- The whole frames at the front of a buffer, and the bytes behind them. -/
def takeAll (max : Nat) (buffer : Bytes) : List Bytes × Bytes :=
  match _h : next max buffer with
  | .frame content rest =>
    let (frames, left) := takeAll max rest
    (content :: frames, left)
  | .incomplete | .oversize _ => ([], buffer)
termination_by buffer.length
decreasing_by exact length_lt_of_next _h

/-- The frames taken while bytes arrive in pieces behind those that are left, and the bytes left at
the end. -/
def feed (max : Nat) (left : Bytes) : List Bytes → List Bytes × Bytes
  | [] => ([], left)
  | piece :: pieces =>
    let (frames, left) := takeAll max (left ++ piece)
    let (later, left) := feed max left pieces
    (frames ++ later, left)

end Frame

/-- What a stream offers next. -/
inductive Offer where
  | frame (content : Bytes)
  | fault (fault : Frame.Fault)
  /-- The peer has ended the stream behind a whole frame. -/
  | finished
  deriving DecidableEq, Repr

/-- The receiving end of a connection. -/
structure Inlet where
  /-- The bytes that have arrived and are not yet taken. -/
  buffer : Bytes
  /-- The peer has ended the stream. -/
  ended : Bool
  deriving DecidableEq, Repr

namespace Inlet

/-- Nothing has arrived. -/
def start : Inlet := ⟨[], false⟩

/-- A piece of the stream arrives. -/
def receive (i : Inlet) (piece : Bytes) : Inlet := { i with buffer := i.buffer ++ piece }

/-- The peer ends the stream. -/
def finish (i : Inlet) : Inlet := { i with ended := true }

/-- What the stream offers, and what is left once it is taken; nothing while a frame is on its
way. -/
def offer? (max : Nat) (i : Inlet) : Option (Offer × Inlet) :=
  match (if i.ended then Frame.decodeEnd else Frame.decode) max i.buffer with
  | (.ok (some content), rest) => some (.frame content, { i with buffer := rest })
  | (.ok none, _) => if i.ended then some (.finished, i) else none
  | (.error fault, _) => some (.fault fault, i)

end Inlet

end Collective
