import Collective.Pipeline.Passage
import Collective.Proofs.Answer
import Collective.Proofs.Pipeline.Converter

/-!
# Values on their way

The chunks of a value as bytes, and of several values behind each other. A value round-trips if its
codec reads back what it has written for every chunk; then encoding it succeeds, and each chunk can
be read by itself.
-/

namespace Collective

namespace Converter.Lawful

variable {α : Type} {c : Converter α} {value : α} {j : Nat}

theorem header_eq (h : c.Lawful) (hj : j < (c.split value).length) :
    (c.split value)[j].header = ⟨UInt64.ofNat j, j + 1 == (c.split value).length⟩ := by
  have hheaders := congrArg (·[j]?) (h.headers_split value)
  simpa [ChunkHeader.sequence, hj] using hheaders

end Converter.Lawful

namespace Passage

variable {α : Type} {p : Passage α} {value : α}

/-- A chunk as it travels. -/
def written (p : Passage α) (chunk : Chunk α) : Chunk Bytes :=
  ⟨chunk.header, (p.codec.encode chunk.data).toOption.getD []⟩

/-- The chunks of a value as they travel. -/
def wire (p : Passage α) (value : α) : List (Chunk Bytes) := (p.converter.split value).map p.written

/-- The chunks of several values as they travel one after the other. -/
def stream (p : Passage α) (values : List α) : List (Chunk Bytes) := values.flatMap p.wire

/-- The codec reads what it writes for every chunk of a value. -/
def RoundTrips (p : Passage α) (value : α) : Prop :=
  ∀ chunk ∈ p.converter.split value,
    ∃ data, p.codec.encode chunk.data = .ok data ∧ p.codec.decode data = .ok chunk.data

@[simp] theorem length_wire (p : Passage α) (value : α) :
    (p.wire value).length = (p.converter.split value).length := List.length_map _

@[simp] theorem stream_append (p : Passage α) (values more : List α) :
    p.stream (values ++ more) = p.stream values ++ p.stream more := List.flatMap_append

@[simp] theorem stream_singleton (p : Passage α) (value : α) : p.stream [value] = p.wire value :=
  List.flatMap_singleton _ _

theorem wire_ne_nil (hp : p.converter.Lawful) (value : α) : p.wire value ≠ [] := by
  rw [wire, ne_eq, List.map_eq_nil_iff]
  exact hp.split_ne_nil value

theorem stream_take_succ {values : List α} {n : Nat} (h : values[n]? = some value) :
    p.stream (values.take (n + 1)) = p.stream (values.take n) ++ p.wire value := by
  rw [List.take_add_one, h, Option.toList_some, stream_append, stream_singleton]

theorem stream_take_prefix_stream (p : Passage α) (values : List α) (n : Nat) :
    p.stream (values.take n) <+: p.stream values := by
  refine ⟨p.stream (values.drop n), ?_⟩
  rw [← stream_append, List.take_append_drop]

theorem stream_take_prefix_take (p : Passage α) (values : List α) {m n : Nat} (h : m ≤ n) :
    p.stream (values.take m) <+: p.stream (values.take n) := by
  have hpart := p.stream_take_prefix_stream (values.take n) m
  rwa [List.take_take, Nat.min_eq_left h] at hpart

/-- What follows the first `j` chunks of a value in a stream is its next chunk. -/
theorem getElem?_wire_of_stream {values : List α} {n j : Nat} {chunk : Chunk Bytes}
    (hvalue : values[n]? = some value) (hj : j < (p.wire value).length)
    (h : p.stream (values.take n) ++ (p.wire value).take j ++ [chunk] <+: p.stream values) :
    (p.wire value)[j]? = some chunk := by
  have hstream : p.stream values =
      p.stream (values.take n) ++ (p.wire value ++ p.stream (values.drop (n + 1))) := by
    rw [← List.append_assoc, ← stream_take_succ hvalue, ← stream_append, List.take_append_drop]
  rw [hstream, List.append_assoc, List.prefix_append_right_inj] at h
  obtain ⟨rest, hrest⟩ := h
  have hlength : ((p.wire value).take j).length = j := List.length_take_of_le (Nat.le_of_lt hj)
  have hat := congrArg (·[j]?) hrest
  rw [List.append_assoc, List.getElem?_append_right (Nat.le_of_eq hlength), hlength, Nat.sub_self,
    List.getElem?_append_left hj] at hat
  exact hat.symm

/-- A value can be sent if each of its chunks can be written. -/
theorem frames_eq_of_encode
    (h : ∀ chunk ∈ p.converter.split value, ∃ data, p.codec.encode chunk.data = .ok data) :
    p.frames value = .ok (p.wire value) := by
  apply mapM_eq_ok
  intro chunk hchunk
  obtain ⟨data, hencode⟩ := h chunk hchunk
  rw [written, hencode]
  rfl

namespace RoundTrips

theorem frames_eq (h : p.RoundTrips value) : p.frames value = .ok (p.wire value) := by
  apply frames_eq_of_encode
  intro chunk hchunk
  obtain ⟨data, hencode, -⟩ := h chunk hchunk
  exact ⟨data, hencode⟩

theorem decode_written (h : p.RoundTrips value) {chunk : Chunk α}
    (hchunk : chunk ∈ p.converter.split value) :
    p.codec.decode (p.written chunk).data = .ok chunk.data := by
  obtain ⟨data, hencode, hdecode⟩ := h chunk hchunk
  rw [written, hencode]
  exact hdecode

end RoundTrips

end Passage

end Collective
