import Collective.Proofs.Pipeline.Passage
import Mathlib.Data.List.Induction

/-!
# Streams of broken sequences

A stream may hold what several sends have left in it: all chunks of a value or, where the send has
failed, only the first ones. Every sequence begins with the index zero, and an assembler accepts
that index only at its start. So an assembler that starts anywhere in such a stream and comes to the
end of a sequence has accepted the chunks of one send, and all of them.
-/

namespace Collective

namespace Assembler

variable {a : Assembler} {headers : List ChunkHeader}

theorem acceptAll_append_singleton (a : Assembler) (headers : List ChunkHeader)
    (header : ChunkHeader) :
    a.acceptAll (headers ++ [header]) = (a.acceptAll headers).bind fun a => a.accept header := by
  simp only [acceptAll_append, acceptAll_singleton]

/-- An assembler accepts a header if nothing has ended before and the index is the next one. -/
theorem accept_eq_ok {b : Assembler} {header : ChunkHeader} (h : a.accept header = .ok b) :
    a.complete = false ∧ header.index = a.next ∧ b = ⟨a.next + 1, header.isLast⟩ := by
  rw [accept] at h
  split at h
  · cases h
  · next hopen =>
    split at h
    · cases h
    · next hnext => exact ⟨by simpa using hopen, not_not.1 hnext, (Except.ok.inj h).symm⟩

/-- Headers that have been accepted count up from zero, and only the last one can be marked. -/
theorem eq_of_acceptAll (h : start.acceptAll headers = .ok a) :
    a.next = UInt64.ofNat headers.length ∧
      headers = (List.range headers.length).map fun i =>
        ⟨UInt64.ofNat i, a.complete && i + 1 == headers.length⟩ := by
  induction headers using List.reverseRecOn generalizing a with
  | nil =>
    obtain rfl := Except.ok.inj h
    exact ⟨rfl, rfl⟩
  | append_singleton headers header ih =>
    rw [acceptAll_append_singleton] at h
    obtain ⟨b, hb, haccept⟩ := exists_of_bind_eq_ok h
    obtain ⟨hopen, hindex, rfl⟩ := accept_eq_ok haccept
    obtain ⟨hnext, hheaders⟩ := ih hb
    have hlength : (headers ++ [header]).length = headers.length + 1 := List.length_append
    refine ⟨?_, ?_⟩
    · rw [hlength, hnext]
      simp
    · rw [hlength, List.range_succ, List.map_append, List.map_singleton]
      congr 1
      · conv_lhs => rw [hheaders]
        apply List.map_congr_left
        intro i hi
        have hlt : i < headers.length := List.mem_range.1 hi
        have hinner : (i + 1 == headers.length + 1) = false := beq_false_of_ne (by omega)
        rw [hopen, hinner, Bool.false_and, Bool.and_false]
      · rw [beq_self_eq_true, Bool.and_true, ← hnext, ← hindex]

/-- All headers are accepted, and the last one ends their sequence. -/
def Completes (headers : List ChunkHeader) : Prop :=
  ∃ a, start.acceptAll headers = .ok a ∧ a.complete = true

/-- Headers that have been accepted to the end are those of a whole sequence. -/
theorem Completes.eq_sequence (h : Completes headers) :
    headers ≠ [] ∧ headers = ChunkHeader.sequence headers.length := by
  obtain ⟨a, h, hend⟩ := h
  constructor
  · rintro rfl
    obtain rfl := Except.ok.inj h
    cases hend
  · obtain ⟨-, hheaders⟩ := eq_of_acceptAll h
    rw [hend] at hheaders
    exact hheaders

end Assembler

theorem ChunkHeader.getElem?_sequence {n i : Nat} (h : i < n) :
    (sequence n)[i]? = some ⟨UInt64.ofNat i, i + 1 == n⟩ := by
  simp [sequence, h]

/-- The chunks of a value are a whole sequence. -/
theorem Passage.headers_frames {α : Type} {p : Passage α} (hp : p.converter.Lawful) {value : α}
    {chunks : List (Chunk Bytes)} (h : p.frames value = .ok chunks) :
    chunks.map (·.header) = ChunkHeader.sequence chunks.length := by
  have hall := forall₂_of_mapM_eq_ok h
  have hwritten : List.Forall₂ (fun chunk written => Chunk.header chunk = Chunk.header written)
      (p.converter.split value) chunks := by
    refine hall.imp ?_
    intro chunk written hchunk
    cases hdata : p.codec.encode chunk.data with
    | error e =>
      rw [hdata] at hchunk
      cases hchunk
    | ok data =>
      rw [hdata] at hchunk
      obtain rfl := Except.ok.inj hchunk
      rfl
  have hheaders : (p.converter.split value).map (·.header) = chunks.map (·.header) := by
    rw [← List.forall₂_eq_eq_eq, List.forall₂_map_left_iff, List.forall₂_map_right_iff]
    exact hwritten
  rw [← hheaders, hp.headers_split, hall.length_eq]

/-- What a send of a value leaves in a stream: all chunks of the value or, if the send has failed,
the first ones. No value has more chunks than there are indices. -/
structure Dispatch where
  type : PayloadType
  pipeline : Pipeline
  codec : Codec type.Carrier
  value : type.Carrier
  /-- All chunks of the value. -/
  chunks : List (Chunk Bytes)
  chunks_eq : (⟨codec, type.converter pipeline⟩ : Passage type.Carrier).frames value = .ok chunks
  length_lt : chunks.length < UInt64.size
  /-- The number of chunks that have been sent. -/
  count : Nat
  count_pos : 0 < count
  count_le : count ≤ chunks.length

namespace Dispatch

variable {d : Dispatch} {ds : List Dispatch} {taken rest : List (Chunk Bytes)} {k : Nat}

/-- The chunks that have been sent. -/
def sent (d : Dispatch) : List (Chunk Bytes) := d.chunks.take d.count

/-- What some sends, one after the other, have left in a stream. -/
def stream (ds : List Dispatch) : List (Chunk Bytes) := ds.flatMap sent

theorem stream_cons (d : Dispatch) (ds : List Dispatch) :
    stream (d :: ds) = d.sent ++ stream ds := List.flatMap_cons

theorem length_sent (d : Dispatch) : d.sent.length = d.count := List.length_take_of_le d.count_le

theorem header_eq {i : Nat} {chunk : Chunk Bytes} (h : d.chunks[i]? = some chunk) :
    chunk.header = ⟨UInt64.ofNat i, i + 1 == d.chunks.length⟩ := by
  have hlt := (List.getElem?_eq_some_iff.1 h).1
  have hheaders := Passage.headers_frames (d.type.lawful_converter d.pipeline) d.chunks_eq
  have hat := congrArg (·[i]?) hheaders
  rw [List.getElem?_map, h, ChunkHeader.getElem?_sequence hlt] at hat
  exact Option.some.inj hat

theorem getElem?_sent {i : Nat} (h : i < d.count) : d.sent[i]? = d.chunks[i]? :=
  List.getElem?_take_of_lt h

/-- What follows in a stream begins with the index zero. -/
theorem index_eq_zero {chunk : Chunk Bytes} (h : (stream ds)[0]? = some chunk) :
    chunk.header.index = 0 := by
  cases ds with
  | nil => cases h
  | cons d ds =>
    rw [stream_cons, List.getElem?_append_left (d.length_sent.symm ▸ d.count_pos),
      getElem?_sent d.count_pos] at h
    rw [header_eq h]
    rfl

/-- Below the number of indices only zero has the index zero. -/
theorem eq_zero_of_ofNat {i : Nat} (hlt : i < UInt64.size) (h : UInt64.ofNat i = 0) : i = 0 := by
  have hnat := congrArg UInt64.toNat h
  rwa [UInt64.toNat_ofNat_of_lt' hlt] at hnat

/-- A whole sequence at the start of a stream is that of its first send. -/
theorem eq_chunks_of_sequence (hstream : d.sent ++ stream ds = taken ++ rest) (hne : taken ≠ [])
    (hheaders : taken.map (·.header) = ChunkHeader.sequence taken.length) :
    d.count = d.chunks.length ∧ taken = d.chunks := by
  have hpos : 0 < taken.length := List.length_pos_iff.2 hne
  have hheader : ∀ (i : Nat) (chunk : Chunk Bytes), taken[i]? = some chunk →
      chunk.header = ⟨UInt64.ofNat i, i + 1 == taken.length⟩ := by
    intro i chunk hchunk
    have hat := congrArg (·[i]?) hheaders
    rw [List.getElem?_map, hchunk,
      ChunkHeader.getElem?_sequence (List.getElem?_eq_some_iff.1 hchunk).1] at hat
    exact Option.some.inj hat
  rcases Nat.lt_or_ge d.count taken.length with hlt | hge
  · -- the chunk behind those of the first send has the index zero, which is not due
    obtain ⟨chunk, hchunk⟩ : ∃ chunk, taken[d.count]? = some chunk :=
      ⟨_, List.getElem?_eq_getElem hlt⟩
    have hleft : (taken ++ rest)[d.count]? = taken[d.count]? := List.getElem?_append_left hlt
    have hnext : (stream ds)[0]? = some chunk := by
      rw [← hchunk, ← hleft, ← hstream,
        List.getElem?_append_right (Nat.le_of_eq d.length_sent), d.length_sent, Nat.sub_self]
    have hindex := index_eq_zero hnext
    rw [hheader _ _ hchunk] at hindex
    have hzero := eq_zero_of_ofNat (Nat.lt_of_le_of_lt d.count_le d.length_lt) hindex
    exact absurd hzero (Nat.ne_of_gt d.count_pos)
  · have htaken : taken = d.chunks.take taken.length := by
      have hpart := congrArg (List.take taken.length) hstream
      rw [List.take_append_of_le_length (by rw [d.length_sent]; exact hge), List.take_left, sent,
        List.take_take, Nat.min_eq_left hge] at hpart
      exact hpart.symm
    obtain ⟨chunk, hchunk⟩ : ∃ chunk, taken[taken.length - 1]? = some chunk :=
      ⟨_, List.getElem?_eq_getElem (Nat.sub_lt hpos Nat.one_pos)⟩
    have hmark := hheader _ _ hchunk
    rw [htaken, List.getElem?_take_of_lt (by rw [← htaken]; omega), ← htaken] at hchunk
    rw [header_eq hchunk] at hmark
    have hlast := congrArg ChunkHeader.isLast hmark
    have hlength : taken.length = d.chunks.length := by
      have hsucc : taken.length - 1 + 1 = taken.length := Nat.sub_add_cancel hpos
      rw [hsucc, beq_self_eq_true, beq_iff_eq] at hlast
      exact hlast
    refine ⟨Nat.le_antisymm d.count_le (hlength ▸ hge), ?_⟩
    rw [htaken, hlength, List.take_length]

/-- A whole sequence that is taken anywhere in a stream is that of one send. -/
theorem exists_of_sequence (hstream : (stream ds).drop k = taken ++ rest) (hne : taken ≠ [])
    (hheaders : taken.map (·.header) = ChunkHeader.sequence taken.length) :
    ∃ before d after, ds = before ++ d :: after ∧ (stream before).length = k ∧
      d.count = d.chunks.length ∧ taken = d.chunks := by
  induction ds generalizing k with
  | nil =>
    rw [stream, List.flatMap_nil, List.drop_nil] at hstream
    exact absurd (List.append_eq_nil_iff.1 hstream.symm).1 hne
  | cons d ds ih =>
    rw [stream_cons] at hstream
    rcases Nat.lt_or_ge k d.count with hlt | hge
    · -- the first chunk has the index zero, so nothing of the send has been left out
      obtain ⟨chunk, hchunk⟩ : ∃ chunk, taken[0]? = some chunk :=
        ⟨_, List.getElem?_eq_getElem (List.length_pos_iff.2 hne)⟩
      have hleft : (d.sent ++ stream ds)[k]? = d.sent[k]? :=
        List.getElem?_append_left (d.length_sent.symm ▸ hlt)
      have hfirst : d.chunks[k]? = some chunk := by
        rw [← getElem?_sent hlt, ← hleft,
          ← Nat.add_zero k, ← List.getElem?_drop, hstream,
          List.getElem?_append_left (List.length_pos_iff.2 hne), hchunk]
      have hindex : chunk.header.index = 0 := by
        have hat := congrArg (·[0]?) hheaders
        rw [List.getElem?_map, hchunk,
          ChunkHeader.getElem?_sequence (List.length_pos_iff.2 hne)] at hat
        exact congrArg ChunkHeader.index (Option.some.inj hat)
      rw [header_eq hfirst] at hindex
      have hcount := Nat.lt_of_lt_of_le hlt d.count_le
      obtain rfl := eq_zero_of_ofNat (Nat.lt_trans hcount d.length_lt) hindex
      rw [List.drop_zero] at hstream
      obtain ⟨hwhole, htaken⟩ := eq_chunks_of_sequence hstream hne hheaders
      exact ⟨[], d, ds, rfl, rfl, hwhole, htaken⟩
    · rw [List.drop_append, List.drop_eq_nil_of_le (d.length_sent.symm ▸ hge), List.nil_append,
        d.length_sent] at hstream
      obtain ⟨before, e, after, rfl, hlength, hwhole, htaken⟩ := ih hstream
      refine ⟨d :: before, e, after, rfl, ?_, hwhole, htaken⟩
      rw [stream_cons, List.length_append, d.length_sent, hlength]
      omega

/-- Chunks that are accepted to the end are the chunks of one send, and all of them. -/
theorem exists_of_completes (htaken : taken <+: (stream ds).drop k)
    (h : Assembler.Completes (taken.map (·.header))) :
    ∃ before d after, ds = before ++ d :: after ∧ (stream before).length = k ∧
      d.count = d.chunks.length ∧ taken = d.chunks := by
  obtain ⟨rest, hstream⟩ := htaken
  obtain ⟨hne, hheaders⟩ := h.eq_sequence
  rw [List.length_map] at hheaders
  exact exists_of_sequence hstream.symm (mt List.map_eq_nil_iff.2 hne) hheaders

end Dispatch

end Collective
