import Collective.Group.Call
import Collective.Proofs.Pipeline.Alignment
import Collective.Proofs.Pipeline.Joining

/-!
# Values validated twice

The chunks of a value are validated one by one as they arrive, and once more when all of them have
arrived and are joined. Main statement: the two agree. A chunk that the first validation refuses
makes the second one fail with the same error, and where the first one has come to the end of a
sequence the second one succeeds.
-/

namespace Collective

namespace Arrival

variable {α : Type} {p : Passage α} {source : String} {arrival : Arrival α}

/-- What can have come of a value before its last chunk: chunks that the assembler has accepted and
that could be read. -/
inductive Reached (p : Passage α) (source : String) : Arrival α → Prop
  | start : Reached p source (.from source)
  | more {arrival next : Arrival α} {assembler : Assembler} {chunk : Chunk Bytes} :
    Reached p source arrival → arrival.assembler.accept chunk.header = .ok assembler →
      arrival.absorb p assembler chunk = .ok (.underway next) → Reached p source next

/-- What becomes of an arrival with one more chunk that its assembler has accepted. -/
inductive Absorbed (p : Passage α) (arrival : Arrival α) (assembler : Assembler)
    (chunk : Chunk Bytes) : Except GroupError (Incoming α) → Prop
  | unreadable (e : CodecError) : Absorbed p arrival assembler chunk (.error (.serialization e))
  | underway (data : α) : assembler.complete = false →
    Absorbed p arrival assembler chunk
      (.ok (.underway ⟨arrival.source, assembler, arrival.chunks ++ [⟨chunk.header, data⟩]⟩))
  | complete (data value : α) : assembler.complete = true →
    p.converter.join (arrival.chunks ++ [⟨chunk.header, data⟩]) = .ok value →
      Absorbed p arrival assembler chunk (.ok (.complete value))
  | refused (data : α) (e : OutOfOrder) : assembler.complete = true →
    p.converter.join (arrival.chunks ++ [⟨chunk.header, data⟩]) = .error e →
      Absorbed p arrival assembler chunk (.error (.outOfOrder e))

theorem absorbed (p : Passage α) (arrival : Arrival α) (assembler : Assembler)
    (chunk : Chunk Bytes) :
    Absorbed p arrival assembler chunk (arrival.absorb p assembler chunk) := by
  rw [absorb]
  cases p.codec.decode chunk.data with
  | error e => exact .unreadable e
  | ok data =>
    dsimp only
    split
    · next hend =>
      split
      · next value hjoin => exact .complete data value hend hjoin
      · next e hjoin => exact .refused data e hend hjoin
    · next hopen => exact .underway data (by simpa using hopen)

/-- The chunks of an arrival are those that its assembler has accepted. -/
theorem Reached.acceptAll (h : Reached p source arrival) :
    Assembler.start.acceptAll (arrival.chunks.map (·.header)) = .ok arrival.assembler ∧
      arrival.assembler.complete = false := by
  induction h with
  | start => exact ⟨rfl, rfl⟩
  | @more arrival next assembler chunk _ haccept habsorb ih =>
    have hcase := absorbed p arrival assembler chunk
    rw [habsorb] at hcase
    cases hcase with
    | underway data hopen =>
      refine ⟨?_, hopen⟩
      rw [List.map_append, List.map_singleton, Assembler.acceptAll_append_singleton, ih.1]
      exact haccept

/-- Behind the chunks of an arrival, validation goes on with what the assembler says. -/
theorem Reached.validate_append (h : Reached p source arrival) (header : ChunkHeader) :
    Assembler.validate (arrival.chunks.map (·.header) ++ [header]) =
      (arrival.assembler.accept header).bind Assembler.finish := by
  rw [Assembler.validate, Assembler.acceptAll_append_singleton, h.acceptAll.1]
  rfl

end Arrival

/-- The two validations of a value's chunks agree. -/
structure Passage.Agrees {α : Type} (p : Passage α) : Prop where
  /-- What has come before the last chunk is no value yet. -/
  join_of_reached : ∀ source arrival, Arrival.Reached p source arrival →
    p.converter.join arrival.chunks = .error ⟨some arrival.assembler.next, none⟩
  /-- A chunk that is refused on arrival is refused behind the others, too. -/
  join_of_refused : ∀ source arrival, Arrival.Reached p source arrival → ∀ header data e,
    arrival.assembler.accept header = .error e →
      p.converter.join (arrival.chunks ++ [⟨header, data⟩]) = .error e
  /-- With the last chunk a value has come. -/
  join_of_complete : ∀ source arrival, Arrival.Reached p source arrival →
    ∀ header data assembler, arrival.assembler.accept header = .ok assembler →
      assembler.complete = true →
        ∃ value, p.converter.join (arrival.chunks ++ [⟨header, data⟩]) = .ok value
  /-- No chunk that is accepted on arrival is out of order when the value is joined. -/
  absorb_ne : ∀ source arrival, Arrival.Reached p source arrival → ∀ chunk assembler,
    arrival.assembler.accept chunk.header = .ok assembler →
      ∀ e, arrival.absorb p assembler chunk ≠ .error (.outOfOrder e)

/-- Where a converter refuses chunks for their headers only, the second validation repeats the
first. -/
theorem Passage.Agrees.of_validates {α : Type} {p : Passage α}
    (h : Converter.Validates p.converter.join) : p.Agrees := by
  have hcomplete : ∀ source arrival, Arrival.Reached p source arrival →
      ∀ header data assembler, arrival.assembler.accept header = .ok assembler →
        assembler.complete = true →
          ∃ value, p.converter.join (arrival.chunks ++ [⟨header, data⟩]) = .ok value := by
    intro source arrival hreached header data assembler haccept hend
    apply h.exists_eq_ok
    rw [List.map_append, List.map_singleton, hreached.validate_append, haccept]
    exact if_pos hend
  refine ⟨?_, ?_, hcomplete, ?_⟩
  · intro source arrival hreached
    obtain ⟨hall, hopen⟩ := hreached.acceptAll
    rw [h.eq_error_iff, Assembler.validate, hall]
    exact if_neg (Bool.eq_false_iff.1 hopen)
  · intro source arrival hreached header data e hrefused
    rw [h.eq_error_iff, List.map_append, List.map_singleton, hreached.validate_append,
      hrefused]
    rfl
  · intro source arrival hreached chunk assembler haccept e habsorb
    have hcase := Arrival.absorbed p arrival assembler chunk
    rw [habsorb] at hcase
    cases hcase with
    | refused data e hend hjoin =>
      obtain ⟨value, hvalue⟩ := hcomplete source arrival hreached _ data assembler haccept hend
      cases hjoin.symm.trans hvalue

namespace Assembler

variable {α ε : Type} {chunks : List (Chunk (List ε))}

/-- Lists are joined from whole sequences and refused for what is wrong at the first position that
offends. An assembler that refuses a chunk stays as it is. And what has been accepted chunk by chunk
is not refused when it is joined, whether values travel whole or in chunks. -/
theorem validation_exact (hlength : chunks.length < UInt64.size) :
    (∀ elements, Converter.joinLists chunks = .ok elements ↔
      ChunkHeader.IsWhole (chunks.map (·.header)) ∧ elements = chunks.flatMap (·.data)) ∧
    (∀ e, Converter.joinLists chunks = .error e ↔
      ∃ p, ChunkHeader.FirstOffence (chunks.map (·.header)) p e) ∧
    (∀ a header e b, (enter header).run a = (.error e, b) → b = a) ∧
    (∀ history, ∃ accepted, accepted.Sublist history ∧
      start.acceptAll accepted = .ok ((history.mapM enter).run start).2) ∧
    (∀ codec : Codec α, Passage.Agrees ⟨codec, .whole⟩) ∧
    (∀ (codec : Codec (List ε)) (size : ChunkSize), Passage.Agrees ⟨codec, .chunked size⟩) := by
  have hheaders : (chunks.map (·.header)).length < UInt64.size := by rwa [List.length_map]
  refine ⟨?_, ?_, fun _ _ _ _ => eq_of_run_enter_eq_error, exists_accepted start,
    fun _ => .of_validates Converter.validates_joinWhole,
    fun _ _ => .of_validates Converter.validates_joinLists⟩
  · intro elements
    rw [← validate_eq_ok_iff hheaders]
    exact Converter.joinLists_eq_ok_iff
  · intro e
    rw [← validate_eq_error_iff hheaders]
    exact Converter.validates_joinLists.eq_error_iff

/-- A sequence in which one chunk is missing behind the first, and the last one is marked too
early. -/
def gapped : List (Chunk (List String)) :=
  [⟨⟨0, false⟩, ["a"]⟩, ⟨⟨2, false⟩, ["c"]⟩, ⟨⟨1, true⟩, ["b"]⟩, ⟨⟨3, false⟩, []⟩]

theorem validation_exact_gapped : gapped.length < UInt64.size ∧
    Converter.joinLists gapped = .error ⟨some 1, some 2⟩ := by
  have hlength : gapped.length < UInt64.size := show 4 < UInt64.size by decide
  have hfirst : ChunkHeader.FirstOffence (gapped.map (·.header)) 1 ⟨some 1, some 2⟩ :=
    ⟨by decide, by decide⟩
  exact ⟨hlength, ((validation_exact (α := Unit) hlength).2.1 _).2 ⟨1, hfirst⟩⟩

end Assembler

end Collective
