import Collective.Proofs.Answer
import Collective.Proofs.Pipeline.Validation

/-!
# What chunks are joined to

Converters check the headers of chunks in the same way and put the data together in different ones:
lists are what all chunks hold, one behind the other, while a value that travels whole is what the
last chunk holds. So a list that one converter has cut into several chunks is read without an error,
and all but its last run is lost, by a task to which the value travels whole.
-/

namespace Collective

namespace Converter

variable {α ε : Type}

theorem joinWhole_append_singleton (before : List (Chunk α)) (last : Chunk α) :
    joinWhole (before ++ [last]) =
      (Assembler.validate ((before ++ [last]).map (·.header))).map fun _ => last.data := by
  rw [joinWhole, assemble_eq, List.foldl_append]
  cases Assembler.validate ((before ++ [last]).map (·.header)) <;> rfl

/-- Chunks are joined exactly if their headers are valid, and are refused for the same reason. -/
def Validates (join : List (Chunk α) → Except OutOfOrder α) : Prop :=
  ∀ chunks, (join chunks).map (fun _ => ()) = Assembler.validate (chunks.map (·.header))

theorem validates_joinLists : Validates (joinLists : List (Chunk (List ε)) → _) := by
  intro chunks
  rw [joinLists_eq, except_map_map]
  cases Assembler.validate (chunks.map (·.header)) <;> rfl

theorem validates_joinWhole : Validates (joinWhole : List (Chunk α) → _) := by
  intro chunks
  rcases List.eq_nil_or_concat' chunks with rfl | ⟨before, last, rfl⟩
  · rfl
  · rw [joinWhole_append_singleton, except_map_map]
    cases Assembler.validate ((before ++ [last]).map (·.header)) <;> rfl

namespace Validates

variable {join : List (Chunk α) → Except OutOfOrder α} {chunks : List (Chunk α)}

theorem eq_error_iff (h : Validates join) {e : OutOfOrder} :
    join chunks = .error e ↔ Assembler.validate (chunks.map (·.header)) = .error e := by
  rw [← h chunks]
  cases join chunks <;> simp [Except.map]

theorem exists_eq_ok (h : Validates join)
    (hvalid : Assembler.validate (chunks.map (·.header)) = .ok ()) :
    ∃ value, join chunks = .ok value := by
  rw [← h chunks] at hvalid
  cases hjoin : join chunks with
  | error e =>
    rw [hjoin] at hvalid
    cases hvalid
  | ok value => exact ⟨value, rfl⟩

end Validates

theorem joinLists_eq_ok_iff {chunks : List (Chunk (List ε))} {elements : List ε} :
    joinLists chunks = .ok elements ↔
      Assembler.validate (chunks.map (·.header)) = .ok () ∧
        elements = chunks.flatMap (·.data) := by
  rw [joinLists_eq, map_const_eq_ok_iff]

theorem joinWhole_eq_ok_iff {chunks : List (Chunk α)} {value : α} :
    joinWhole chunks = .ok value ↔
      Assembler.validate (chunks.map (·.header)) = .ok () ∧
        ∃ before header, chunks = before ++ [⟨header, value⟩] := by
  rcases List.eq_nil_or_concat' chunks with rfl | ⟨before, ⟨header, data⟩, rfl⟩
  · exact ⟨nofun, nofun⟩
  · rw [joinWhole_append_singleton, map_const_eq_ok_iff, and_congr_right_iff]
    rintro -
    constructor
    · rintro rfl
      exact ⟨before, header, rfl⟩
    · rintro ⟨before', header', heq⟩
      have hlast := List.append_inj_right' heq rfl
      exact (congrArg Chunk.data (List.singleton_inj.1 hlast)).symm

/-- A chunk that is valid by itself is how a value travels whole. -/
theorem eq_single_of_validate {header : ChunkHeader} {value : α}
    (h : Assembler.validate [header] = .ok ()) : [⟨header, value⟩] = single value := by
  have hlength : [header].length < UInt64.size := show 1 < UInt64.size by decide
  have hwhole := (Assembler.validate_eq_ok_iff hlength).1 h
  have hindex : header.index = 0 := UInt64.toNat_inj.1 (hwhole.index_eq 0 Nat.one_pos)
  have hlast : header.isLast = true := (hwhole.isLast_iff 0 Nat.one_pos).2 rfl
  obtain ⟨index, isLast⟩ := header
  cases hindex
  cases hlast
  rfl

/-- A list is all that its chunks hold. A value that travels whole is what the last of its chunks
holds, whatever the others do; only a single chunk that makes a value is how the value is cut. -/
theorem join_holds (size : ChunkSize) (lists : List (Chunk (List ε))) (elements : List ε)
    (chunks : List (Chunk α)) (value : α) :
    ((chunked size).join lists = .ok elements ↔
      Assembler.validate (lists.map (·.header)) = .ok () ∧
        elements = lists.flatMap (·.data)) ∧
    (whole.join chunks = .ok value ↔
      Assembler.validate (chunks.map (·.header)) = .ok () ∧
        ∃ before header, chunks = before ++ [⟨header, value⟩]) ∧
    (whole.join chunks = .ok value ∧ chunks.length = 1 ↔ chunks = whole.split value) := by
  refine ⟨joinLists_eq_ok_iff, joinWhole_eq_ok_iff, ?_, ?_⟩
  · rintro ⟨hjoin, hlength⟩
    obtain ⟨hvalid, before, header, rfl⟩ := joinWhole_eq_ok_iff.1 hjoin
    obtain rfl : before = [] := by simpa using hlength
    exact eq_single_of_validate hvalid
  · rintro rfl
    exact ⟨lawful_whole.join_split value, rfl⟩

/-- The first run of a list that one converter has cut in two is lost by the other. -/
theorem first_run_lost :
    ¬ ∀ (chunks : List (Chunk (List Int32))) (value : List Int32),
      whole.join chunks = .ok value →
        (∀ chunk ∈ chunks, chunk.data <:+: value) ∧ chunks = whole.split value := by
  intro h
  have hjoin : whole.join ((chunked ⟨1, ChunkSize.one_ne_zero⟩).split [1, 2]) =
      .ok ([2] : List Int32) := by decide +kernel
  have hrun : ⟨⟨0, false⟩, [1]⟩ ∈
      (chunked ⟨1, ChunkSize.one_ne_zero⟩).split ([1, 2] : List Int32) := by decide +kernel
  have hpart := (h _ _ hjoin).1 _ hrun
  exact absurd hpart (by decide)

end Converter

end Collective
