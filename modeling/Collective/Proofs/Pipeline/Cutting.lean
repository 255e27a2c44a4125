import Collective.Proofs.Pipeline.Converter

/-!
# The chunks of a list

The windows that the chunks of a list hold begin at the multiples of the chunk size, so there are as
many as the size goes into the length, rounded up, and every one but the last is full. Main result:
a list is cut into the least number of chunks that hold it, and at least one; they are numbered from
zero, the last one alone is marked and may be short, and they are joined to the list again.
-/

namespace Collective

namespace Converter

variable {ε : Type}

theorem getElem_splitList (size : ChunkSize) (elements : List ε) {i : Nat}
    (h : i < (splitList size elements).length) :
    (splitList size elements)[i] =
      window size.count.toNat (chunkCount size elements) elements i := by
  simp only [splitList_eq, List.getElem_map, List.getElem_range]

theorem length_data_splitList (size : ChunkSize) (elements : List ε) {i : Nat}
    (h : i < (splitList size elements).length) :
    (splitList size elements)[i].data.length =
      min size.count.toNat (elements.length - size.count.toNat * i) := by
  rw [getElem_splitList, window, List.length_take, List.length_drop]

/-- Behind the first chunk there is one only where elements are left. -/
theorem lt_length_splitList_iff (size : ChunkSize) (elements : List ε) (i : Nat) :
    i < (splitList size elements).length ↔ i = 0 ∨ size.count.toNat * i < elements.length := by
  rw [length_splitList, chunkCount, lt_max_iff, Nat.lt_one_iff, ← Nat.not_le,
    ceilDiv_le_iff_le_mul size.toNat_pos, Nat.not_le]

/-- How the chunks of a list are laid out. -/
structure Cut (size : ChunkSize) (elements : List ε) (chunks : List (Chunk (List ε))) : Prop where
  length_eq : chunks.length = max 1 (elements.length ⌈/⌉ size.count.toNat)
  index_eq : ∀ i (h : i < chunks.length), chunks[i].header.index = UInt64.ofNat i
  /-- No list whose length is a word has so many chunks that the indices wrap around. -/
  toNat_index : elements.length < UInt64.size →
    ∀ i (h : i < chunks.length), chunks[i].header.index.toNat = i
  isLast_iff : ∀ i (h : i < chunks.length),
    chunks[i].header.isLast = true ↔ i + 1 = chunks.length
  length_of_inner : ∀ i (h : i < chunks.length), i + 1 < chunks.length →
    chunks[i].data.length = size.count.toNat
  length_le : ∀ i (h : i < chunks.length), chunks[i].data.length ≤ size.count.toNat
  length_eq_zero_iff : ∀ i (h : i < chunks.length), chunks[i].data.length = 0 ↔ elements = []
  join_eq : joinLists chunks = .ok elements

/-- Every list is cut into as many chunks as it takes, and at least one: all of them full but the
last, which alone is marked, is never longer than the others, and is empty for the empty list only.
Joining brings the list back. -/
theorem splitList_cut (size : ChunkSize) (elements : List ε) :
    Cut size elements (splitList size elements) where
  length_eq := length_splitList size elements
  index_eq i h := by rw [getElem_splitList, window]
  toNat_index hfits i h := by
    rw [getElem_splitList]
    apply UInt64.toNat_ofNat_of_lt'
    rcases (lt_length_splitList_iff size elements i).1 h with rfl | hlt
    · decide
    · exact Nat.lt_trans (Nat.lt_of_le_of_lt (Nat.le_mul_of_pos_left i size.toNat_pos) hlt) hfits
  isLast_iff i h := by rw [getElem_splitList, length_splitList, window, beq_iff_eq]
  length_of_inner i h hinner := by
    have hlt := (lt_length_splitList_iff size elements (i + 1)).1 hinner
    rw [Nat.mul_succ] at hlt
    rw [length_data_splitList]
    omega
  length_le i h := by
    rw [length_data_splitList]
    exact Nat.min_le_left _ _
  length_eq_zero_iff i h := by
    have hpos := size.toNat_pos
    have hlt := (lt_length_splitList_iff size elements i).1 h
    rw [length_data_splitList, ← List.length_eq_zero_iff]
    rcases hlt with rfl | hlt <;> omega
  join_eq := (lawful_chunked size).join_split elements

end Converter

end Collective
