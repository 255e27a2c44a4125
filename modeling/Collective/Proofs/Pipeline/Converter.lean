import Collective.Pipeline.Converter
import Mathlib.Algebra.Order.Floor.Div

/-!
# Converters are lawful

Every converter cuts a value into at least one chunk, numbers the chunks from zero and marks the
last one, and joins them to the value again. The numbers wrap around like the assembler's. A list is
cut by a loop that takes its elements in turn; what it takes at an index is the window of the list
that begins there, so the loop comes to the end of the list exactly when its count has run out.
-/

namespace Collective

/-- A loop hands its state on from item to item. -/
theorem run_mapM_cons {ι σ α : Type} (f : ι → StateM σ α) (item : ι) (items : List ι) (s : σ) :
    ((item :: items).mapM f).run s =
      let next := (f item).run s
      let last := (items.mapM f).run next.2
      (next.1 :: last.1, last.2) := by
  rw [List.mapM_cons]
  rfl

/-- The headers of a sequence of `n` chunks. -/
def ChunkHeader.sequence (n : Nat) : List ChunkHeader :=
  (List.range n).map fun i => ⟨UInt64.ofNat i, i + 1 == n⟩

theorem Assembler.acceptAll_append (a : Assembler) (early late : List ChunkHeader) :
    a.acceptAll (early ++ late) = (a.acceptAll early).bind fun a => a.acceptAll late := by
  rw [acceptAll, List.foldlM_append]
  rfl

theorem Assembler.acceptAll_singleton (a : Assembler) (header : ChunkHeader) :
    a.acceptAll [header] = a.accept header := by
  show (a.accept header).bind (fun a => .ok a) = a.accept header
  cases a.accept header <;> rfl

/-- An assembler that has accepted the first headers of a sequence. -/
theorem Assembler.acceptAll_take_sequence {n k : Nat} (hn : 0 < n) (hk : k ≤ n) :
    start.acceptAll ((ChunkHeader.sequence n).take k) = .ok ⟨UInt64.ofNat k, k == n⟩ := by
  induction k with
  | zero =>
    have hne : (0 == n) = false := beq_false_of_ne (Nat.ne_of_lt hn)
    rw [hne]
    rfl
  | succ k ih =>
    have hlt : k < (ChunkHeader.sequence n).length := by
      simpa [ChunkHeader.sequence] using Nat.lt_of_succ_le hk
    have hnext : (ChunkHeader.sequence n)[k] = ⟨UInt64.ofNat k, k + 1 == n⟩ := by
      simp [ChunkHeader.sequence]
    have hopen : (k == n) = false := beq_false_of_ne (by omega)
    rw [List.take_succ_eq_append_getElem hlt, acceptAll_append, ih (by omega), hnext, hopen]
    show acceptAll _ [_] = _
    rw [acceptAll_singleton]
    simp [accept]

/-- All headers of a sequence, and its end. -/
def Assembler.validate (headers : List ChunkHeader) : Except OutOfOrder Unit := do
  let a ← start.acceptAll headers
  a.finish

theorem Assembler.validate_sequence {n : Nat} (hn : 0 < n) :
    validate (ChunkHeader.sequence n) = .ok () := by
  have haccept := acceptAll_take_sequence hn (Nat.le_refl _)
  rw [List.take_of_length_le (by simp [ChunkHeader.sequence]), beq_self_eq_true] at haccept
  rw [validate, haccept]
  rfl

/-- The least number of elements per chunk. -/
theorem ChunkSize.one_ne_zero : (1 : UInt64) ≠ 0 := by decide

theorem ChunkSize.toNat_pos (size : ChunkSize) : 0 < size.count.toNat := by
  apply Nat.pos_of_ne_zero
  intro h
  exact size.count_ne_zero (UInt64.toNat_inj.1 h)

namespace Converter

variable {α ε : Type}

/-- What a way to send values has to keep to. -/
structure Lawful (c : Converter α) : Prop where
  split_ne_nil : ∀ value, c.split value ≠ []
  headers_split : ∀ value,
    (c.split value).map (·.header) = ChunkHeader.sequence (c.split value).length
  join_split : ∀ value, c.join (c.split value) = .ok value

theorem lawful_whole : (whole : Converter α).Lawful where
  split_ne_nil _ := List.cons_ne_nil _ _
  headers_split _ := rfl
  join_split _ := rfl

/-! ## Joining -/

/-- What is built does not bear on which headers are accepted. -/
theorem assemble_eq (put : β → α → β) (empty : β) (chunks : List (Chunk α)) :
    assemble put empty chunks = (Assembler.validate (chunks.map (·.header))).map fun _ =>
      chunks.foldl (fun built chunk => put built chunk.data) empty := by
  rw [assemble, Assembler.validate]
  generalize Assembler.start = a
  induction chunks generalizing a empty with
  | nil =>
    show (a.finish).bind _ = Except.map _ a.finish
    cases a.finish <;> rfl
  | cons chunk rest ih =>
    rw [List.foldlM_cons, addChunk, List.map_cons, Assembler.acceptAll, List.foldlM_cons]
    cases a.accept chunk.header with
    | error e => rfl
    | ok next => exact ih (put empty chunk.data) next

theorem joinLists_eq (chunks : List (Chunk (List ε))) :
    joinLists chunks =
      (Assembler.validate (chunks.map (·.header))).map fun _ => chunks.flatMap (·.data) := by
  rw [joinLists, assemble_eq, List.flatMap_eq_foldl]

/-! ## Cutting -/

/-- The chunk of an index, with the window of the list that begins there. -/
def window (size total : Nat) (elements : List ε) (index : Nat) : Chunk (List ε) :=
  ⟨⟨UInt64.ofNat index, index + 1 == total⟩, (elements.drop (size * index)).take size⟩

/-- The loop takes the windows of its indices, and leaves what is behind them. -/
theorem run_mapM_takeChunk (size total first count : Nat) (elements : List ε) :
    ((List.range' first count).mapM (takeChunk size total)).run (elements.drop (size * first)) =
      ((List.range' first count).map (window size total elements),
        elements.drop (size * (first + count))) := by
  induction count generalizing first with
  | zero => rfl
  | succ count ih =>
    have hleft : (elements.drop (size * first)).drop size = elements.drop (size * (first + 1)) := by
      rw [List.drop_drop, Nat.mul_succ]
    have hstep : (takeChunk size total first).run (elements.drop (size * first)) =
        (window size total elements first, elements.drop (size * (first + 1))) := by
      rw [← hleft]
      rfl
    have hrest := ih (first + 1)
    rw [Nat.add_assoc, Nat.add_comm 1] at hrest
    rw [List.range'_succ, run_mapM_cons, hstep]
    dsimp only
    rw [hrest]
    rfl

/-- The number of chunks that hold a list: as many as the size goes into the length, rounded up, and
at least one. -/
def chunkCount (size : ChunkSize) (elements : List ε) : Nat :=
  max 1 (elements.length ⌈/⌉ size.count.toNat)

theorem chunkCount_pos (size : ChunkSize) (elements : List ε) : 0 < chunkCount size elements :=
  Nat.le_max_left _ _

/-- A list has no element behind its chunks. -/
theorem length_le_mul_chunkCount (size : ChunkSize) (elements : List ε) :
    elements.length ≤ size.count.toNat * chunkCount size elements :=
  (ceilDiv_le_iff_le_mul size.toNat_pos).1 (Nat.le_max_right _ _)

theorem splitList_eq (size : ChunkSize) (elements : List ε) :
    splitList size elements = (List.range (chunkCount size elements)).map
      (window size.count.toNat (chunkCount size elements) elements) := by
  by_cases h : elements = []
  · subst h
    have hcount : chunkCount size ([] : List ε) = 1 := by simp [chunkCount]
    rw [hcount]
    show single [] = [window size.count.toNat 1 [] 0]
    rw [window, List.drop_nil, List.take_nil]
    rfl
  · have hpos : 0 < elements.length ⌈/⌉ size.count.toNat := by
      rw [← Nat.not_le, ceilDiv_le_iff_le_mul size.toNat_pos, Nat.mul_zero, Nat.not_le]
      exact List.length_pos_iff.2 h
    have hcount : (elements.length + size.count.toNat - 1) / size.count.toNat =
        chunkCount size elements := by
      rw [chunkCount, Nat.max_eq_right hpos, Nat.ceilDiv_eq_add_pred_div]
    have hloop := run_mapM_takeChunk size.count.toNat (chunkCount size elements) 0
      (chunkCount size elements) elements
    rw [← List.range_eq_range', Nat.mul_zero, List.drop_zero] at hloop
    rw [splitList, if_neg (by simpa using h)]
    dsimp only
    rw [hcount, hloop]

theorem headers_splitList (size : ChunkSize) (elements : List ε) :
    (splitList size elements).map (·.header) =
      ChunkHeader.sequence (chunkCount size elements) := by
  rw [splitList_eq, List.map_map]
  rfl

@[simp] theorem length_splitList (size : ChunkSize) (elements : List ε) :
    (splitList size elements).length = chunkCount size elements := by
  rw [splitList_eq, List.length_map, List.length_range]

/-- Windows that begin where the ones before them end hold the front of the list. -/
theorem flatMap_data_window (size total count : Nat) (elements : List ε) :
    ((List.range count).map (window size total elements)).flatMap (·.data) =
      elements.take (size * count) := by
  induction count with
  | zero => rfl
  | succ count ih =>
    rw [List.range_succ, List.map_append, List.flatMap_append, ih, Nat.mul_succ, List.take_add]
    exact congrArg _ (List.append_nil _)

theorem flatMap_data_splitList (size : ChunkSize) (elements : List ε) :
    (splitList size elements).flatMap (·.data) = elements := by
  rw [splitList_eq, flatMap_data_window,
    List.take_of_length_le (length_le_mul_chunkCount size elements)]

theorem lawful_chunked (size : ChunkSize) : (chunked size : Converter (List ε)).Lawful where
  split_ne_nil elements := by
    apply List.ne_nil_of_length_pos
    show 0 < (splitList size elements).length
    rw [length_splitList]
    exact chunkCount_pos size elements
  headers_split elements := by
    show (splitList size elements).map _ = ChunkHeader.sequence (splitList size elements).length
    rw [headers_splitList, length_splitList]
  join_split elements := by
    show joinLists (splitList size elements) = _
    rw [joinLists_eq, headers_splitList,
      Assembler.validate_sequence (chunkCount_pos size elements), flatMap_data_splitList]
    rfl

end Converter

/-- A number is one chunk. -/
theorem PayloadType.length_split_numeric (type : NumericType) (pipeline : Pipeline)
    (value : type.Carrier) :
    (((PayloadType.numeric type).converter pipeline).split value).length = 1 := by
  cases pipeline <;> rfl

/-- The converter of every payload type is lawful. -/
theorem PayloadType.lawful_converter (type : PayloadType) (pipeline : Pipeline) :
    (type.converter pipeline).Lawful := by
  cases pipeline with
  | whole => cases type <;> exact Converter.lawful_whole
  | chunked size =>
    cases type with
    | list element => exact Converter.lawful_chunked size
    | _ => exact Converter.lawful_whole

end Collective
