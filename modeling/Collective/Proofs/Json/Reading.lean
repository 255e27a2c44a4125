import Collective.Json.Parser
import Collective.Json.Printer
import Collective.Proofs.Json.Scan

/-!
# Reading what is written

The text of a value reads as the value, but for its numbers, each of which reads as what its own
text reads as. So a value of integers, texts and truth values reads as itself, and an array reads
exactly if its items do.
-/

namespace Collective.Json

mutual

/-- No number in the value has an empty text, and no string has a bare control character. -/
def Legible : Json → Prop
  | .null => True
  | .bool _ => True
  | .number n => n.print ≠ []
  | .string pieces => ∀ piece ∈ pieces, piece.Legible
  | .array items => LegibleItems items
  | .object members => LegibleMembers members

/-- Every item is legible. -/
def LegibleItems : List Json → Prop
  | [] => True
  | item :: rest => Legible item ∧ LegibleItems rest

/-- Every member is legible, its name included. -/
def LegibleMembers : List (List Piece × Json) → Prop
  | [] => True
  | (name, value) :: rest =>
    (∀ piece ∈ name, piece.Legible) ∧ Legible value ∧ LegibleMembers rest

end

mutual

/-- The value whose numbers are those that read where the numbers of a value are written. -/
def reread? : Json → Option Json
  | .null => some .null
  | .bool b => some (.bool b)
  | .number n => (Number.parse? n.print).map .number
  | .string pieces => some (.string pieces)
  | .array items => (rereadItems? items).map .array
  | .object members => (rereadMembers? members).map .object

/-- The items that read where items are written. -/
def rereadItems? : List Json → Option (List Json)
  | [] => some []
  | item :: rest => (reread? item).bind fun item => (rereadItems? rest).map (item :: ·)

/-- The members that read where members are written. -/
def rereadMembers? : List (List Piece × Json) → Option (List (List Piece × Json))
  | [] => some []
  | (name, value) :: rest =>
    (reread? value).bind fun value => (rereadMembers? rest).map ((name, value) :: ·)

end

theorem legibleItems_iff {items : List Json} :
    LegibleItems items ↔ ∀ item ∈ items, item.Legible := by
  induction items with
  | nil => simp [LegibleItems]
  | cons item rest ih => rw [LegibleItems, ih, List.forall_mem_cons]

theorem rereadItems?_eq_mapM (items : List Json) : rereadItems? items = items.mapM reread? := by
  induction items with
  | nil => rfl
  | cons item rest ih =>
    rw [rereadItems?, ih, List.mapM_cons]
    cases reread? item with
    | none => rfl
    | some value => cases List.mapM reread? rest <;> rfl

theorem exists_cons_of_rereadItems? {item : Json} {rest items : List Json}
    (h : rereadItems? (item :: rest) = some items) : ∃ first more, items = first :: more := by
  obtain ⟨first, -, h⟩ := Option.bind_eq_some_iff.1 h
  obtain ⟨more, -, rfl⟩ := Option.map_eq_some_iff.1 h
  exact ⟨first, more, rfl⟩

theorem exists_cons_of_rereadMembers? {name : List Piece} {value : Json}
    {rest members : List (List Piece × Json)}
    (h : rereadMembers? ((name, value) :: rest) = some members) :
    ∃ first more, members = first :: more := by
  obtain ⟨first, -, h⟩ := Option.bind_eq_some_iff.1 h
  obtain ⟨more, -, rfl⟩ := Option.map_eq_some_iff.1 h
  exact ⟨(name, first), more, rfl⟩

theorem tokensOfItems_cons_cons (item next : Json) (more : List Json) :
    tokensOfItems (item :: next :: more) =
      tokens item ++ .comma :: tokensOfItems (next :: more) := rfl

theorem tokensOfMembers_cons_cons (name : List Piece) (value : Json) (next : List Piece × Json)
    (more : List (List Piece × Json)) :
    tokensOfMembers ((name, value) :: next :: more) =
      .string name :: .colon :: (tokens value ++ .comma :: tokensOfMembers (next :: more)) := rfl

/-! ## Scanning -/

open Token (Stops)

theorem stops_of_mark {b : UInt8} (h : b = 44 ∨ b = 93 ∨ b = 125) (rest : Bytes) :
    Stops (b :: rest) := by
  intro c hc
  obtain rfl := Option.some.inj hc
  rcases h with rfl | rfl | rfl <;> exact ⟨rfl, rfl⟩

mutual

/-- The text of a value is scanned as the tokens of what it reads as. -/
theorem run_print_tokens {j : Json} (h : j.Legible) {rest : Bytes} (hrest : Stops rest) :
    Token.Scan.run .idle (j.tokens.flatMap Token.print ++ rest) =
      j.reread?.bind fun j' => (Token.Scan.run .idle rest).map (j'.tokens ++ ·) := by
  match j with
  | .null =>
    rw [tokens, List.flatMap_singleton, Token.run_null hrest]
    rfl
  | .bool b =>
    rw [tokens, List.flatMap_singleton, Token.run_bool b hrest]
    rfl
  | .number n =>
    rw [tokens, List.flatMap_singleton, Token.run_number h hrest, reread?]
    cases Number.parse? n.print <;> rfl
  | .string pieces =>
    rw [tokens, List.flatMap_singleton, Token.run_string h]
    rfl
  | .array items =>
    have hstops : Stops (Token.closeArray.print ++ rest) :=
      stops_of_mark (.inr (.inl rfl)) rest
    rw [tokens, List.flatMap_cons, List.flatMap_append, List.flatMap_singleton, List.append_assoc,
      List.append_assoc, Token.run_mark _ rfl, run_print_items h hstops, Token.run_mark _ rfl,
      reread?]
    cases rereadItems? items with
    | none => rfl
    | some items' => cases Token.Scan.run .idle rest <;> simp [tokens]
  | .object members =>
    have hstops : Stops (Token.closeObject.print ++ rest) :=
      stops_of_mark (.inr (.inr rfl)) rest
    rw [tokens, List.flatMap_cons, List.flatMap_append, List.flatMap_singleton, List.append_assoc,
      List.append_assoc, Token.run_mark _ rfl, run_print_members h hstops, Token.run_mark _ rfl,
      reread?]
    cases rereadMembers? members with
    | none => rfl
    | some members' => cases Token.Scan.run .idle rest <;> simp [tokens]

theorem run_print_items {items : List Json} (h : LegibleItems items) {rest : Bytes}
    (hrest : Stops rest) :
    Token.Scan.run .idle ((tokensOfItems items).flatMap Token.print ++ rest) =
      (rereadItems? items).bind fun items' =>
        (Token.Scan.run .idle rest).map (tokensOfItems items' ++ ·) := by
  match items with
  | [] =>
    show Token.Scan.run .idle rest = (Token.Scan.run .idle rest).map _
    cases Token.Scan.run .idle rest <;> rfl
  | [item] =>
    rw [tokensOfItems, run_print_tokens h.1 hrest, rereadItems?, rereadItems?]
    cases reread? item <;> rfl
  | item :: next :: more =>
    have hstops : Stops (Token.comma.print ++
        ((tokensOfItems (next :: more)).flatMap Token.print ++ rest)) :=
      stops_of_mark (.inl rfl) _
    have hreread : rereadItems? (item :: next :: more) =
        (reread? item).bind fun item => (rereadItems? (next :: more)).map (item :: ·) := rfl
    rw [tokensOfItems_cons_cons, List.flatMap_append, List.flatMap_cons, List.append_assoc,
      List.append_assoc, run_print_tokens h.1 hstops, Token.run_mark _ rfl,
      run_print_items h.2 hrest, hreread]
    cases reread? item with
    | none => rfl
    | some item' =>
      cases hmore : rereadItems? (next :: more) with
      | none => rfl
      | some items' =>
        obtain ⟨first, others, rfl⟩ := exists_cons_of_rereadItems? hmore
        cases Token.Scan.run .idle rest <;> simp [tokensOfItems_cons_cons]

theorem run_print_members {members : List (List Piece × Json)} (h : LegibleMembers members)
    {rest : Bytes} (hrest : Stops rest) :
    Token.Scan.run .idle ((tokensOfMembers members).flatMap Token.print ++ rest) =
      (rereadMembers? members).bind fun members' =>
        (Token.Scan.run .idle rest).map (tokensOfMembers members' ++ ·) := by
  match members with
  | [] =>
    show Token.Scan.run .idle rest = (Token.Scan.run .idle rest).map _
    cases Token.Scan.run .idle rest <;> rfl
  | [(name, value)] =>
    rw [tokensOfMembers, List.flatMap_cons, List.flatMap_cons, List.append_assoc,
      List.append_assoc, Token.run_string h.1, Token.run_mark _ rfl, run_print_tokens h.2.1 hrest,
      rereadMembers?, rereadMembers?]
    cases reread? value with
    | none => rfl
    | some value' => cases Token.Scan.run .idle rest <;> simp [tokensOfMembers]
  | (name, value) :: (following, item) :: more =>
    have hstops : Stops (Token.comma.print ++
        ((tokensOfMembers ((following, item) :: more)).flatMap Token.print ++ rest)) :=
      stops_of_mark (.inl rfl) _
    have hreread : rereadMembers? ((name, value) :: (following, item) :: more) =
        (reread? value).bind fun value =>
          (rereadMembers? ((following, item) :: more)).map ((name, value) :: ·) := rfl
    rw [tokensOfMembers_cons_cons, List.flatMap_cons, List.flatMap_cons, List.flatMap_append,
      List.flatMap_cons, List.append_assoc, List.append_assoc, List.append_assoc,
      List.append_assoc, Token.run_string h.1, Token.run_mark _ rfl,
      run_print_tokens h.2.1 hstops, Token.run_mark _ rfl, run_print_members h.2.2 hrest, hreread]
    cases reread? value with
    | none => rfl
    | some value' =>
      cases hmore : rereadMembers? ((following, item) :: more) with
      | none => rfl
      | some members' =>
        obtain ⟨first, others, rfl⟩ := exists_cons_of_rereadMembers? hmore
        cases Token.Scan.run .idle rest <;> simp [tokensOfMembers_cons_cons]

end

/-! ## Putting tokens together -/

namespace Reading

variable {around : List Open} {rest : List Token}

theorem run_cons (reading : Reading) (t : Token) (rest : List Token) :
    run reading (t :: rest) = (reading.step t).bind (run · rest) := by
  cases reading <;> (rw [run]; split <;> simp_all)

/-- An array may have a value wherever it may have an item. -/
theorem run_itemOrClose {items : List Json} (h : items ≠ []) (done : List Json) :
    run (.within .itemOrClose (.array done :: around)) (tokensOfItems items ++ rest) =
      run (.within .value (.array done :: around)) (tokensOfItems items ++ rest) := by
  have hfirst : ∃ item : Json, ∃ tail, tokensOfItems items = tokens item ++ tail := by
    match items with
    | [item] => exact ⟨item, [], (List.append_nil _).symm⟩
    | item :: next :: others => exact ⟨item, _, tokensOfItems_cons_cons item next others⟩
  obtain ⟨item, tail, hfirst⟩ := hfirst
  rw [hfirst, List.append_assoc]
  cases item <;> rw [tokens, List.cons_append, run_cons, run_cons] <;> rfl

/-- An object may have a name wherever it may have a member. -/
theorem run_nameOrClose {members : List (List Piece × Json)} (h : members ≠ [])
    (done : List (List Piece × Json)) :
    run (.within .nameOrClose (.object done :: around)) (tokensOfMembers members ++ rest) =
      run (.within .name (.object done :: around)) (tokensOfMembers members ++ rest) := by
  have hfirst : ∃ name tail, tokensOfMembers members = .string name :: tail := by
    match members with
    | [(name, value)] => exact ⟨name, _, rfl⟩
    | (name, value) :: next :: others => exact ⟨name, _, rfl⟩
  obtain ⟨name, tail, hfirst⟩ := hfirst
  rw [hfirst, List.cons_append, run_cons, run_cons]
  rfl

mutual

/-- The tokens of a value are put together to the value. -/
theorem run_tokens (j : Json) (around : List Open) (rest : List Token) :
    run (.within .value around) (j.tokens ++ rest) = (complete j around).bind (run · rest) := by
  match j with
  | .null => exact run_cons ..
  | .bool b => exact run_cons ..
  | .number n => exact run_cons ..
  | .string pieces => exact run_cons ..
  | .array items =>
    rw [tokens, List.cons_append, run_cons, List.append_assoc, List.singleton_append]
    show run (.within .itemOrClose (.array [] :: around)) _ = _
    by_cases h : items = []
    · subst h
      exact run_cons ..
    · rw [run_itemOrClose h, run_tokensOfItems items h [] around rest]
      rfl
  | .object members =>
    rw [tokens, List.cons_append, run_cons, List.append_assoc, List.singleton_append]
    show run (.within .nameOrClose (.object [] :: around)) _ = _
    by_cases h : members = []
    · subst h
      exact run_cons ..
    · rw [run_nameOrClose h, run_tokensOfMembers members h [] around rest]
      rfl

theorem run_tokensOfItems (items : List Json) (h : items ≠ []) (done : List Json)
    (around : List Open) (rest : List Token) :
    run (.within .value (.array done :: around)) (tokensOfItems items ++ .closeArray :: rest) =
      (complete (.array (done.reverse ++ items)) around).bind (run · rest) := by
  match items with
  | [] => exact absurd rfl h
  | [item] =>
    rw [tokensOfItems, run_tokens item]
    show run (.within .commaOrClose (.array (item :: done) :: around)) _ = _
    rw [run_cons]
    show (complete (.array (item :: done).reverse) around).bind _ = _
    rw [List.reverse_cons]
  | item :: next :: others =>
    rw [tokensOfItems_cons_cons, List.append_assoc, List.cons_append, run_tokens item]
    show run (.within .commaOrClose (.array (item :: done) :: around)) _ = _
    rw [run_cons]
    show run (.within .value (.array (item :: done) :: around)) _ = _
    rw [run_tokensOfItems (next :: others) (List.cons_ne_nil _ _) (item :: done) around rest,
      List.reverse_cons, List.append_assoc, List.singleton_append]

theorem run_tokensOfMembers (members : List (List Piece × Json)) (h : members ≠ [])
    (done : List (List Piece × Json)) (around : List Open) (rest : List Token) :
    run (.within .name (.object done :: around))
        (tokensOfMembers members ++ .closeObject :: rest) =
      (complete (.object (done.reverse ++ members)) around).bind (run · rest) := by
  match members with
  | [] => exact absurd rfl h
  | [(name, value)] =>
    rw [tokensOfMembers, List.cons_append, List.cons_append, run_cons]
    show run (.within .colon (.member done name :: around)) _ = _
    rw [run_cons]
    show run (.within .value (.member done name :: around)) _ = _
    rw [run_tokens value]
    show run (.within .commaOrClose (.object ((name, value) :: done) :: around)) _ = _
    rw [run_cons]
    show (complete (.object ((name, value) :: done).reverse) around).bind _ = _
    rw [List.reverse_cons]
  | (name, value) :: next :: others =>
    rw [tokensOfMembers_cons_cons, List.cons_append, List.cons_append, List.append_assoc,
      List.cons_append, run_cons]
    show run (.within .colon (.member done name :: around)) _ = _
    rw [run_cons]
    show run (.within .value (.member done name :: around)) _ = _
    rw [run_tokens value]
    show run (.within .commaOrClose (.object ((name, value) :: done) :: around)) _ = _
    rw [run_cons]
    show run (.within .name (.object ((name, value) :: done) :: around)) _ = _
    rw [run_tokensOfMembers (next :: others) (List.cons_ne_nil _ _) ((name, value) :: done) around
      rest, List.reverse_cons, List.append_assoc, List.singleton_append]

end

end Reading

theorem ofTokens?_tokens (j : Json) : ofTokens? j.tokens = some j := by
  have h := Reading.run_tokens j [] []
  rw [List.append_nil] at h
  exact h

/-- The text of a value reads as the value, but for its numbers. -/
theorem parse?_print {j : Json} (h : j.Legible) : parse? j.print = j.reread? := by
  have hstops : Stops [] := nofun
  have hscan := run_print_tokens h hstops
  rw [List.append_nil] at hscan
  rw [parse?, Token.scan?, print, hscan]
  cases reread? j with
  | none => rfl
  | some value =>
    show ofTokens? (value.tokens ++ []) = some value
    rw [List.append_nil, ofTokens?_tokens]

end Collective.Json
