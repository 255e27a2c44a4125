import Collective.Proofs.Answer
import Collective.Proofs.Json.Number
import Collective.Proofs.Json.Reading
import Collective.Proofs.Text.Utf8

/-!
# Values that read as themselves

A text is written as a string with the escapes that it needs, and the string is the text's again. So
a value made of texts and integers comes back from its own text as it was, and only numbers that no
integer is written as could come back different.
-/

namespace Collective.Json

/-! ## Texts -/

namespace Piece

/-- A unit that is no half of a surrogate pair is a character by itself. -/
theorem bytes?_unit {u : UInt16} (hhigh : isHigh u = false) (hlow : isLow u = false)
    (rest : List Piece) :
    bytes? (.unit u :: rest) =
      (bytes? rest).map (String.utf8EncodeChar (Char.ofNat u.toNat) ++ ·) := by
  match rest with
  | [] => simp [bytes?, hhigh, hlow]
  | .byte b :: rest => simp [bytes?, hhigh, hlow]
  | .unit v :: rest => simp [bytes?, hhigh, hlow]

/-- The piece that writes a byte stands for the byte. -/
theorem bytes?_ofByte (b : UInt8) (rest : List Piece) :
    bytes? (ofByte b :: rest) = (bytes? rest).map (b :: ·) := by
  rw [ofByte]
  split
  · next hcontrol =>
    have hall : ∀ n : Fin 32, isHigh (UInt8.ofNat n.val).toUInt16 = false ∧
        isLow (UInt8.ofNat n.val).toUInt16 = false ∧
        String.utf8EncodeChar (Char.ofNat (UInt8.ofNat n.val).toUInt16.toNat) =
          [UInt8.ofNat n.val] := by decide
    have hb := hall ⟨b.toNat, UInt8.lt_iff_toNat_lt.1 hcontrol.1⟩
    rw [UInt8.ofNat_toNat] at hb
    obtain ⟨hhigh, hlow, hchar⟩ := hb
    rw [bytes?_unit hhigh hlow, hchar]
    rfl
  · rfl

/-- The pieces of a text stand for it. -/
theorem text?_ofText (text : String) : text? (ofText text) = some text := by
  have hbytes : ∀ bytes : Bytes, bytes? (bytes.map ofByte) = some bytes := by
    intro bytes
    induction bytes with
    | nil => rfl
    | cons b rest ih => rw [List.map_cons, bytes?_ofByte, ih, Option.map_some]
  rw [text?, ofText, hbytes]
  exact Utf8.decode?_encode text

/-- Pieces with which a text may be written. -/
structure Spells (pieces : List Piece) (text : String) : Prop where
  legible : ∀ piece ∈ pieces, piece.Legible
  text?_eq : text? pieces = some text

theorem spells_ofText (text : String) : Spells (ofText text) text where
  legible := by
    intro piece hpiece
    obtain ⟨b, -, rfl⟩ := List.mem_map.1 hpiece
    exact legible_ofByte b
  text?_eq := text?_ofText text

/-! ## Pieces in print -/

/-- What pieces begin with if they stand for bytes: a byte, or units that stand for a character. -/
inductive Starts : List Piece → Bytes → Prop where
  | nil : Starts [] []
  | byte {b : UInt8} {others : List Piece} {more : Bytes} : bytes? others = some more →
      Starts (.byte b :: others) (b :: more)
  | units (units : List UInt16) {c : Char} {others : List Piece} {more : Bytes} : units ≠ [] →
      bytes? others = some more →
      Starts (units.map .unit ++ others) (String.utf8EncodeChar c ++ more)

theorem starts_of_bytes? {pieces : List Piece} {bytes : Bytes} (h : bytes? pieces = some bytes) :
    Starts pieces bytes := by
  fun_cases bytes? pieces with
  | case1 =>
    obtain rfl := Option.some.inj h
    exact .nil
  | case2 b rest =>
    obtain ⟨more, hmore, rfl⟩ := Option.map_eq_some_iff.1 h
    exact .byte hmore
  | case3 u v rest hhigh hlow code =>
    rw [bytes?, if_pos hhigh, if_pos hlow] at h
    obtain ⟨more, hmore, rfl⟩ := Option.map_eq_some_iff.1 h
    exact .units [u, v] (List.cons_ne_nil _ _) hmore
  | case4 u v rest hhigh hlow =>
    rw [bytes?, if_pos hhigh, if_neg hlow] at h
    cases h
  | case5 u v rest hhigh hlow =>
    rw [bytes?, if_neg hhigh, if_pos hlow] at h
    cases h
  | case6 u v rest hhigh hlow =>
    rw [bytes?, if_neg hhigh, if_neg hlow] at h
    obtain ⟨more, hmore, rfl⟩ := Option.map_eq_some_iff.1 h
    exact .units [u] (List.cons_ne_nil _ _) hmore
  | case7 u rest hrest hhalf =>
    rw [bytes?, if_pos hhalf] at h
    · cases h
    · exact hrest
  | case8 u rest hrest hhalf =>
    rw [bytes?, if_neg hhalf] at h
    · obtain ⟨more, hmore, rfl⟩ := Option.map_eq_some_iff.1 h
      exact .units [u] (List.cons_ne_nil _ _) hmore
    · exact hrest

/-- Bytes that follow the first one of a character stand as they are. -/
theorem exists_of_bytes?_tails {tails rest : Bytes} (htails : ∀ t ∈ tails, Utf8.IsTail t)
    {pieces : List Piece} (h : bytes? pieces = some (tails ++ rest)) :
    ∃ others, pieces = tails.map .byte ++ others ∧ bytes? others = some rest := by
  induction tails generalizing pieces with
  | nil => exact ⟨pieces, rfl, h⟩
  | cons t tails ih =>
    obtain ⟨ht, htails⟩ := List.forall_mem_cons.1 htails
    generalize hbytes : t :: tails ++ rest = bytes at h
    cases starts_of_bytes? h with
    | nil => cases hbytes
    | byte hmore =>
      obtain ⟨rfl, rfl⟩ := List.cons.inj hbytes
      obtain ⟨others, rfl, hothers⟩ := ih htails hmore
      exact ⟨others, rfl, hothers⟩
    | @units us c others more hne hmore =>
      have hcharacter := Utf8.isCharacter_encodeChar c
      cases hc : String.utf8EncodeChar c with
      | nil =>
        rw [hc] at hcharacter
        cases hcharacter
      | cons first later =>
        rw [hc] at hcharacter hbytes
        obtain ⟨rfl, -⟩ := List.cons.inj hbytes
        exact absurd ht hcharacter.isTail_iff.1

open Token (printPiece hexDigit)

theorem hexDigit_lt {n : Nat} (h : n < 16) : hexDigit n < 0x80 := by
  rw [hexDigit]
  split <;> simp [UInt8.lt_iff_toNat_lt] <;> omega

/-- A unit is written in seven bits. -/
theorem printPiece_unit_lt {u : UInt16} {b : UInt8} (h : b ∈ printPiece (.unit u)) : b < 0x80 := by
  have hu := u.toNat_lt
  have hdigits : ∀ n < 16, hexDigit n < 0x80 := fun n => hexDigit_lt
  simp only [printPiece, List.mem_cons, List.not_mem_nil, or_false] at h
  rcases h with rfl | rfl | rfl | rfl | rfl | rfl
  · decide
  · decide
  all_goals exact hdigits _ (by omega)

/-- A byte of seven bits is written in such bytes. -/
theorem printPiece_byte_lt {a b : UInt8} (ha : a < 0x80) (h : b ∈ printPiece (.byte a)) :
    b < 0x80 := by
  grind [printPiece, letter?]

/-- Other bytes are written as they are. -/
theorem printPiece_byte_of_le {b : UInt8} (h : 0x80 ≤ b) : printPiece (.byte b) = [b] := by
  grind [printPiece, letter?]

theorem flatMap_printPiece_map_byte {bytes : Bytes} (h : ∀ b ∈ bytes, 0x80 ≤ b) :
    (bytes.map Piece.byte).flatMap printPiece = bytes := by
  induction bytes with
  | nil => rfl
  | cons b rest ih =>
    obtain ⟨hb, hrest⟩ := List.forall_mem_cons.1 h
    rw [List.map_cons, List.flatMap_cons, printPiece_byte_of_le hb, ih hrest, List.singleton_append]

open Utf8 (WellFormed IsCharacter) in
/-- The pieces of a text are written as a text. -/
theorem wellFormed_printPiece {pieces : List Piece} {bytes : Bytes} {index : Nat} {cs : List Char}
    (h : bytes? pieces = some bytes) (hread : Utf8.decodeFrom index none bytes = .ok cs) :
    WellFormed (pieces.flatMap printPiece) := by
  induction hlength : pieces.length using Nat.strongRecOn generalizing pieces bytes index cs with
  | ind length ih =>
    cases starts_of_bytes? h with
    | nil => exact .nil
    | @byte b others more hmore =>
      rw [List.flatMap_cons]
      by_cases hsmall : b < 0x80
      · rw [Utf8.decodeFrom, if_pos hsmall] at hread
        obtain ⟨_, hread⟩ := Utf8.exists_of_map_cons hread
        exact (Utf8.wellFormed_of_ascii fun _ => printPiece_byte_lt hsmall).append
          (ih _ (hlength ▸ Nat.lt_succ_self _) hmore hread rfl)
      · obtain ⟨character, rest, hbytes, hcharacter, _, _, hlater⟩ :=
          Utf8.exists_character_of_decodeFrom (List.cons_ne_nil b more) hread
        obtain ⟨tails, rfl⟩ : ∃ tails, character = b :: tails := by
          cases hcharacter <;> exact ⟨_, by rw [(List.cons.inj hbytes).1]⟩
        obtain rfl := (List.cons.inj hbytes).2
        have htails := hcharacter.isTail_iff.2
        obtain ⟨others, rfl, hothers⟩ := exists_of_bytes?_tails htails hmore
        rw [printPiece_byte_of_le (UInt8.not_lt.1 hsmall), List.flatMap_append,
          flatMap_printPiece_map_byte fun t ht => (htails t ht).1, ← List.append_assoc]
        refine hcharacter.wellFormed.append (ih others.length ?_ hothers hlater rfl)
        rw [← hlength, List.length_cons, List.length_append]
        omega
    | @units us c others more hne hmore =>
      rw [Utf8.decodeFrom_encodeChar] at hread
      obtain ⟨_, hread⟩ := Utf8.exists_of_map_cons hread
      have hpos := List.length_pos_of_ne_nil hne
      rw [List.flatMap_append]
      refine WellFormed.append (Utf8.wellFormed_of_ascii ?_) (ih others.length ?_ hmore hread rfl)
      · intro b hb
        obtain ⟨piece, hpiece, hb⟩ := List.mem_flatMap.1 hb
        obtain ⟨u, -, rfl⟩ := List.mem_map.1 hpiece
        exact printPiece_unit_lt hb
      · rw [← hlength, List.length_append, List.length_map]
        omega

end Piece

theorem string?_ofString (text : String) : (ofString text).string? = some text :=
  Piece.text?_ofText text

theorem legible_ofString (text : String) : (ofString text).Legible :=
  (Piece.spells_ofText text).legible

/-! ## Integers -/

theorem Number.print_ne_nil_of_whole {n : Number} (h : n.whole ≠ []) : n.print ≠ [] := by
  intro hprint
  simp only [print, List.append_eq_nil_iff, List.map_eq_nil_iff] at hprint
  exact h hprint.1.1.2

theorem legible_ofInt (i : Int) : (ofInt i).Legible :=
  Number.print_ne_nil_of_whole (Number.digitsOfNat_ne_nil i.natAbs)

theorem reread?_ofInt (i : Int) : (ofInt i).reread? = some (ofInt i) := by
  rw [ofInt, reread?, Number.parse?_print_ofInt]
  rfl

theorem int?_ofInt {low high i : Int} (hlow : low ≤ i) (hhigh : i ≤ high) :
    (ofInt i).int? low high = some i := by
  rw [ofInt, int?, Number.toInt?_ofInt]
  simp [hlow, hhigh]

theorem nat?_ofInt {bound n : Nat} (h : n < bound) : (ofInt n).nat? bound = some n := by
  rw [nat?, int?_ofInt (by omega) (by omega)]
  rfl

theorem word?_ofInt (n : UInt64) : (ofInt n.toNat).word? = some n := by
  rw [word?, nat?_ofInt n.toNat_lt, Option.map_some, UInt64.ofNat_toNat]

/-! ## Values -/

open Utf8 (WellFormed)

/-- A mark is written in seven bits. -/
theorem wellFormed_mark {t : Token} (h : t.isMark = true) : WellFormed t.print := by
  apply Utf8.wellFormed_of_ascii
  cases t <;> simp_all [Token.isMark, Token.print]

/-- The value is written as a text, and the text reads as the value. -/
structure ReadsBack (j : Json) : Prop where
  legible : j.Legible
  reread?_eq : j.reread? = some j
  wellFormed_print : WellFormed j.print

namespace ReadsBack

theorem parse?_print {j : Json} (h : j.ReadsBack) : parse? j.print = some j := by
  rw [Json.parse?_print h.legible, h.reread?_eq]

/-- A word is written in letters. -/
theorem wellFormed_word {j : Json} (h : j.print.all Token.isLetter = true) :
    WellFormed j.print := by
  apply Utf8.wellFormed_of_ascii
  intro b hb
  have hletter := List.all_eq_true.1 h b hb
  grind [Token.isLetter]

theorem null : ReadsBack .null := ⟨trivial, rfl, wellFormed_word (by decide +kernel)⟩

theorem bool (b : Bool) : ReadsBack (.bool b) :=
  ⟨trivial, rfl, wellFormed_word (by cases b <;> decide +kernel)⟩

theorem ofInt (i : Int) : ReadsBack (.ofInt i) where
  legible := legible_ofInt i
  reread?_eq := reread?_ofInt i
  wellFormed_print := by
    rw [Json.ofInt, print, tokens, List.flatMap_singleton]
    apply Utf8.wellFormed_of_ascii
    intro b hb
    have hnumeral := Token.isNumeral_of_mem_print hb
    grind [Token.isNumeral]

theorem wellFormed_string {pieces : List Piece} {text : String} (h : Piece.Spells pieces text) :
    WellFormed (Token.string pieces).print := by
  obtain ⟨bytes, hbytes, hread⟩ := Option.bind_eq_some_iff.1 h.text?_eq
  cases hcs : Utf8.decodeFrom 0 none bytes with
  | error fault =>
    rw [Utf8.decode?, Utf8.decode, hcs] at hread
    cases hread
  | ok cs =>
    have hquote : WellFormed [34] := Utf8.wellFormed_of_ascii (by simp)
    exact hquote.append ((Piece.wellFormed_printPiece hbytes hcs).append hquote)

theorem string {pieces : List Piece} {text : String} (h : Piece.Spells pieces text) :
    ReadsBack (.string pieces) where
  legible := h.legible
  reread?_eq := rfl
  wellFormed_print := by
    rw [print, tokens, List.flatMap_singleton]
    exact wellFormed_string h

theorem ofString (text : String) : ReadsBack (.ofString text) := string (Piece.spells_ofText text)

theorem wellFormed_items {items : List Json} (h : ∀ item ∈ items, ReadsBack item) :
    WellFormed ((tokensOfItems items).flatMap Token.print) := by
  induction items with
  | nil => exact .nil
  | cons item rest ih =>
    obtain ⟨hitem, hrest⟩ := List.forall_mem_cons.1 h
    cases rest with
    | nil => exact hitem.wellFormed_print
    | cons next more =>
      rw [tokensOfItems_cons_cons, List.flatMap_append, List.flatMap_cons]
      exact hitem.wellFormed_print.append ((wellFormed_mark rfl).append (ih hrest))

theorem array {items : List Json} (h : ∀ item ∈ items, ReadsBack item) :
    ReadsBack (.array items) where
  legible := legibleItems_iff.2 fun item hitem => (h item hitem).legible
  reread?_eq := by
    rw [reread?, rereadItems?_eq_mapM, mapM_eq_some fun item hitem => (h item hitem).reread?_eq]
    simp
  wellFormed_print := by
    rw [print, tokens, List.flatMap_cons, List.flatMap_append, List.flatMap_singleton]
    exact (wellFormed_mark rfl).append ((wellFormed_items h).append (wellFormed_mark rfl))

theorem wellFormed_members {members : List (List Piece × Json)}
    (h : ∀ member ∈ members, (∃ name, Piece.Spells member.1 name) ∧ ReadsBack member.2) :
    WellFormed ((tokensOfMembers members).flatMap Token.print) := by
  induction members with
  | nil => exact .nil
  | cons member rest ih =>
    obtain ⟨name, value⟩ := member
    obtain ⟨⟨⟨_, hname⟩, hvalue⟩, hrest⟩ := List.forall_mem_cons.1 h
    cases rest with
    | nil =>
      rw [tokensOfMembers, List.flatMap_cons, List.flatMap_cons]
      exact (wellFormed_string hname).append ((wellFormed_mark rfl).append hvalue.wellFormed_print)
    | cons next more =>
      rw [tokensOfMembers_cons_cons, List.flatMap_cons, List.flatMap_cons, List.flatMap_append,
        List.flatMap_cons]
      have hmore := (wellFormed_mark (t := .comma) rfl).append (ih hrest)
      exact (wellFormed_string hname).append
        ((wellFormed_mark rfl).append (hvalue.wellFormed_print.append hmore))

/-- Members whose values read as themselves do so, too. -/
theorem members {members : List (List Piece × Json)}
    (h : ∀ member ∈ members, (∃ name, Piece.Spells member.1 name) ∧ ReadsBack member.2) :
    LegibleMembers members ∧ rereadMembers? members = some members := by
  induction members with
  | nil => exact ⟨trivial, rfl⟩
  | cons member rest ih =>
    obtain ⟨name, value⟩ := member
    obtain ⟨⟨⟨_, hname⟩, hvalue⟩, hrest⟩ := List.forall_mem_cons.1 h
    obtain ⟨hlegible, hreread⟩ := ih hrest
    refine ⟨⟨hname.legible, hvalue.legible, hlegible⟩, ?_⟩
    rw [rereadMembers?, hvalue.reread?_eq, hreread]
    rfl

theorem object {members : List (List Piece × Json)}
    (h : ∀ member ∈ members, (∃ name, Piece.Spells member.1 name) ∧ ReadsBack member.2) :
    ReadsBack (.object members) where
  legible := (ReadsBack.members h).1
  reread?_eq := by
    rw [reread?, (ReadsBack.members h).2]
    rfl
  wellFormed_print := by
    rw [print, tokens, List.flatMap_cons, List.flatMap_append, List.flatMap_singleton]
    exact (wellFormed_mark rfl).append ((wellFormed_members h).append (wellFormed_mark rfl))

end ReadsBack

end Collective.Json
