import Collective.Json.Token
import Mathlib.Logic.Basic

/-!
# Scanning what tokens write

The written form of a token is scanned as the token, a number as the one that its own text reads
back as, and then comes what follows. Words and numbers end only where something else begins, so
what follows must not go on with them.
-/

namespace Collective.Json

/-- A piece is written so that it reads as itself: control characters without a letter are not. -/
def Piece.Legible : Piece → Prop
  | .byte b => 0x20 ≤ b ∨ letter? b ≠ none
  | .unit _ => True

theorem Piece.legible_ofByte (b : UInt8) : (ofByte b).Legible := by
  rw [ofByte]
  split
  · trivial
  · next h =>
    by_cases hlow : b < 0x20
    · exact .inr fun hnone => h ⟨hlow, hnone⟩
    · exact .inl (UInt8.not_lt.1 hlow)

namespace Token

/-- The token is one byte that separates others. -/
def isMark : Token → Bool
  | .openArray => true
  | .closeArray => true
  | .openObject => true
  | .closeObject => true
  | .colon => true
  | .comma => true
  | _ => false

/-- No word and no number goes on with these bytes. -/
def Stops (rest : Bytes) : Prop :=
  ∀ b ∈ rest.head?, isLetter b = false ∧ isNumeral b = false

namespace Scan

variable {rest : Bytes}

theorem run_cons_of_step {scan next : Scan} {b : UInt8} {tokens : List Token}
    (h : scan.step b = some (next, tokens)) (rest : Bytes) :
    scan.run (b :: rest) = (next.run rest).map (tokens ++ ·) := by
  simp only [run, h, Option.bind_eq_bind, Option.bind_some]
  cases next.run rest <;> rfl

/-- A step that completes no token. -/
theorem run_cons_of_step_nil {scan next : Scan} {b : UInt8} (h : scan.step b = some (next, []))
    (rest : Bytes) : scan.run (b :: rest) = next.run rest := by
  rw [run_cons_of_step h]
  cases next.run rest <;> rfl

/-- Behind a token whose end is seen by the next byte, scanning starts anew. -/
theorem run_of_finishThen {scan : Scan} {token : Option Token}
    (hfinish : scan.finish = token.map ([·]))
    (hstep : ∀ b ∈ rest.head?, scan.step b = finishThen token b) :
    scan.run rest = token.bind fun t => (run .idle rest).map (t :: ·) := by
  cases rest with
  | nil =>
    rw [run, hfinish]
    cases token <;> rfl
  | cons b rest =>
    rw [run, hstep b rfl, finishThen]
    cases token with
    | none => rfl
    | some t =>
      show ((start b).bind fun p => some (p.1, t :: p.2)).bind _ =
        ((start b).bind _).map (t :: ·)
      cases start b with
      | none => rfl
      | some p =>
        obtain ⟨next, tokens⟩ := p
        dsimp only [Option.bind_some]
        cases next.run rest <;> rfl

/-! ## Words and numbers -/

theorem run_word_append {letters word : Bytes} (hword : ∀ b ∈ word, isLetter b = true) :
    run (.word letters) (word ++ rest) = run (.word (word.reverse ++ letters)) rest := by
  induction word generalizing letters with
  | nil => rfl
  | cons b word ih =>
    have hstep : (Scan.word letters).step b = some (.word (b :: letters), []) :=
      if_pos (hword b List.mem_cons_self)
    rw [List.cons_append, run_cons_of_step_nil hstep,
      ih fun c hc => hword c (List.mem_cons_of_mem _ hc), List.reverse_cons, List.append_assoc,
      List.singleton_append]

theorem run_word (letters : Bytes) (h : Stops rest) :
    run (.word letters) rest =
      (ofWord? letters.reverse).bind fun t => (run .idle rest).map (t :: ·) := by
  apply run_of_finishThen rfl
  intro b hb
  exact if_neg (by rw [(h b hb).1]; exact Bool.false_ne_true)

theorem run_numeral_append {bytes more : Bytes} (hmore : ∀ b ∈ more, isNumeral b = true) :
    run (.numeral bytes) (more ++ rest) = run (.numeral (more.reverse ++ bytes)) rest := by
  induction more generalizing bytes with
  | nil => rfl
  | cons b more ih =>
    have hstep : (Scan.numeral bytes).step b = some (.numeral (b :: bytes), []) :=
      if_pos (hmore b List.mem_cons_self)
    rw [List.cons_append, run_cons_of_step_nil hstep,
      ih fun c hc => hmore c (List.mem_cons_of_mem _ hc), List.reverse_cons, List.append_assoc,
      List.singleton_append]

theorem run_numeral (bytes : Bytes) (h : Stops rest) :
    run (.numeral bytes) rest =
      ((Number.parse? bytes.reverse).map .number).bind fun t =>
        (run .idle rest).map (t :: ·) := by
  apply run_of_finishThen
  · rw [finish, Option.map_map]
    rfl
  · intro b hb
    exact if_neg (by rw [(h b hb).2]; exact Bool.false_ne_true)

/-- No word starts with an `e`. -/
theorem ofWord?_of_e {letters : Bytes} (h : letters.getLast? = some 101) :
    ofWord? letters.reverse = none := by
  have hnull : print .null = [110, 117, 108, 108] := by decide +kernel
  have htrue : print (.bool true) = [116, 114, 117, 101] := by decide +kernel
  have hfalse : print (.bool false) = [102, 97, 108, 115, 101] := by decide +kernel
  obtain ⟨front, rfl⟩ := List.getLast?_eq_some_iff.1 h
  rw [List.reverse_append, ofWord?, hnull, htrue, hfalse]
  simp

theorem run_word_of_e (bytes : Bytes) {letters : Bytes} (h : letters.getLast? = some 101) :
    run (.word letters) bytes = none := by
  induction bytes generalizing letters with
  | nil =>
    rw [run, finish, ofWord?_of_e h]
    rfl
  | cons b bytes ih =>
    by_cases hb : isLetter b = true
    · have hstep : (Scan.word letters).step b = some (.word (b :: letters), []) := if_pos hb
      rw [run_cons_of_step_nil hstep]
      apply ih
      rw [List.getLast?_cons, h]
      rfl
    · have hstep : (Scan.word letters).step b = none := by
        rw [step, if_neg hb, ofWord?_of_e h]
        rfl
      rw [run, hstep]
      rfl

/-! ## Strings -/

theorem hexValue?_hexDigit {n : Nat} (h : n < 16) : hexValue? (hexDigit n) = some n := by
  have hall : ∀ n : Fin 16, hexValue? (hexDigit n.val) = some n.val := by decide
  exact hall ⟨n, h⟩

theorem step_code {done : List Piece} {value n : Nat} (missing : Nat) (h : n < 16) :
    (Scan.code done (missing + 1) value).step (hexDigit n) =
      some (.code done missing (value * 16 + n), []) := by
  rw [step, hexValue?_hexDigit h]
  rfl

/-- The letter behind a backslash stands for the control character that it was written for. -/
theorem escaped?_of_letter? {b letter : UInt8} (h : Piece.letter? b = some letter) :
    letter ≠ 117 ∧ escaped? letter = some (.byte b) := by
  have hletters : (b = 8 ∧ letter = 98) ∨ (b = 9 ∧ letter = 116) ∨ (b = 10 ∧ letter = 110) ∨
      (b = 12 ∧ letter = 102) ∨ (b = 13 ∧ letter = 114) := by
    unfold Piece.letter? at h
    repeat
      split at h
      · simp_all
    cases h
  rcases hletters with ⟨rfl, rfl⟩ | ⟨rfl, rfl⟩ | ⟨rfl, rfl⟩ | ⟨rfl, rfl⟩ | ⟨rfl, rfl⟩ <;>
    exact ⟨by decide, rfl⟩

theorem run_text_escaped {letter : UInt8} {piece : Piece} (hunit : letter ≠ 117)
    (hpiece : escaped? letter = some piece) (done : List Piece) (rest : Bytes) :
    run (.text done) (92 :: letter :: rest) = run (.text (piece :: done)) rest := by
  have hescape : (Scan.text done).step 92 = some (.escape done, []) := rfl
  have hletter : (Scan.escape done).step letter = some (.text (piece :: done), []) := by
    rw [step, if_neg hunit, hpiece]
    rfl
  rw [run_cons_of_step_nil hescape, run_cons_of_step_nil hletter]

/-- A legible piece is scanned as itself. -/
theorem run_text_piece {piece : Piece} (h : piece.Legible) (done : List Piece) (rest : Bytes) :
    run (.text done) (printPiece piece ++ rest) = run (.text (piece :: done)) rest := by
  cases piece with
  | byte b =>
    rw [printPiece]
    by_cases hquote : b = 34
    · subst hquote
      exact run_text_escaped (by decide) rfl done rest
    · by_cases hslash : b = 92
      · subst hslash
        exact run_text_escaped (by decide) rfl done rest
      · rw [if_neg hquote, if_neg hslash]
        cases hletter : Piece.letter? b with
        | some letter =>
          obtain ⟨hunit, hpiece⟩ := escaped?_of_letter? hletter
          exact run_text_escaped hunit hpiece done rest
        | none =>
          have hlow : ¬ b < 0x20 := UInt8.not_lt.2 (h.resolve_right (by simp [hletter]))
          apply run_cons_of_step_nil
          rw [step, if_neg hquote, if_neg hslash, if_neg hlow]
  | unit u =>
    have hu := u.toNat_lt
    have hescape : (Scan.text done).step 92 = some (.escape done, []) := rfl
    have hcode : (Scan.escape done).step 117 = some (.code done 3 0, []) := rfl
    have hlast : ∀ value, value * 16 + u.toNat % 16 = u.toNat →
        (Scan.code done 0 value).step (hexDigit (u.toNat % 16)) =
          some (.text (.unit u :: done), []) := by
      intro value hvalue
      rw [step, hexValue?_hexDigit (by omega)]
      dsimp only [Option.map_some]
      rw [hvalue, UInt16.ofNat_toNat]
    show run (.text done) (92 :: 117 :: hexDigit (u.toNat / 4096) ::
      hexDigit (u.toNat / 256 % 16) :: hexDigit (u.toNat / 16 % 16) ::
        hexDigit (u.toNat % 16) :: rest) = _
    rw [run_cons_of_step_nil hescape, run_cons_of_step_nil hcode,
      run_cons_of_step_nil (step_code 2 (by omega)), run_cons_of_step_nil (step_code 1 (by omega)),
      run_cons_of_step_nil (step_code 0 (by omega)), run_cons_of_step_nil (hlast _ (by omega))]

theorem run_text {pieces : List Piece} (h : ∀ piece ∈ pieces, piece.Legible)
    (done : List Piece) (rest : Bytes) :
    run (.text done) (pieces.flatMap printPiece ++ 34 :: rest) =
      (run .idle rest).map (.string (done.reverse ++ pieces) :: ·) := by
  induction pieces generalizing done with
  | nil =>
    have hclose : (Scan.text done).step 34 = some (.idle, [.string done.reverse]) := rfl
    rw [List.flatMap_nil, List.nil_append, run_cons_of_step hclose, List.append_nil]
    rfl
  | cons piece pieces ih =>
    rw [List.flatMap_cons, List.append_assoc, run_text_piece (h piece List.mem_cons_self),
      ih (fun other hother => h other (List.mem_cons_of_mem _ hother)), List.reverse_cons,
      List.append_assoc, List.singleton_append]

end Scan

/-! ## Tokens -/

theorem isNumeral_digitByte (d : Fin 10) : isNumeral (Number.digitByte d) = true := by
  revert d
  decide

/-- All bytes of a number may stand in one. -/
theorem isNumeral_of_mem_print {n : Number} {b : UInt8} (h : b ∈ n.print) :
    isNumeral b = true := by
  have hdigits : ∀ ds : List (Fin 10), ∀ b ∈ ds.map Number.digitByte, isNumeral b = true := by
    intro ds b hb
    obtain ⟨d, -, rfl⟩ := List.mem_map.1 hb
    exact isNumeral_digitByte d
  obtain ⟨negative, whole, fraction, exponent⟩ := n
  simp only [Number.print, List.mem_append] at h
  rcases h with ((hsign | hwhole) | hfraction) | hexponent
  · split at hsign
    · obtain rfl := List.mem_singleton.1 hsign
      rfl
    · cases hsign
  · exact hdigits _ b hwhole
  · cases fraction with
    | none => cases hfraction
    | some ds =>
      rcases List.mem_cons.1 hfraction with rfl | hdigit
      · rfl
      · exact hdigits _ b hdigit
  · cases exponent with
    | none => cases hexponent
    | some e =>
      obtain ⟨capital, sign, digits⟩ := e
      rcases List.mem_cons.1 hexponent with rfl | hrest
      · cases capital <;> rfl
      · rcases List.mem_append.1 hrest with hsign | hdigit
        · cases sign with
          | none => cases hsign
          | some minus => cases minus <;> (obtain rfl := List.mem_singleton.1 hsign; rfl)
        · exact hdigits _ b hdigit

/-- A byte that may stand in a number is a letter only as the mark of an exponent. -/
theorem eq_e_of_isNumeral {b : UInt8} (hnumeral : isNumeral b = true)
    (hletter : isLetter b = true) : b = 101 := by
  simp [isNumeral, isLetter, UInt8.le_iff_toNat_le, ← UInt8.toNat_inj] at *
  omega

theorem not_space_of_isNumeral {b : UInt8} (h : isNumeral b = true) :
    ¬ isSpace b = true ∧ b ≠ 34 := by
  simp [isNumeral, isSpace, UInt8.le_iff_toNat_le, ← UInt8.toNat_inj] at *
  omega

theorem not_space_of_isLetter {b : UInt8} (h : isLetter b = true) :
    ¬ isSpace b = true ∧ b ≠ 34 := by
  simp [isLetter, isSpace, UInt8.le_iff_toNat_le, ← UInt8.toNat_inj] at *
  omega

/-- The text of a number is scanned as the number that it reads back as. -/
theorem run_number {n : Number} (hn : n.print ≠ []) {rest : Bytes} (hrest : Stops rest) :
    Scan.run .idle (print (.number n) ++ rest) =
      (Number.parse? n.print).bind fun n' => (Scan.run .idle rest).map (.number n' :: ·) := by
  obtain ⟨b, bytes, hprint⟩ := List.exists_cons_of_ne_nil hn
  have hnumerals : ∀ c ∈ b :: bytes, isNumeral c = true := by
    intro c hc
    rw [← hprint] at hc
    exact isNumeral_of_mem_print hc
  have hb := hnumerals b List.mem_cons_self
  obtain ⟨hspace, hquote⟩ := not_space_of_isNumeral hb
  rw [print, hprint, List.cons_append]
  by_cases hletter : isLetter b = true
  · -- a text that starts with the mark of its exponent is no number, and no word either
    obtain rfl := eq_e_of_isNumeral hb hletter
    have hstep : Scan.step .idle 101 = some (.word [101], []) := rfl
    rw [Scan.run_cons_of_step_nil hstep, Scan.run_word_of_e _ rfl]
    rfl
  · have hstep : Scan.step .idle b = some (.numeral [b], []) := by
      rw [Scan.step, Scan.start, if_neg hspace, if_neg hquote, if_neg hletter, if_pos hb]
    rw [Scan.run_cons_of_step_nil hstep,
      Scan.run_numeral_append fun c hc => hnumerals c (List.mem_cons_of_mem _ hc),
      Scan.run_numeral _ hrest, List.reverse_append, List.reverse_reverse]
    show ((Number.parse? (b :: bytes)).map Token.number).bind _ = _
    cases Number.parse? (b :: bytes) <;> rfl

/-- The text of a word is scanned as the word. -/
theorem run_word_token {t : Token} {b : UInt8} {word : Bytes} (hprint : t.print = b :: word)
    (hletters : (b :: word).all isLetter = true) (hword : ofWord? (b :: word) = some t)
    {rest : Bytes} (hrest : Stops rest) :
    Scan.run .idle (t.print ++ rest) = (Scan.run .idle rest).map (t :: ·) := by
  have hletters : ∀ c ∈ b :: word, isLetter c = true := List.all_eq_true.1 hletters
  have hb := hletters b List.mem_cons_self
  obtain ⟨hspace, hquote⟩ := not_space_of_isLetter hb
  have hstep : Scan.step .idle b = some (.word [b], []) := by
    rw [Scan.step, Scan.start, if_neg hspace, if_neg hquote, if_pos hb]
  rw [hprint, List.cons_append, Scan.run_cons_of_step_nil hstep,
    Scan.run_word_append fun c hc => hletters c (List.mem_cons_of_mem _ hc),
    Scan.run_word _ hrest, List.reverse_append, List.reverse_reverse]
  show (ofWord? (b :: word)).bind _ = _
  rw [hword]
  rfl

theorem run_null {rest : Bytes} (hrest : Stops rest) :
    Scan.run .idle (print .null ++ rest) = (Scan.run .idle rest).map (.null :: ·) := by
  have hprint : print .null = [110, 117, 108, 108] := by decide +kernel
  exact run_word_token hprint rfl (by decide +kernel) hrest

theorem run_bool (b : Bool) {rest : Bytes} (hrest : Stops rest) :
    Scan.run .idle (print (.bool b) ++ rest) = (Scan.run .idle rest).map (.bool b :: ·) := by
  cases b with
  | true =>
    have hprint : print (.bool true) = [116, 114, 117, 101] := by decide +kernel
    exact run_word_token hprint rfl (by decide +kernel) hrest
  | false =>
    have hprint : print (.bool false) = [102, 97, 108, 115, 101] := by decide +kernel
    exact run_word_token hprint rfl (by decide +kernel) hrest

/-- The text of a string is scanned as the string. -/
theorem run_string {pieces : List Piece} (h : ∀ piece ∈ pieces, piece.Legible) (rest : Bytes) :
    Scan.run .idle (print (.string pieces) ++ rest) =
      (Scan.run .idle rest).map (.string pieces :: ·) := by
  have hopen : Scan.step .idle 34 = some (.text [], []) := rfl
  show Scan.run .idle (34 :: (pieces.flatMap printPiece ++ [34] ++ rest)) = _
  rw [Scan.run_cons_of_step_nil hopen, List.append_assoc, List.singleton_append, Scan.run_text h]
  rfl

/-- A mark is scanned as a token at once. -/
theorem run_mark (t : Token) (h : t.isMark = true) (rest : Bytes) :
    Scan.run .idle (t.print ++ rest) = (Scan.run .idle rest).map (t :: ·) := by
  have hmark : ∃ b, t.print = [b] ∧ Scan.step .idle b = some (.idle, [t]) := by
    cases t <;> first | exact ⟨_, rfl, rfl⟩ | cases h
  obtain ⟨b, hprint, hstep⟩ := hmark
  rw [hprint, List.singleton_append, Scan.run_cons_of_step hstep]
  rfl

end Token

end Collective.Json
