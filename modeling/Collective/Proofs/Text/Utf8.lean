import Collective.Text.Utf8
import Mathlib.Data.List.Basic

/-!
# UTF-8 read and written

The bytes of a character are given by the ranges in which they may lie: a first byte promises how
many follow, and the second one is bounded further where the character could have been written with
fewer bytes, would be a surrogate or would lie beyond the last character. The reader accepts exactly
the sequences of such characters, and what it reads is what the writer writes.
-/

namespace Collective.Utf8

/-- A byte that may follow the first one of a character. -/
def IsTail (b : UInt8) : Prop := 0x80 ≤ b ∧ b ≤ 0xBF

/-- The bytes of one character. -/
inductive IsCharacter : Bytes → Prop where
  | one {a : UInt8} : a < 0x80 → IsCharacter [a]
  | two {a b : UInt8} : 0xC2 ≤ a → a ≤ 0xDF → IsTail b → IsCharacter [a, b]
  /-- Neither an overlong form nor a surrogate. -/
  | three {a b c : UInt8} : 0xE0 ≤ a → a ≤ 0xEF → (a = 0xE0 → 0xA0 ≤ b) → (a = 0xED → b ≤ 0x9F) →
      IsTail b → IsTail c → IsCharacter [a, b, c]
  /-- Neither an overlong form nor beyond the last character. -/
  | four {a b c d : UInt8} : 0xF0 ≤ a → a ≤ 0xF4 → (a = 0xF0 → 0x90 ≤ b) →
      (a = 0xF4 → b ≤ 0x8F) → IsTail b → IsTail c → IsTail d → IsCharacter [a, b, c, d]

/-- Bytes that are one character after the other. -/
inductive WellFormed : Bytes → Prop where
  | nil : WellFormed []
  | cons {character rest : Bytes} : IsCharacter character → WellFormed rest →
      WellFormed (character ++ rest)

theorem WellFormed.append {early late : Bytes} (h : WellFormed early) (hlate : WellFormed late) :
    WellFormed (early ++ late) := by
  induction h with
  | nil => exact hlate
  | cons hcharacter _ ih =>
    rw [List.append_assoc]
    exact .cons hcharacter ih

theorem IsCharacter.wellFormed {bytes : Bytes} (h : IsCharacter bytes) : WellFormed bytes := by
  rw [← List.append_nil bytes]
  exact .cons h .nil

/-- A character begins with a byte that follows none, and no other of its bytes does. -/
theorem IsCharacter.isTail_iff {b : UInt8} {tails : Bytes} (h : IsCharacter (b :: tails)) :
    ¬ IsTail b ∧ ∀ t ∈ tails, IsTail t := by
  cases h <;> simp_all [IsTail, UInt8.le_iff_toNat_le, UInt8.lt_iff_toNat_lt] <;> omega

/-- Bytes of seven bits are characters of their own. -/
theorem wellFormed_of_ascii {bytes : Bytes} (h : ∀ b ∈ bytes, b < 0x80) : WellFormed bytes := by
  induction bytes with
  | nil => exact .nil
  | cons b rest ih =>
    obtain ⟨hb, hrest⟩ := List.forall_mem_cons.1 h
    exact .cons (.one hb) (ih hrest)

/-! ## Writing a character -/

/-- Which numbers are those of characters. -/
theorem toNat_valid (c : Char) :
    c.val.toNat < 0xD800 ∨ (0xDFFF < c.val.toNat ∧ c.val.toNat < 0x110000) := c.valid

theorem toNat_ofNat_of_valid {n : Nat} (h : n < 0xD800 ∨ (0xDFFF < n ∧ n < 0x110000)) :
    (Char.ofNat n).val.toNat = n := by
  rw [Char.ofNat, dif_pos h]
  exact UInt32.toNat_ofNatLT ..

/-- A character is written as one. -/
theorem isCharacter_encodeChar (c : Char) : IsCharacter (String.utf8EncodeChar c) := by
  have hvalid := toNat_valid c
  simp only [String.utf8EncodeChar]
  generalize c.val.toNat = n at hvalid ⊢
  split
  · apply IsCharacter.one
    simp [UInt8.lt_iff_toNat_lt]
    omega
  · split
    · apply IsCharacter.two <;> simp [IsTail, UInt8.le_iff_toNat_le] <;> omega
    · split
      · apply IsCharacter.three <;>
          simp [IsTail, UInt8.le_iff_toNat_le, ← UInt8.toNat_inj] <;> omega
      · apply IsCharacter.four <;>
          simp [IsTail, UInt8.le_iff_toNat_le, ← UInt8.toNat_inj] <;> omega

theorem encodeChar_injective {c d : Char}
    (h : String.utf8EncodeChar c = String.utf8EncodeChar d) : c = d := by
  have hread := fun c : Char =>
    ByteArray.utf8DecodeChar?_utf8EncodeChar_append (b := .empty) (c := c)
  have hc := hread c
  rw [h, hread d] at hc
  exact (Option.some.inj hc).symm

/-! ## Reading a character -/

/-- The number that a byte adds to the number of an unfinished character. -/
theorem decodeFrom_last {index : Nat} {u : Unfinished} {b : UInt8} (hlater : u.later = 0)
    (hlow : u.low ≤ b) (hhigh : b ≤ u.high) (rest : Bytes) :
    decodeFrom index (some u) (b :: rest) =
      (decodeFrom (index + 1) none rest).map (Char.ofNat (u.code * 64 + b.toNat % 64) :: ·) := by
  rw [decodeFrom, if_pos ⟨hlow, hhigh⟩, hlater]

theorem decodeFrom_next {index later : Nat} {u : Unfinished} {b : UInt8}
    (hlater : u.later = later + 1) (hlow : u.low ≤ b) (hhigh : b ≤ u.high) (rest : Bytes) :
    decodeFrom index (some u) (b :: rest) =
      decodeFrom (index + 1)
        (some ⟨u.start, u.read + 1, later, 0x80, 0xBF, u.code * 64 + b.toNat % 64⟩) rest := by
  rw [decodeFrom, if_pos ⟨hlow, hhigh⟩, hlater]

theorem decodeFrom_lead {index : Nat} {b : UInt8} {u : Unfinished} (hhigh : 0x80 ≤ b)
    (hlead : Unfinished.ofLead? index b = some u) (rest : Bytes) :
    decodeFrom index none (b :: rest) = decodeFrom (index + 1) (some u) rest := by
  rw [decodeFrom, if_neg (UInt8.not_lt.2 hhigh), hlead]

theorem ofLead?_two (start : Nat) {a : UInt8} (hlow : 0xC2 ≤ a) (hhigh : a ≤ 0xDF) :
    Unfinished.ofLead? start a = some ⟨start, 1, 0, 0x80, 0xBF, a.toNat % 32⟩ :=
  if_pos ⟨hlow, hhigh⟩

/-- What the first of three bytes promises of the second. -/
theorem ofLead?_three (start : Nat) {a : UInt8} (hlow : 0xE0 ≤ a) (hhigh : a ≤ 0xEF) :
    ∃ low high, Unfinished.ofLead? start a = some ⟨start, 1, 1, low, high, a.toNat % 16⟩ ∧
      ∀ b, low ≤ b ∧ b ≤ high ↔ IsTail b ∧ (a = 0xE0 → 0xA0 ≤ b) ∧ (a = 0xED → b ≤ 0x9F) := by
  rw [Unfinished.ofLead?, if_neg (by grind)]
  by_cases hfirst : a = 0xE0
  · subst hfirst
    exact ⟨_, _, rfl, by grind [IsTail]⟩
  · rw [if_neg hfirst]
    by_cases hsurrogate : a = 0xED
    · subst hsurrogate
      exact ⟨_, _, rfl, by grind [IsTail]⟩
    · rw [if_neg hsurrogate, if_pos (by grind)]
      exact ⟨_, _, rfl, by grind [IsTail]⟩

/-- What the first of four bytes promises of the second. -/
theorem ofLead?_four (start : Nat) {a : UInt8} (hlow : 0xF0 ≤ a) (hhigh : a ≤ 0xF4) :
    ∃ low high, Unfinished.ofLead? start a = some ⟨start, 1, 2, low, high, a.toNat % 8⟩ ∧
      ∀ b, low ≤ b ∧ b ≤ high ↔ IsTail b ∧ (a = 0xF0 → 0x90 ≤ b) ∧ (a = 0xF4 → b ≤ 0x8F) := by
  rw [Unfinished.ofLead?, if_neg (by grind), if_neg (by grind), if_neg (by grind),
    if_neg (by grind)]
  by_cases hfirst : a = 0xF0
  · subst hfirst
    exact ⟨_, _, rfl, by grind [IsTail]⟩
  · rw [if_neg hfirst]
    by_cases hlast : a = 0xF4
    · subst hlast
      exact ⟨_, _, rfl, by grind [IsTail]⟩
    · rw [if_pos (by grind)]
      exact ⟨_, _, rfl, by grind [IsTail]⟩

/-- The bytes of a character are those with which some character is written. -/
theorem IsCharacter.exists_encodeChar {bytes : Bytes} (h : IsCharacter bytes) :
    ∃ code, String.utf8EncodeChar (Char.ofNat code) = bytes ∧ ∀ index rest,
      decodeFrom index none (bytes ++ rest) =
        (decodeFrom (index + bytes.length) none rest).map (Char.ofNat code :: ·) := by
  cases h with
  | @one a ha =>
    refine ⟨a.toNat, ?_, fun index rest => if_pos ha⟩
    rw [UInt8.lt_iff_toNat_lt] at ha
    change a.toNat < 128 at ha
    have hcode := toNat_ofNat_of_valid (n := a.toNat) (by omega)
    simp only [String.utf8EncodeChar, hcode]
    rw [if_pos (by omega), UInt8.ofNat_toNat]
  | @two a b hlow hhigh hb =>
    refine ⟨a.toNat % 32 * 64 + b.toNat % 64, ?_, ?_⟩
    · simp only [IsTail, UInt8.le_iff_toNat_le, UInt8.reduceToNat] at hlow hhigh hb
      have hcode := toNat_ofNat_of_valid (n := a.toNat % 32 * 64 + b.toNat % 64) (by omega)
      simp only [String.utf8EncodeChar, hcode]
      rw [if_neg (by omega), if_pos (by omega)]
      simp [← UInt8.toNat_inj]
      omega
    · intro index rest
      rw [List.cons_append, decodeFrom_lead (by grind) (ofLead?_two index hlow hhigh),
        List.cons_append, decodeFrom_last rfl hb.1 hb.2]
      rfl
  | @three a b c hlow hhigh hfirst hsurrogate hb hc =>
    refine ⟨(a.toNat % 16 * 64 + b.toNat % 64) * 64 + c.toNat % 64, ?_, ?_⟩
    · simp only [IsTail, UInt8.le_iff_toNat_le, ← UInt8.toNat_inj, UInt8.reduceToNat] at *
      have hcode := toNat_ofNat_of_valid
        (n := (a.toNat % 16 * 64 + b.toNat % 64) * 64 + c.toNat % 64) (by omega)
      simp only [String.utf8EncodeChar, hcode]
      rw [if_neg (by omega), if_neg (by omega), if_pos (by omega)]
      simp [← UInt8.toNat_inj]
      omega
    · intro index rest
      obtain ⟨low, high, hlead, hsecond⟩ := ofLead?_three index hlow hhigh
      obtain ⟨hmin, hmax⟩ := (hsecond b).2 ⟨hb, hfirst, hsurrogate⟩
      rw [List.cons_append, decodeFrom_lead (by grind) hlead, List.cons_append,
        decodeFrom_next rfl hmin hmax, List.cons_append, decodeFrom_last rfl hc.1 hc.2]
      rfl
  | @four a b c d hlow hhigh hfirst hlast hb hc hd =>
    refine ⟨((a.toNat % 8 * 64 + b.toNat % 64) * 64 + c.toNat % 64) * 64 + d.toNat % 64, ?_, ?_⟩
    · simp only [IsTail, UInt8.le_iff_toNat_le, ← UInt8.toNat_inj, UInt8.reduceToNat] at *
      have hcode := toNat_ofNat_of_valid
        (n := ((a.toNat % 8 * 64 + b.toNat % 64) * 64 + c.toNat % 64) * 64 + d.toNat % 64)
        (by omega)
      simp only [String.utf8EncodeChar, hcode]
      rw [if_neg (by omega), if_neg (by omega), if_neg (by omega)]
      simp [← UInt8.toNat_inj]
      omega
    · intro index rest
      obtain ⟨low, high, hlead, hsecond⟩ := ofLead?_four index hlow hhigh
      obtain ⟨hmin, hmax⟩ := (hsecond b).2 ⟨hb, hfirst, hlast⟩
      rw [List.cons_append, decodeFrom_lead (by grind) hlead, List.cons_append,
        decodeFrom_next rfl hmin hmax, List.cons_append, decodeFrom_next rfl hc.1 hc.2,
        List.cons_append, decodeFrom_last rfl hd.1 hd.2]
      rfl

/-- What a character is written with is read as the character. -/
theorem decodeFrom_encodeChar (index : Nat) (c : Char) (rest : Bytes) :
    decodeFrom index none (String.utf8EncodeChar c ++ rest) =
      (decodeFrom (index + (String.utf8EncodeChar c).length) none rest).map (c :: ·) := by
  obtain ⟨code, hencode, hread⟩ := (isCharacter_encodeChar c).exists_encodeChar
  obtain rfl := encodeChar_injective hencode
  exact hread index rest

/-! ## Texts -/

/-- What a text is written with is read as the text. -/
theorem decode_encode (text : String) : decode (encode text) = .ok text := by
  have hall : ∀ (cs : List Char) (index : Nat),
      decodeFrom index none (cs.flatMap String.utf8EncodeChar) = .ok cs := by
    intro cs
    induction cs with
    | nil =>
      intro index
      rw [List.flatMap_nil, decodeFrom]
    | cons c cs ih =>
      intro index
      rw [List.flatMap_cons, decodeFrom_encodeChar, ih]
      rfl
  rw [decode, encode, hall]
  show Except.ok (String.ofList text.toList) = _
  rw [String.ofList_toList]

theorem decode?_encode (text : String) : decode? (encode text) = some text := by
  rw [decode?, decode_encode]
  rfl

/-- Well-formed bytes are those with which some text is written. -/
theorem WellFormed.exists_encode {bytes : Bytes} (h : WellFormed bytes) :
    ∃ text, encode text = bytes := by
  suffices hlist : ∃ cs : List Char, cs.flatMap String.utf8EncodeChar = bytes by
    obtain ⟨cs, hcs⟩ := hlist
    exact ⟨String.ofList cs, by rw [encode, String.toList_ofList, hcs]⟩
  induction h with
  | nil => exact ⟨[], rfl⟩
  | cons hcharacter _ ih =>
    obtain ⟨code, hencode, -⟩ := hcharacter.exists_encodeChar
    obtain ⟨cs, hcs⟩ := ih
    exact ⟨Char.ofNat code :: cs, by rw [List.flatMap_cons, hencode, hcs]⟩

theorem wellFormed_encode (text : String) : WellFormed (encode text) := by
  rw [encode]
  induction text.toList with
  | nil => exact .nil
  | cons c cs ih => exact .cons (isCharacter_encodeChar c) ih

/-- An unfinished character that is read goes on with a byte in its bounds. -/
theorem exists_cons_of_decodeFrom {index : Nat} {u : Unfinished} {bytes : Bytes} {cs : List Char}
    (h : decodeFrom index (some u) bytes = .ok cs) :
    ∃ b rest, bytes = b :: rest ∧ u.low ≤ b ∧ b ≤ u.high := by
  cases bytes with
  | nil => cases h
  | cons b rest =>
    by_cases hb : u.low ≤ b ∧ b ≤ u.high
    · exact ⟨b, rest, rfl, hb⟩
    · rw [decodeFrom, if_neg hb] at h
      cases h

/-- Bytes before which a character has been read are read themselves. -/
theorem exists_of_map_cons {index : Nat} {c : Char} {rest : Bytes} {cs : List Char}
    (h : (decodeFrom index none rest).map (c :: ·) = .ok cs) :
    ∃ others, decodeFrom index none rest = .ok others := by
  cases hrest : decodeFrom index none rest with
  | error fault =>
    rw [hrest] at h
    cases h
  | ok others => exact ⟨others, rfl⟩

/-- An unfinished character that is read has all the bytes that it still needs. -/
theorem exists_of_decodeFrom_unfinished {later index : Nat} {u : Unfinished} {bytes : Bytes}
    {cs : List Char} (hlater : u.later = later) (h : decodeFrom index (some u) bytes = .ok cs) :
    ∃ b tails rest, bytes = b :: (tails ++ rest) ∧ (u.low ≤ b ∧ b ≤ u.high) ∧
      tails.length = later ∧ (∀ t ∈ tails, IsTail t) ∧
      ∃ index others, decodeFrom index none rest = .ok others := by
  obtain ⟨b, bytes, rfl, hlow, hhigh⟩ := exists_cons_of_decodeFrom h
  induction later generalizing index u b bytes with
  | zero =>
    rw [decodeFrom_last hlater hlow hhigh] at h
    exact ⟨b, [], bytes, rfl, ⟨hlow, hhigh⟩, rfl, nofun, _, exists_of_map_cons h⟩
  | succ later ih =>
    rw [decodeFrom_next hlater hlow hhigh] at h
    obtain ⟨next, bytes, rfl, htail⟩ := exists_cons_of_decodeFrom h
    obtain ⟨t, tails, rest, hbytes, ht, hlength, htails, hrest⟩ :=
      ih rfl next bytes h htail.1 htail.2
    refine ⟨b, t :: tails, rest, by rw [hbytes, List.cons_append], ⟨hlow, hhigh⟩, ?_, ?_, hrest⟩
    · rw [List.length_cons, hlength]
    · exact List.forall_mem_cons.2 ⟨ht, htails⟩

/-- What a first byte that is read may be. -/
theorem ofLead?_eq_some {start : Nat} {a : UInt8} {u : Unfinished}
    (h : Unfinished.ofLead? start a = some u) :
    (0xC2 ≤ a ∧ a ≤ 0xDF) ∨ (0xE0 ≤ a ∧ a ≤ 0xEF) ∨ (0xF0 ≤ a ∧ a ≤ 0xF4) := by
  grind [Unfinished.ofLead?]

/-- Bytes that are read begin with those of a character. -/
theorem exists_character_of_decodeFrom {index : Nat} {bytes : Bytes} {cs : List Char}
    (hne : bytes ≠ []) (h : decodeFrom index none bytes = .ok cs) :
    ∃ character rest, bytes = character ++ rest ∧ IsCharacter character ∧
      ∃ index others, decodeFrom index none rest = .ok others := by
  obtain ⟨a, bytes, rfl⟩ := List.exists_cons_of_ne_nil hne
  by_cases hsmall : a < 0x80
  · rw [decodeFrom, if_pos hsmall] at h
    exact ⟨[a], bytes, rfl, .one hsmall, _, exists_of_map_cons h⟩
  have hlarge := UInt8.not_lt.1 hsmall
  cases hlead : Unfinished.ofLead? index a with
  | none =>
    rw [decodeFrom, if_neg hsmall, hlead] at h
    cases h
  | some u =>
    rw [decodeFrom_lead hlarge hlead] at h
    rcases ofLead?_eq_some hlead with ⟨hlow, hhigh⟩ | ⟨hlow, hhigh⟩ | ⟨hlow, hhigh⟩
    · rw [ofLead?_two index hlow hhigh] at hlead
      obtain rfl := Option.some.inj hlead
      obtain ⟨b, tails, rest, rfl, hb, hlength, -, hrest⟩ := exists_of_decodeFrom_unfinished rfl h
      obtain rfl := List.length_eq_zero_iff.1 hlength
      exact ⟨[a, b], rest, rfl, .two hlow hhigh hb, hrest⟩
    · obtain ⟨low, high, hlead', hsecond⟩ := ofLead?_three index hlow hhigh
      rw [hlead'] at hlead
      obtain rfl := Option.some.inj hlead
      obtain ⟨b, tails, rest, rfl, hb, hlength, htails, hrest⟩ :=
        exists_of_decodeFrom_unfinished rfl h
      obtain ⟨c, rfl⟩ := List.length_eq_one_iff.1 hlength
      obtain ⟨htail, hfirst, hsurrogate⟩ := (hsecond b).1 hb
      exact ⟨[a, b, c], rest, rfl,
        .three hlow hhigh hfirst hsurrogate htail (htails c List.mem_cons_self), hrest⟩
    · obtain ⟨low, high, hlead', hsecond⟩ := ofLead?_four index hlow hhigh
      rw [hlead'] at hlead
      obtain rfl := Option.some.inj hlead
      obtain ⟨b, tails, rest, rfl, hb, hlength, htails, hrest⟩ :=
        exists_of_decodeFrom_unfinished rfl h
      obtain ⟨c, d, rfl⟩ := List.length_eq_two.1 hlength
      obtain ⟨htail, hfirst, hlast⟩ := (hsecond b).1 hb
      exact ⟨[a, b, c, d], rest, rfl, .four hlow hhigh hfirst hlast htail
        (htails c List.mem_cons_self) (htails d (List.mem_cons_of_mem _ List.mem_cons_self)), hrest⟩

/-- Bytes that are read are well formed. -/
theorem wellFormed_of_decodeFrom {index : Nat} {bytes : Bytes} {cs : List Char}
    (h : decodeFrom index none bytes = .ok cs) : WellFormed bytes := by
  induction hlength : bytes.length using Nat.strongRecOn generalizing index bytes cs with
  | ind length ih =>
    by_cases hne : bytes = []
    · exact hne ▸ .nil
    · obtain ⟨character, rest, rfl, hcharacter, index, others, hrest⟩ :=
        exists_character_of_decodeFrom hne h
      have hpos : 0 < character.length := by cases hcharacter <;> exact Nat.zero_lt_succ _
      rw [List.length_append] at hlength
      exact .cons hcharacter (ih rest.length (by omega) hrest rfl)

/-- The bytes that are read as a text are those with which it is written. -/
theorem decode_eq_ok_iff {bytes : Bytes} {text : String} :
    decode bytes = .ok text ↔ encode text = bytes := by
  constructor
  · intro h
    cases hread : decodeFrom 0 none bytes with
    | error fault =>
      rw [decode, hread] at h
      cases h
    | ok cs =>
      obtain ⟨other, rfl⟩ := (wellFormed_of_decodeFrom hread).exists_encode
      rw [decode_encode] at h
      rw [Except.ok.inj h]
  · rintro rfl
    exact decode_encode text

/-- Exactly the well-formed bytes are read as a text. -/
theorem exists_decode_eq_ok_iff {bytes : Bytes} :
    (∃ text, decode bytes = .ok text) ↔ WellFormed bytes := by
  constructor
  · rintro ⟨text, h⟩
    rw [← decode_eq_ok_iff.1 h]
    exact wellFormed_encode text
  · intro h
    obtain ⟨text, rfl⟩ := h.exists_encode
    exact ⟨text, decode_encode text⟩

end Collective.Utf8
