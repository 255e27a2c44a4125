import Collective.Payload.Codec
import Collective.Proofs.Json.Text
import Collective.Proofs.Reduction

/-!
# Codecs that lose nothing

Every value comes back from every codec that carries its type, unless it is written as JSON and
holds a floating-point number. The fixed codecs go both ways: what they read is what they would
write, so the byte strings of a form and the values of the type are one to one.
-/

namespace Collective

/-! ## Codecs -/

namespace Codec

variable {α : Type}

/-- The value can be written, and is read from what is written. -/
def GivesBack (codec : Codec α) (value : α) : Prop :=
  ∃ data, codec.encode value = .ok data ∧ codec.decode data = .ok value

/-- Values and the byte strings of a form are one to one. -/
structure IsExact (codec : Codec α) (Form : Bytes → Prop) : Prop where
  encodes : ∀ value, ∃ data, codec.encode value = .ok data ∧ Form data
  decode_eq_ok_iff : ∀ {data value}, codec.decode data = .ok value ↔ codec.encode value = .ok data
  decodes : ∀ {data}, Form data → ∃ value, codec.decode data = .ok value

namespace IsExact

variable {codec : Codec α} {Form : Bytes → Prop}

theorem givesBack (h : codec.IsExact Form) (value : α) : codec.GivesBack value := by
  obtain ⟨data, hencode, -⟩ := h.encodes value
  exact ⟨data, hencode, h.decode_eq_ok_iff.2 hencode⟩

/-- The byte strings that are read are those of the form. -/
theorem exists_decode_iff (h : codec.IsExact Form) {data : Bytes} :
    (∃ value, codec.decode data = .ok value) ↔ Form data := by
  constructor
  · rintro ⟨value, hdecode⟩
    obtain ⟨written, hencode, hform⟩ := h.encodes value
    rw [h.decode_eq_ok_iff, hencode] at hdecode
    exact Except.ok.inj hdecode ▸ hform
  · exact h.decodes

end IsExact

theorem decode_json_eq_ok_iff {toJson : α → Json} {ofJson? : Json → Option α}
    {data : Bytes} {value : α} :
    (json toJson ofJson?).decode data = .ok value ↔
      (Json.parse? data).bind ofJson? = some value := by
  rw [json]
  dsimp only
  cases (Json.parse? data).bind ofJson? with
  | none => simp
  | some other => simp

/-- A value whose JSON form reads as the value is given back. -/
theorem givesBack_json {toJson : α → Json} {ofJson? : Json → Option α} {value : α}
    (hprint : (toJson value).ReadsBack) (hread : ofJson? (toJson value) = some value) :
    (json toJson ofJson?).GivesBack value := by
  refine ⟨_, rfl, decode_json_eq_ok_iff.2 ?_⟩
  rw [hprint.parse?_print, Option.bind_some, hread]

/-! ## The fixed codecs -/

theorem isExact_bytes : bytes.IsExact fun _ => True where
  encodes data := ⟨data, rfl, trivial⟩
  decode_eq_ok_iff {data value} := by simp [bytes, eq_comm]
  decodes {data} _ := ⟨data, rfl⟩

theorem isExact_utf8 : utf8.IsExact Utf8.WellFormed where
  encodes text := ⟨Utf8.encode text, rfl, Utf8.wellFormed_encode text⟩
  decode_eq_ok_iff {data text} := by
    have hread : Utf8.decode data = .ok text ↔ Utf8.encode text = data := Utf8.decode_eq_ok_iff
    cases h : Utf8.decode data <;> simp_all [utf8, Except.mapError]
  decodes {data} h := by
    obtain ⟨text, hread⟩ := Utf8.exists_decode_eq_ok_iff.2 h
    exact ⟨text, by simp [utf8, hread, Except.mapError]⟩

theorem word_eq_ok_iff {width : Nat} {what : String} {data : Bytes} {n : Nat} :
    word width what data = .ok n ↔ n < 256 ^ width ∧ Bytes.ofNat width n = data := by
  rw [word]
  constructor
  · intro h
    split at h
    · next hlength =>
      obtain rfl := Except.ok.inj h
      subst hlength
      exact ⟨Bytes.toNat_lt data, Bytes.ofNat_toNat data⟩
    · cases h
  · rintro ⟨hn, rfl⟩
    rw [if_pos (Bytes.length_ofNat width n), Bytes.toNat_ofNat, Nat.mod_eq_of_lt hn]

/-- A codec that writes values as the words that number them. -/
theorem isExact_of_word {codec : Codec α} {width : Nat} {what : String} {toNat : α → Nat}
    {ofNat : Nat → α}
    (hencode : ∀ value, codec.encode value = .ok (Bytes.ofNat width (toNat value)))
    (hdecode : ∀ data, codec.decode data = (word width what data).map ofNat)
    (hlt : ∀ value, toNat value < 256 ^ width) (hofNat : ∀ value, ofNat (toNat value) = value)
    (htoNat : ∀ n < 256 ^ width, toNat (ofNat n) = n) : codec.IsExact (·.length = width) where
  encodes value := ⟨_, hencode value, Bytes.length_ofNat width _⟩
  decode_eq_ok_iff {data value} := by
    rw [hencode, hdecode]
    constructor
    · intro h
      cases hword : word width what data with
      | error e =>
        rw [hword] at h
        cases h
      | ok n =>
        obtain ⟨hn, rfl⟩ := word_eq_ok_iff.1 hword
        rw [hword] at h
        obtain rfl := Except.ok.inj h
        rw [htoNat n hn]
    · intro h
      rw [word_eq_ok_iff.2 ⟨hlt value, Except.ok.inj h⟩]
      exact congrArg Except.ok (hofNat value)
  decodes {data} h := ⟨_, by rw [hdecode, word, if_pos h]; rfl⟩

theorem isExact_integer : integer.IsExact (·.length = 8) :=
  isExact_of_word (fun _ => rfl) (fun _ => rfl) (fun value => value.toUInt64.toNat_lt)
    (fun value => by rw [UInt64.ofNat_toNat, Int64.toInt64_toUInt64])
    (fun n h => by rw [UInt64.toUInt64_toInt64, UInt64.toNat_ofNat_of_lt' h])

theorem isExact_double : double.IsExact (·.length = 8) :=
  isExact_of_word (fun _ => rfl) (fun _ => rfl) (fun value => value.bits.toNat_lt)
    (fun value => by rw [UInt64.ofNat_toNat])
    (fun n h => UInt64.toNat_ofNat_of_lt' h)

theorem isExact_single : single.IsExact (·.length = 4) :=
  isExact_of_word (fun _ => rfl) (fun _ => rfl) (fun value => value.bits.toNat_lt)
    (fun value => by rw [UInt32.ofNat_toNat])
    (fun n h => UInt32.toNat_ofNat_of_lt' h)

end Codec

/-! ## JSON -/

/-- The type is one of floating-point numbers. -/
def NumericType.isFloating : NumericType → Bool
  | .f32 => true
  | .f64 => true
  | _ => false

/-- Elements of the type are floating-point numbers or lists of them. -/
def ElementType.isFloating : ElementType → Bool
  | .numeric type => type.isFloating
  | .list element => element.isFloating
  | _ => false

/-- Values of the type are floating-point numbers or lists of them. -/
def PayloadType.isFloating : PayloadType → Bool
  | .numeric type => type.isFloating
  | .list element => element.isFloating
  | _ => false

theorem NumericType.exists_integerType {type : NumericType} (h : type.isFloating = false) :
    ∃ integer : IntegerType, integer.numeric = type := by
  cases type with
  | i32 => exact ⟨.i32, rfl⟩
  | i64 => exact ⟨.i64, rfl⟩
  | u32 => exact ⟨.u32, rfl⟩
  | u64 => exact ⟨.u64, rfl⟩
  | f32 => cases h
  | f64 => cases h

theorem IntegerType.ofJson?_toJson {type : IntegerType} (value : type.numeric.Carrier) :
    type.numeric.ofJson? (type.numeric.toJson value) = some value := by
  cases type with
  | i32 =>
    show ((Json.ofInt value.toInt).int? _ _).map Int32.ofInt = some value
    rw [Json.int?_ofInt value.le_toInt (Int.le_sub_one_of_lt value.toInt_lt), Option.map_some,
      Int32.ofInt_toInt]
  | i64 =>
    show ((Json.ofInt value.toInt).int? _ _).map Int64.ofInt = some value
    rw [Json.int?_ofInt value.le_toInt (Int.le_sub_one_of_lt value.toInt_lt), Option.map_some,
      Int64.ofInt_toInt]
  | u32 =>
    show ((Json.ofInt value.toNat).nat? _).map UInt32.ofNat = some value
    rw [Json.nat?_ofInt value.toNat_lt, Option.map_some, UInt32.ofNat_toNat]
  | u64 =>
    show ((Json.ofInt value.toNat).nat? _).map UInt64.ofNat = some value
    rw [Json.nat?_ofInt value.toNat_lt, Option.map_some, UInt64.ofNat_toNat]

theorem IntegerType.readsBack_toJson {type : IntegerType} (value : type.numeric.Carrier) :
    (type.numeric.toJson value).ReadsBack := by
  cases type <;> exact .ofInt _

/-- The JSON form of an element reads as the element. -/
theorem ElementType.reads_toJson {type : ElementType} (h : type.isFloating = false)
    (value : type.Carrier) :
    (type.toJson value).ReadsBack ∧ type.ofJson? (type.toJson value) = some value := by
  induction type with
  | u8 =>
    refine ⟨.ofInt _, ?_⟩
    show ((Json.ofInt value.toNat).nat? _).map UInt8.ofNat = some value
    rw [Json.nat?_ofInt value.toNat_lt, Option.map_some, UInt8.ofNat_toNat]
  | numeric type =>
    obtain ⟨integer, rfl⟩ := NumericType.exists_integerType h
    exact ⟨integer.readsBack_toJson value, integer.ofJson?_toJson value⟩
  | bool => exact ⟨.bool value, rfl⟩
  | string => exact ⟨.ofString value, Json.string?_ofString value⟩
  | list element ih =>
    constructor
    · apply Json.ReadsBack.array
      intro item hitem
      obtain ⟨v, -, rfl⟩ := List.mem_map.1 hitem
      exact (ih h v).1
    · show (value.map element.toJson).mapM element.ofJson? = some value
      have hread : value.mapM (element.ofJson? ∘ element.toJson) = some (value.map id) :=
        mapM_eq_some fun v _ => (ih h v).2
      rw [List.mapM_map, hread, List.map_id]

namespace PayloadType

/-- The byte strings that the fixed codec of a kind has for values of a type. -/
def Form : PayloadType → CodecKind → Bytes → Prop
  | .numeric .i64, .integer, data => data.length = 8
  | .numeric .f64, .double, data => data.length = 8
  | .numeric .f32, .double, data => data.length = 4
  | .string, .utf8, data => Utf8.WellFormed data
  | .bytes, .bytes, _ => True
  | _, _, _ => False

variable {type : PayloadType} {kind : CodecKind} {codec : Codec type.Carrier}

/-- Fixed codecs are one to one. -/
theorem isExact_of_ne_json (h : type.codec kind = .ok codec) (hkind : kind ≠ .json) :
    codec.IsExact (type.Form kind) := by
  fun_cases PayloadType.codec type kind with
  | case1 | case2 | case3 | case4 => exact absurd rfl hkind
  | case5 =>
    obtain rfl := Except.ok.inj h
    exact Codec.isExact_integer
  | case6 =>
    obtain rfl := Except.ok.inj h
    exact Codec.isExact_double
  | case7 =>
    obtain rfl := Except.ok.inj h
    exact Codec.isExact_single
  | case8 =>
    obtain rfl := Except.ok.inj h
    exact Codec.isExact_utf8
  | case9 =>
    obtain rfl := Except.ok.inj h
    exact Codec.isExact_bytes
  | case10 =>
    rw [PayloadType.codec] at h
    · cases h
    all_goals assumption

/-- JSON gives back values of every other type. -/
theorem givesBack_of_json {codec : Codec type.Carrier} (h : type.codec .json = .ok codec)
    (hfloating : type.isFloating = false) (value : type.Carrier) : codec.GivesBack value := by
  cases type with
  | numeric type =>
    obtain ⟨integer, rfl⟩ := NumericType.exists_integerType hfloating
    have hcodec : codec = .json integer.numeric.toJson integer.numeric.ofJson? := by
      cases integer <;> exact (Except.ok.inj h).symm
    rw [hcodec]
    exact Codec.givesBack_json (integer.readsBack_toJson value) (integer.ofJson?_toJson value)
  | bool =>
    obtain rfl := Except.ok.inj h
    exact Codec.givesBack_json (.bool value) rfl
  | string =>
    obtain rfl := Except.ok.inj h
    exact Codec.givesBack_json (.ofString value) (Json.string?_ofString value)
  | bytes => cases h
  | list element =>
    obtain rfl := Except.ok.inj h
    have hlist : (ElementType.list element).isFloating = false := hfloating
    obtain ⟨hprint, hread⟩ := ElementType.reads_toJson hlist value
    exact Codec.givesBack_json hprint hread

/-- Every codec for a type gives each value back, JSON if it is not a floating-point number. -/
theorem givesBack (h : type.codec kind = .ok codec)
    (hfloating : kind = .json → type.isFloating = false) (value : type.Carrier) :
    codec.GivesBack value := by
  by_cases hkind : kind = .json
  · subst hkind
    exact givesBack_of_json h (hfloating rfl) value
  · exact (isExact_of_ne_json h hkind).givesBack value

/-- Every value comes back from every codec for its type, but for floating-point numbers in JSON.
What a fixed codec reads is what it writes for the value, and it reads the byte strings of its form:
words of their width, well-formed texts, and bytes of any kind. -/
theorem codec_lossless (h : type.codec kind = .ok codec) :
    ((kind = .json → type.isFloating = false) → ∀ value, ∃ data,
      codec.encode value = .ok data ∧ codec.decode data = .ok value) ∧
    (kind ≠ .json → ∀ data,
      (∀ value, codec.decode data = .ok value → codec.encode value = .ok data) ∧
      ((∃ value, codec.decode data = .ok value) ↔ type.Form kind data)) := by
  constructor
  · exact fun hfloating value => givesBack h hfloating value
  · intro hkind data
    have hexact := isExact_of_ne_json h hkind
    exact ⟨fun value => hexact.decode_eq_ok_iff.1, hexact.exists_decode_iff⟩

/-- Nested lists come back from JSON, and a NaN with a payload from the codec for doubles. -/
theorem codec_lossless_lists_and_nan :
    (∃ data, (listCodec (.list (.numeric .i32))).encode [[-1, 0], []] = .ok data ∧
      (listCodec (.list (.numeric .i32))).decode data = .ok [[-1, 0], []]) ∧
    (∃ data, Codec.double.encode ⟨0x7FF8000000000001⟩ = .ok data ∧
      Codec.double.decode data = .ok ⟨0x7FF8000000000001⟩) ∧
    (∃ value, Codec.double.decode [0x7F, 0xF8, 0, 0, 0, 0, 0, 1] = .ok value ∧
      Codec.double.encode value = .ok [0x7F, 0xF8, 0, 0, 0, 0, 0, 1]) := by
  have hlist : codec (.list (.list (.numeric .i32))) .json =
      .ok (listCodec (.list (.numeric .i32))) := rfl
  have hdouble : codec (.numeric .f64) .double = .ok Codec.double := rfl
  obtain ⟨hgiven, hfixed⟩ := codec_lossless hdouble
  obtain ⟨hcanonical, hform⟩ := hfixed (by decide) [0x7F, 0xF8, 0, 0, 0, 0, 0, 1]
  obtain ⟨value, hdecode⟩ := hform.2 rfl
  exact ⟨(codec_lossless hlist).1 (fun _ => rfl) _, hgiven (by decide) _,
    value, hdecode, hcanonical value hdecode⟩

end PayloadType

end Collective
