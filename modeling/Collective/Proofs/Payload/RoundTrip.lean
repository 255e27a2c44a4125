import Collective.Proofs.Payload.Exact
import Collective.Proofs.Pipeline.Passage

/-!
# Payloads that come back

Every integer comes back from each codec that carries its type. A list comes back exactly if each of
its elements does, however it is cut into chunks, so every list of elements of a list that comes
back does so, too.
-/

namespace Collective

/-! ## JSON forms -/

theorem Json.Number.print_ofDigits_ne_nil (range : Positional) (negative : Bool)
    (d : Decimal.Digits) : (ofDigits range negative d).print ≠ [] := by
  rw [ofDigits]
  split
  · split
    · exact print_ne_nil_of_whole (List.cons_ne_nil _ _)
    · apply print_ne_nil_of_whole
      intro hwhole
      have hlength := congrArg List.length hwhole
      rw [List.length_append, List.length_replicate, List.length_nil] at hlength
      omega
  · intro hprint
    simp only [print, List.append_eq_nil_iff] at hprint
    cases hprint.2

theorem NumericType.legible_toJson (type : NumericType) (value : type.Carrier) :
    (type.toJson value).Legible := by
  cases type with
  | f32 =>
    show (Json.ofBinary32 value).Legible
    rw [Json.ofBinary32]
    cases value.magnitude? with
    | some m => exact Json.Number.print_ofDigits_ne_nil _ _ _
    | none => trivial
  | f64 =>
    show (Json.ofBinary64 value).Legible
    rw [Json.ofBinary64]
    cases value.magnitude? with
    | some m => exact Json.Number.print_ofDigits_ne_nil _ _ _
    | none => trivial
  | _ => exact Json.legible_ofInt _

theorem ElementType.legible_toJson (type : ElementType) (value : type.Carrier) :
    (type.toJson value).Legible := by
  induction type with
  | u8 => exact Json.legible_ofInt _
  | numeric type => exact type.legible_toJson value
  | bool => trivial
  | string => exact Json.legible_ofString value
  | list element ih =>
    apply Json.legibleItems_iff.2
    intro item hitem
    obtain ⟨v, -, rfl⟩ := List.mem_map.1 hitem
    exact ih v

/-! ## Lists -/

/-- The element reads as itself where its JSON form is written. -/
def ElementType.Reads (element : ElementType) (value : element.Carrier) : Prop :=
  (element.toJson value).reread?.bind element.ofJson? = some value

/-- A list is read back exactly if each of its elements is. -/
theorem PayloadType.decode_listCodec_iff {element : ElementType}
    {values : List element.Carrier} :
    (listCodec element).decode (ElementType.toJson (.list element) values).print = .ok values ↔
      ∀ value ∈ values, element.Reads value := by
  have hreread : (Json.array (values.map element.toJson)).reread? =
      ((values.map element.toJson).mapM Json.reread?).map .array := by
    rw [Json.reread?, Json.rereadItems?_eq_mapM]
  have hread : ((Json.array (values.map element.toJson)).reread?).bind
      (ElementType.ofJson? (.list element)) =
      values.mapM fun value => (element.toJson value).reread?.bind element.ofJson? := by
    rw [hreread, List.mapM_map, ← mapM_bind_mapM, Option.bind_map]
    rfl
  rw [listCodec, Codec.decode_json_eq_ok_iff,
    Json.parse?_print (ElementType.legible_toJson (.list element) values)]
  show ((Json.array (values.map element.toJson)).reread?).bind _ = _ ↔ _
  rw [hread, mapM_eq_some_iff, List.forall₂_same]
  rfl

/-- Lists are only carried as JSON. -/
theorem PayloadType.eq_listCodec {element : ElementType} {kind : CodecKind}
    {codec : Codec (List element.Carrier)}
    (h : PayloadType.codec (.list element) kind = .ok codec) : codec = listCodec element := by
  cases kind with
  | json => exact (Except.ok.inj h).symm
  | _ => cases h

namespace Passage

variable {element : ElementType} {pipeline : Pipeline}

/-- The chunks of a list hold its elements. -/
theorem flatMap_data_split (pipeline : Pipeline) (values : List element.Carrier) :
    (((PayloadType.list element).converter pipeline).split values).flatMap (·.data) = values := by
  cases pipeline with
  | whole => exact List.flatMap_singleton _ _
  | chunked size => exact Converter.flatMap_data_splitList size values

/-- A list comes back exactly if each of its elements does. -/
theorem roundTrips_list_iff {values : List element.Carrier} :
    (⟨PayloadType.listCodec element, (PayloadType.list element).converter pipeline⟩ :
      Passage (List element.Carrier)).RoundTrips values ↔
        ∀ value ∈ values, element.Reads value := by
  constructor
  · intro h value hvalue
    rw [← flatMap_data_split pipeline values] at hvalue
    obtain ⟨chunk, hchunk, hmem⟩ := List.mem_flatMap.1 hvalue
    obtain ⟨data, hencode, hdecode⟩ := h chunk hchunk
    obtain rfl := Except.ok.inj hencode
    exact PayloadType.decode_listCodec_iff.1 hdecode value hmem
  · intro h chunk hchunk
    refine ⟨_, rfl, PayloadType.decode_listCodec_iff.2 ?_⟩
    intro value hvalue
    apply h
    rw [← flatMap_data_split pipeline values]
    exact List.mem_flatMap.2 ⟨chunk, hchunk, hvalue⟩

end Passage

/-! ## Integers -/

namespace IntegerType

variable {type : IntegerType}

theorem isFloating_numeric (type : IntegerType) : type.numeric.isFloating = false := by
  cases type <;> rfl

/-- Every integer reads as itself. -/
theorem reads (type : IntegerType) (value : type.numeric.Carrier) :
    (ElementType.numeric type.numeric).Reads value := by
  show ((type.numeric.toJson value).reread?).bind type.numeric.ofJson? = some value
  rw [(readsBack_toJson value).reread?_eq]
  exact ofJson?_toJson value

/-- Every codec that carries a type of integers gives each integer back. -/
theorem roundTrips {kind : CodecKind} {codec : Codec type.numeric.Carrier}
    (h : PayloadType.codec (.numeric type.numeric) kind = .ok codec) (pipeline : Pipeline)
    (value : type.numeric.Carrier) :
    (⟨codec, PayloadType.converter (.numeric type.numeric) pipeline⟩ :
      Passage type.numeric.Carrier).RoundTrips value := by
  have hwhole : PayloadType.converter (.numeric type.numeric) pipeline = .whole := by
    cases pipeline <;> rfl
  intro chunk hchunk
  rw [hwhole] at hchunk
  obtain rfl := List.mem_singleton.1 hchunk
  exact PayloadType.givesBack h (fun _ => type.isFloating_numeric) value

end IntegerType

end Collective
