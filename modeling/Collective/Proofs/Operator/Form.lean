import Collective.Operator.Json
import Collective.Proofs.Json.Record

/-!
# Forms of an operator

An operator may be written with its codec and its pipeline, or without them where they are the
standard ones, and with texts under other names beside its fields. Each of these forms can be held,
and the operator is read from it.
-/

namespace Collective

open Json (IsRecord IsDefaulted ReadsBack)

/-- The value of an enumeration that is given by its name. -/
theorem Json.enum?_ofString {α : Type} (blank : Json → Bool) (ofName? : String → Option α)
    (name : String) : enum? blank ofName? (.ofString name) = ofName? name := by
  rw [ofString, enum?, Piece.text?_ofText, Option.bind_some]

/-- A field that has a default reads as its value from each of its forms, given or not. -/
theorem Json.IsDefaulted.read {α : Type} {default a : α} {IsForm : α → Json → Prop}
    {value : Option Json} {read : Json → Option α} (h : IsDefaulted default IsForm a value)
    (fields : Fields) (i : Nat) (hget : fields.get? i = value)
    (hread : ∀ {a j}, IsForm a j → read j = some a) : fields.defaulted i read default = some a := by
  rw [Fields.defaulted, hget]
  cases h with
  | given hform => exact hread hform
  | omitted => rfl

/-- What holds of each form of a value holds of what is given. -/
theorem Json.IsDefaulted.forall_mem {α : Type} {default a : α} {IsForm : α → Json → Prop}
    {P : Json → Prop} {value : Option Json} (h : IsDefaulted default IsForm a value)
    (hform : ∀ {a j}, IsForm a j → P j) : ∀ j ∈ value, P j := by
  cases h with
  | given hgiven => simpa using hform hgiven
  | omitted => exact nofun

theorem OperatorKind.ofName?_name (kind : OperatorKind) : ofName? kind.name = some kind := by
  cases kind <;> rfl

theorem Json.holds_ofString {levels : Nat} (text : String) :
    (ofString text).holds levels = true := by
  rw [ofString, holds, Piece.text?_ofText, Option.isSome_some]

/-- A word can be held. -/
theorem Json.holds_ofInt {levels : Nat} (n : UInt64) : (ofInt n.toNat).holds levels = true := by
  have hlt := n.toNat_lt
  simp [ofInt, holds, Number.isHeld, Number.isWord, Number.ofInt, Number.natOfDigits_digitsOfNat]
  exact .inl hlt

/-! ## Pipelines -/

namespace Pipeline

/-- The fields of a pipeline behind its mode. -/
def fields : Pipeline → List (String × Option Json)
  | .whole => []
  | .chunked size => [("chunk_size", some (.ofInt size.count.toNat))]

/-- The name of a pipeline's mode. -/
def modeName : Pipeline → String
  | .whole => "whole"
  | .chunked _ => "chunked"

/-- The value describes the pipeline. -/
def IsForm (pipeline : Pipeline) (j : Json) : Prop :=
  IsRecord (("mode", some (.ofString pipeline.modeName)) :: pipeline.fields) j

theorem isForm_toJson (pipeline : Pipeline) : pipeline.IsForm pipeline.toJson := by
  cases pipeline <;> exact .ofMembers _

variable {pipeline : Pipeline} {j : Json}

theorem IsForm.ofJson?_eq (h : pipeline.IsForm j) : ofJson? j = some pipeline := by
  cases pipeline with
  | whole =>
    have hmode : Mode.ofJson? (.ofString "whole") = some .whole := by
      simp [Mode.ofJson?, Json.ofString, Json.Piece.text?_ofText]
    obtain ⟨rest, hvariant, members, rfl, -⟩ := h.variant? (by simp [fields]) Mode.ofJson? hmode
    simp [ofJson?, hvariant]
  | chunked size =>
    have hmode : Mode.ofJson? (.ofString "chunked") = some .chunked := by
      simp [Mode.ofJson?, Json.ofString, Json.Piece.text?_ofText]
    obtain ⟨rest, hvariant, hrest⟩ := h.variant? (by simp [fields]) Mode.ofJson? hmode
    have hfields := hrest.fields?_eq (by simp [fields])
    simp only [fields, List.map_cons, List.map_nil] at hfields
    simp [ofJson?, hvariant, hfields, Json.Fields.required, Json.Fields.get?, ChunkSize.ofJson?,
      Json.word?_ofInt, size.count_ne_zero]

theorem IsForm.readsBack (h : pipeline.IsForm j) : j.ReadsBack :=
  IsRecord.readsBack h <| by
    cases pipeline <;> simp [fields, ReadsBack.ofString, ReadsBack.ofInt]

theorem IsForm.holds {levels : Nat} (h : pipeline.IsForm j) (hlevels : 1 < levels) :
    j.holds levels = true := by
  refine IsRecord.holds h hlevels ?_
  cases pipeline <;> simp [fields, Json.holds_ofString, Json.holds_ofInt]

end Pipeline

/-! ## Operators -/

namespace OperatorSpec

/-- The fields of an operator behind its kind, with what is given for codec and pipeline. -/
def fields (spec : OperatorSpec) (codec pipeline : Option Json) : List (String × Option Json) :=
  [(rootField spec.kind, some (.ofString spec.root)), ("codec", codec)]
    ++ (spec.reduction?.map fun f => ("reduce_function", some (Json.ofString f.name))).toList
    ++ [("pipeline", pipeline)]

/-- The value describes the operator; codec and pipeline are left out only where they are the
standard ones. -/
def IsForm (spec : OperatorSpec) (j : Json) : Prop :=
  ∃ codec pipeline,
    IsDefaulted .standard (fun kind j => j = CodecKind.toJson kind) spec.codec codec ∧
    IsDefaulted .whole Pipeline.IsForm spec.pipeline pipeline ∧
    IsRecord (("kind", some (.ofString spec.kind.name)) :: spec.fields codec pipeline) j

theorem isForm_toJson (spec : OperatorSpec) : spec.IsForm spec.toJson := by
  refine ⟨_, _, .given rfl, .given (spec.pipeline.isForm_toJson), ?_⟩
  obtain ⟨purpose, root, codec, pipeline⟩ := spec
  cases purpose <;> exact .ofMembers _

variable {spec : OperatorSpec} {j : Json}

theorem nodup_fields (spec : OperatorSpec) (codec pipeline : Option Json) :
    (("kind" :: (spec.fields codec pipeline).map (·.1))).Nodup := by
  obtain ⟨purpose, root, kind, chunks⟩ := spec
  cases purpose <;> simp [fields, rootField, OperatorSpec.kind, reduction?]

/-- What holds of texts and of the forms of codec and pipeline holds of every value given. -/
theorem forall_mem_fields {P : Json → Prop} {codec pipeline : Option Json}
    (htext : ∀ text, P (.ofString text)) (hcodec : ∀ j ∈ codec, P j)
    (hpipeline : ∀ j ∈ pipeline, P j) :
    ∀ field ∈ ("kind", some (Json.ofString spec.kind.name)) :: spec.fields codec pipeline,
      ∀ j ∈ field.2, P j := by
  obtain ⟨purpose, root, kind, chunks⟩ := spec
  cases purpose <;> simp_all [fields, reduction?]

theorem IsForm.readsBack (h : spec.IsForm j) : j.ReadsBack := by
  obtain ⟨codec, pipeline, hcodec, hpipeline, hrecord⟩ := h
  refine hrecord.readsBack (forall_mem_fields ReadsBack.ofString ?_ ?_)
  · exact hcodec.forall_mem fun h => h ▸ ReadsBack.ofString _
  · exact hpipeline.forall_mem Pipeline.IsForm.readsBack

theorem IsForm.holds {levels : Nat} (h : spec.IsForm j) (hlevels : 2 < levels) :
    j.holds levels = true := by
  obtain ⟨codec, pipeline, hcodec, hpipeline, hrecord⟩ := h
  refine hrecord.holds (by omega) (forall_mem_fields Json.holds_ofString ?_ ?_)
  · exact hcodec.forall_mem fun h => h ▸ Json.holds_ofString _
  · exact hpipeline.forall_mem fun h => h.holds (by omega)

/-- The fields of an operator are read as the operator. -/
theorem ofFields?_eq {rest : Json} {codec pipeline : Option Json}
    (hcodec : IsDefaulted .standard (fun kind j => j = CodecKind.toJson kind) spec.codec codec)
    (hpipeline : IsDefaulted .whole Pipeline.IsForm spec.pipeline pipeline)
    (hrest : IsRecord (spec.fields codec pipeline) rest) :
    ofFields? spec.kind rest = some spec := by
  have hfields := hrest.fields?_eq (List.nodup_cons.1 (spec.nodup_fields codec pipeline)).2
  have hreadCodec : ∀ {kind j}, j = CodecKind.toJson kind →
      Json.enum? Json.isBlankHeld CodecKind.ofName? j = some kind := by
    rintro kind j rfl
    rw [CodecKind.toJson, Json.enum?_ofString, CodecKind.ofName?_name]
  obtain ⟨purpose, root, kind, chunks⟩ := spec
  cases purpose with
  | reduce function =>
    have hfields : rest.fields? [rootField .reduce, "codec", "reduce_function", "pipeline"] =
        some (.named [some (.ofString root), codec, some (.ofString function.name), pipeline]) :=
      hfields
    have hfunction : Json.enum? Json.isBlankHeld Reduction.ofName? (.ofString function.name) =
        some function := by
      rw [Json.enum?_ofString, Reduction.ofName?_name]
    have hcodec := hcodec.read (.named [some (.ofString root), codec,
      some (.ofString function.name), pipeline]) 1 rfl hreadCodec
    have hpipeline := hpipeline.read (.named [some (.ofString root), codec,
      some (.ofString function.name), pipeline]) 3 rfl Pipeline.IsForm.ofJson?_eq
    simp [ofFields?, OperatorSpec.kind, hfields, hcodec, hpipeline, hfunction, Json.Fields.required,
      Json.Fields.get?, Json.string?_ofString]
  | broadcast | scatter =>
    have hfields : rest.fields? ["sender_id", "codec", "pipeline"] =
        some (.named [some (.ofString root), codec, pipeline]) := hfields
    have hcodec := hcodec.read (.named [some (.ofString root), codec, pipeline]) 1 rfl hreadCodec
    have hpipeline := hpipeline.read (.named [some (.ofString root), codec, pipeline]) 2 rfl
      Pipeline.IsForm.ofJson?_eq
    simp [ofFields?, OperatorSpec.kind, rootField, hfields, hcodec, hpipeline,
      Json.Fields.required, Json.Fields.get?, Json.string?_ofString]

theorem IsForm.ofJson?_eq {levels : Nat} (h : spec.IsForm j) (hlevels : 2 < levels) :
    ofJson? levels j = some spec := by
  have hholds := h.holds hlevels
  obtain ⟨codec, pipeline, hcodec, hpipeline, hrecord⟩ := h
  have hkind :
      (Json.ofString spec.kind.name).string?.bind OperatorKind.ofName? = some spec.kind := by
    rw [Json.string?_ofString, Option.bind_some, OperatorKind.ofName?_name]
  obtain ⟨rest, hvariant, hrest⟩ := hrecord.variant? (spec.nodup_fields codec pipeline)
    (fun tag => tag.string?.bind OperatorKind.ofName?) hkind
  simp [ofJson?, hholds, hvariant, ofFields?_eq hcodec hpipeline hrest]

end OperatorSpec

end Collective
