import Collective.Codec.Json
import Collective.Operator.Spec

/-!
# Operators in JSON

An operator is a variant tagged by its kind, a pipeline one tagged by its mode. Codec and pipeline
may be left out. The parts of an operator are held before they are read, so they must be values
that can be held, and within them a mode may also be given by its number.
-/

namespace Collective

/-- The JSON form of a pipeline. -/
def Pipeline.toJson : Pipeline → Json
  | .whole => .ofMembers [("mode", .ofString "whole")]
  | .chunked size =>
    .ofMembers [("mode", .ofString "chunked"), ("chunk_size", .ofInt size.count.toNat)]

/-- A number of elements per chunk. -/
def ChunkSize.ofJson? (j : Json) : Option ChunkSize :=
  j.word?.bind fun n => if h : n ≠ 0 then some ⟨n, h⟩ else none

/-- The modes of a pipeline. -/
inductive Pipeline.Mode where
  | whole
  | chunked
  deriving DecidableEq, Repr

/-- The mode that a held value names. -/
def Pipeline.Mode.ofJson? : Json → Option Pipeline.Mode
  | .string pieces =>
    match Json.Piece.text? pieces with
    | some "whole" => some .whole
    | some "chunked" => some .chunked
    | _ => none
  | j =>
    match j.word? with
    | some 0 => some .whole
    | some 1 => some .chunked
    | _ => none

/-- The pipeline that a held value describes. -/
def Pipeline.ofJson? (j : Json) : Option Pipeline := do
  match ← j.variant? "mode" Mode.ofJson? with
  | (.whole, .array (_ :: _)) => none
  | (.whole, _) => some .whole
  | (.chunked, fields) =>
    let fields ← fields.fields? ["chunk_size"]
    (fields.required 0 ChunkSize.ofJson?).map .chunked

namespace OperatorSpec

/-- The name of the field that holds the root. -/
def rootField : OperatorKind → String
  | .reduce => "receiver_id"
  | _ => "sender_id"

/-- The JSON form of an operator. -/
def toJson (spec : OperatorSpec) : Json :=
  .ofMembers <|
    [("kind", .ofString spec.kind.name), (rootField spec.kind, .ofString spec.root),
      ("codec", spec.codec.toJson)]
    ++ (spec.reduction?.map fun f => ("reduce_function", Json.ofString f.name)).toList
    ++ [("pipeline", spec.pipeline.toJson)]

/-- The operator of a kind that fields describe. -/
def ofFields? (kind : OperatorKind) (fields : Json) : Option OperatorSpec := do
  let readCodec := Json.enum? Json.isBlankHeld CodecKind.ofName?
  match kind with
  | .reduce =>
    let fields ← fields.fields? [rootField kind, "codec", "reduce_function", "pipeline"]
    let root ← fields.required 0 Json.string?
    let codec ← fields.defaulted 1 readCodec .standard
    let function ← fields.required 2 (Json.enum? Json.isBlankHeld Reduction.ofName?)
    let pipeline ← fields.defaulted 3 Pipeline.ofJson? .whole
    some ⟨.reduce function, root, codec, pipeline⟩
  | .broadcast | .scatter =>
    let fields ← fields.fields? [rootField kind, "codec", "pipeline"]
    let root ← fields.required 0 Json.string?
    let codec ← fields.defaulted 1 readCodec .standard
    let pipeline ← fields.defaulted 2 Pipeline.ofJson? .whole
    some ⟨if kind = .broadcast then .broadcast else .scatter, root, codec, pipeline⟩

/-- The operator that a value describes; the value may nest less than `levels` deep. -/
def ofJson? (levels : Nat) (j : Json) : Option OperatorSpec := do
  if j.holds levels then
    let (kind, fields) ← j.variant? "kind" fun tag => tag.string?.bind OperatorKind.ofName?
    ofFields? kind fields
  else none

/-- The operator that a text describes. -/
def parse? (text : Bytes) : Option OperatorSpec := (Json.parse? text).bind (ofJson? Json.maxLevels)

end OperatorSpec

end Collective
