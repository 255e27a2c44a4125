import Collective.Group.Client
import Collective.Proofs.Json.Record
import Collective.Proofs.Payload.Exact
import Collective.Proofs.Text.Base64

/-!
# Messages on the way

A message is written as a record of its fields, and every message is read from what is written. The
payload is given by the symbols of its bytes, and by no other text.
-/

namespace Collective

open Json (IsRecord ReadsBack)

theorem ChunkHeader.isRecord_toJson (h : ChunkHeader) :
    IsRecord [("index", some (.ofInt h.index.toNat)), ("is_last", some (.bool h.isLast))]
      h.toJson :=
  .ofMembers _

theorem ChunkHeader.ofJson?_toJson (h : ChunkHeader) : ofJson? h.toJson = some h := by
  have hfields := h.isRecord_toJson.fields?_eq (by simp)
  simp only [List.map_cons, List.map_nil] at hfields
  simp [ofJson?, hfields, Json.Fields.required, Json.Fields.get?, Json.word?_ofInt, Json.bool?]

theorem ChunkHeader.readsBack_toJson (h : ChunkHeader) : h.toJson.ReadsBack :=
  h.isRecord_toJson.readsBack <| by simp [ReadsBack.ofInt, ReadsBack.bool]

namespace Message

/-- The names of the fields of a message. -/
def fieldNames : List String :=
  ["group", "epoch", "operator", "source", "destination", "chunk", "payload"]

/-- The text given for the payload of a message. -/
def payloadText? (j : Json) : Option String :=
  (j.fields? fieldNames).bind fun fields => (fields.get? 6).bind Json.string?

theorem isRecord_toJson (m : Message) :
    IsRecord [("group", some (.ofString m.group)), ("epoch", some (.ofInt m.epoch.toNat)),
      ("operator", some (.ofString m.operator)), ("source", some (.ofString m.source)),
      ("destination", some (.ofString m.destination)), ("chunk", some m.chunk.toJson),
      ("payload", some (.ofString (String.ofList (Base64.encode m.payload))))] m.toJson :=
  .ofMembers _

theorem ofJson?_toJson (m : Message) : ofJson? m.toJson = some m := by
  have hfields := m.isRecord_toJson.fields?_eq (by simp)
  simp only [List.map_cons, List.map_nil] at hfields
  simp [ofJson?, hfields, Json.Fields.required, Json.Fields.defaulted, Json.Fields.get?,
    Json.string?_ofString, Json.word?_ofInt, ChunkHeader.ofJson?_toJson, Base64.decode?_encode]

theorem readsBack_toJson (m : Message) : m.toJson.ReadsBack :=
  m.isRecord_toJson.readsBack <| by
    simp [ReadsBack.ofInt, ReadsBack.ofString, ChunkHeader.readsBack_toJson]

/-- The payload of a message that is read is given by its own symbols. -/
theorem payloadText?_of_ofJson? {j : Json} {m : Message} (h : ofJson? j = some m) :
    payloadText? j = some (String.ofList (Base64.encode m.payload)) := by
  obtain ⟨fields, hfields, h⟩ := Option.bind_eq_some_iff.1 h
  obtain ⟨group, -, h⟩ := Option.bind_eq_some_iff.1 h
  obtain ⟨epoch, -, h⟩ := Option.bind_eq_some_iff.1 h
  obtain ⟨operator, -, h⟩ := Option.bind_eq_some_iff.1 h
  obtain ⟨source, -, h⟩ := Option.bind_eq_some_iff.1 h
  obtain ⟨destination, -, h⟩ := Option.bind_eq_some_iff.1 h
  obtain ⟨chunk, -, h⟩ := Option.bind_eq_some_iff.1 h
  obtain ⟨payload, hpayload, h⟩ := Option.bind_eq_some_iff.1 h
  obtain rfl := Option.some.inj h
  obtain ⟨value, hvalue, hpayload⟩ := Option.bind_eq_some_iff.1 hpayload
  obtain ⟨text, htext, hpayload⟩ := Option.bind_eq_some_iff.1 hpayload
  have hsymbols : String.ofList (Base64.encode payload) = text := by
    rw [Base64.encode_of_decode? hpayload, String.ofList_toList]
  simp [payloadText?, fieldNames, hfields, hvalue, htext, hsymbols]

/-- Every message can be sent and is read from what is sent; and where a message is read, the text
of its payload is the one with which the payload is sent. -/
theorem codec_faithful :
    (∀ m, ∃ data, codec.encode m = .ok data ∧ codec.decode data = .ok m) ∧
    ∀ data m, codec.decode data = .ok m →
      (Json.parse? data).bind payloadText? = some (String.ofList (Base64.encode m.payload)) := by
  constructor
  · intro m
    exact Codec.givesBack_json m.readsBack_toJson m.ofJson?_toJson
  · intro data m h
    obtain ⟨j, hparse, hread⟩ := Option.bind_eq_some_iff.1 (Codec.decode_json_eq_ok_iff.1 h)
    rw [hparse, Option.bind_some, payloadText?_of_ofJson? hread]

/-- A name with a quote, a backslash and a line break, and three bytes. -/
theorem codec_faithful_escapes :
    ∃ data, codec.encode ⟨"a\"\\\n", 7, "sum", "b", "c", ⟨0, true⟩, [0, 42, 255]⟩ = .ok data ∧
      codec.decode data = .ok ⟨"a\"\\\n", 7, "sum", "b", "c", ⟨0, true⟩, [0, 42, 255]⟩ ∧
      (Json.parse? data).bind payloadText? = some "ACr/" := by
  have hsymbols : String.ofList (Base64.encode [0, 42, 255]) = "ACr/" := by decide
  obtain ⟨hgiven, hpayload⟩ := codec_faithful
  obtain ⟨data, hencode, hdecode⟩ :=
    hgiven ⟨"a\"\\\n", 7, "sum", "b", "c", ⟨0, true⟩, [0, 42, 255]⟩
  exact ⟨data, hencode, hdecode, hsymbols ▸ hpayload data _ hdecode⟩

end Message

end Collective
