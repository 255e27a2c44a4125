import Collective.Group.Bundle
import Collective.Proofs.Operator.Form
import Collective.Proofs.Table

/-!
# Forms of a bundle

A bundle is written as a record that holds the record of each operator under its name. It is read
from every form in which these records may be written, and from one without its epoch it is read as
a bundle of the first epoch.
-/

namespace Collective

open Json (IsRecord ReadsBack)

/-! ## Places -/

theorem Role.ofName?_name (role : Role) : ofName? role.name = some role := by
  cases role <;> rfl

namespace Place

/-- The value describes the place. -/
def IsForm (place : Place) (j : Json) : Prop :=
  IsRecord [("task_id", some (.ofString place.task)),
    ("parent", some ((place.parent.map Json.ofString).getD .null)),
    ("children", some (.array (place.children.map Json.ofString))),
    ("role", some (.ofString place.role.name))] j

theorem isForm_toJson (place : Place) : place.IsForm place.toJson := .ofMembers _

variable {place : Place} {j : Json}

theorem IsForm.ofJson?_eq (h : place.IsForm j) : ofJson? j = some place := by
  have hfields := h.fields?_eq (by simp)
  simp only [List.map_cons, List.map_nil] at hfields
  have hparent : Json.optional? Json.string? ((place.parent.map Json.ofString).getD .null) =
      some place.parent := by
    cases place.parent with
    | none => rfl
    | some parent => exact congrArg (Option.map some) (Json.string?_ofString parent)
  have hchildren : (place.children.map Json.ofString).mapM Json.string? = some place.children := by
    have hread : place.children.mapM (Json.string? ∘ Json.ofString) =
        some (place.children.map id) :=
      mapM_eq_some fun child _ => Json.string?_ofString child
    rw [List.mapM_map, hread, List.map_id]
  simp [ofJson?, hfields, Json.Fields.required, Json.Fields.optional, Json.Fields.get?,
    Json.string?_ofString, hparent, Json.items?, hchildren, Json.enum?_ofString, Role.ofName?_name]

theorem IsForm.readsBack (h : place.IsForm j) : j.ReadsBack := by
  have hparent : ((place.parent.map Json.ofString).getD .null).ReadsBack := by
    cases place.parent with
    | none => exact .null
    | some parent => exact .ofString parent
  have hchildren : (Json.array (place.children.map Json.ofString)).ReadsBack :=
    .array fun item hitem => by
      obtain ⟨child, -, rfl⟩ := List.mem_map.1 hitem
      exact .ofString child
  exact IsRecord.readsBack h <| by simp [ReadsBack.ofString, hparent, hchildren]

end Place

/-! ## Views -/

namespace OperatorView

/-- The value describes the view. -/
def IsForm (view : OperatorView) (j : Json) : Prop :=
  ∃ spec place, view.spec.IsForm spec ∧ view.place.IsForm place ∧
    IsRecord [("spec", some spec), ("topology", some place)] j

theorem isForm_toJson (view : OperatorView) : view.IsForm view.toJson :=
  ⟨_, _, view.spec.isForm_toJson, view.place.isForm_toJson, .ofMembers _⟩

variable {view : OperatorView} {j : Json}

theorem IsForm.ofJson?_eq {levels : Nat} (h : view.IsForm j) (hlevels : 3 < levels) :
    ofJson? levels j = some view := by
  obtain ⟨spec, place, hspec, hplace, hrecord⟩ := h
  have hspec := hspec.ofJson?_eq (show 2 < levels - 1 by omega)
  have hfields := hrecord.fields?_eq (by simp)
  simp only [List.map_cons, List.map_nil] at hfields
  simp [ofJson?, hfields, Json.Fields.required, Json.Fields.get?, hspec, hplace.ofJson?_eq]

theorem IsForm.readsBack (h : view.IsForm j) : j.ReadsBack := by
  obtain ⟨spec, place, hspec, hplace, hrecord⟩ := h
  exact hrecord.readsBack <| by simp [hspec.readsBack, hplace.readsBack]

end OperatorView

/-! ## Bundles -/

namespace Bundle

/-- The value describes the operators, each under its name. -/
def IsOperators (operators : Table String OperatorView) (j : Json) : Prop :=
  ∃ members, j = .object members ∧ List.Forall₂
    (fun entry member => Json.Piece.Spells member.1 entry.1 ∧ entry.2.IsForm member.2)
    operators.entries members

/-- The value describes the bundle, or all of it but the epoch. -/
def IsForm (b : Bundle) (stamped : Bool) (j : Json) : Prop :=
  ∃ operators, IsOperators b.operators operators ∧
    IsRecord [("group_name", some (.ofString b.group)), ("task_id", some (.ofString b.task)),
      ("epoch", if stamped then some (.ofInt b.epoch.toNat) else none),
      ("operators", some operators)] j

theorem isForm_toJson (b : Bundle) : b.IsForm true b.toJson := by
  refine ⟨_, ⟨_, rfl, ?_⟩, .ofMembers _⟩
  rw [List.map_map, List.forall₂_map_right_iff, List.forall₂_same]
  exact fun entry _ => ⟨Json.Piece.spells_ofText _, entry.2.isForm_toJson⟩

variable {b : Bundle} {operators : Table String OperatorView} {stamped : Bool} {j : Json}

theorem IsOperators.readsBack (h : IsOperators operators j) : j.ReadsBack := by
  obtain ⟨members, rfl, hall⟩ := h
  apply ReadsBack.object
  generalize operators.entries = entries at hall
  induction hall with
  | nil => exact nofun
  | cons hfirst _ ih =>
    exact List.forall_mem_cons.2 ⟨⟨⟨_, hfirst.1⟩, hfirst.2.readsBack⟩, ih⟩

/-- The operators are read from each of their forms. -/
theorem IsOperators.tableOfJson?_eq {levels : Nat} (h : IsOperators operators j)
    (hlevels : 3 < levels) :
    tableOfJson? (OperatorView.ofJson? levels) j = some operators := by
  obtain ⟨members, rfl, hall⟩ := h
  have hread : ∃ named, Json.namedMembers? members = some named ∧
      (named.mapM fun member => (OperatorView.ofJson? levels member.2).map (member.1, ·)) =
        some operators.entries := by
    generalize operators.entries = entries at hall ⊢
    induction hall with
    | nil => exact ⟨[], rfl, rfl⟩
    | @cons entry member _ _ hfirst _ ih =>
      obtain ⟨named, hnamed, hentries⟩ := ih
      refine ⟨(entry.1, member.2) :: named, ?_, ?_⟩
      · rw [Json.namedMembers?] at hnamed ⊢
        simp [List.mapM_cons, hfirst.1.text?_eq, hnamed]
      · simp [List.mapM_cons, hfirst.2.ofJson?_eq hlevels, hentries]
  obtain ⟨named, hnamed, hentries⟩ := hread
  simp [tableOfJson?, hnamed, hentries, Table.ofList_entries]

theorem IsForm.ofJson?_eq {levels : Nat} (h : b.IsForm stamped j) (hlevels : 5 < levels) :
    ofJson? levels j = some (if stamped then b else { b with epoch := 0 }) := by
  obtain ⟨operators, hoperators, hrecord⟩ := h
  have hfields := hrecord.fields?_eq (by simp)
  simp only [List.map_cons, List.map_nil] at hfields
  have htable := hoperators.tableOfJson?_eq (show 3 < levels - 2 by omega)
  cases stamped <;> simp_all [ofJson?, Json.Fields.required, Json.Fields.defaulted,
    Json.Fields.get?, Json.string?_ofString, Json.word?_ofInt]

theorem IsForm.readsBack (h : b.IsForm stamped j) : j.ReadsBack := by
  obtain ⟨operators, hoperators, hrecord⟩ := h
  refine hrecord.readsBack ?_
  cases stamped <;> simp [ReadsBack.ofString, ReadsBack.ofInt, hoperators.readsBack]

/-- A form of a bundle is a text, and the bundle is read from it. -/
theorem IsForm.exists_text (h : b.IsForm stamped j) :
    ∃ text, Utf8.encode text = j.print ∧
      parse? (Utf8.encode text) = some (if stamped then b else { b with epoch := 0 }) := by
  obtain ⟨text, htext⟩ := h.readsBack.wellFormed_print.exists_encode
  refine ⟨text, htext, ?_⟩
  rw [htext, parse?, h.readsBack.parse?_print, Option.bind_some]
  exact h.ofJson?_eq (by decide)

/-- A bundle is written as a text from which it is read again. It is also read from the texts in
which standard codecs and pipelines are left out and texts stand under other names anywhere in its
records; without an epoch they are read as the bundle at the first epoch. -/
theorem print_lossless (b : Bundle) :
    (∃ text, Utf8.encode text = b.print ∧ parse? (Utf8.encode text) = some b) ∧
    ∀ stamped j, b.IsForm stamped j → ∃ text, Utf8.encode text = j.print ∧
      parse? (Utf8.encode text) = some (if stamped then b else { b with epoch := 0 }) :=
  ⟨b.isForm_toJson.exists_text, fun _ _ h => h.exists_text⟩

/-! A bundle with a broadcast, which is written without codec and pipeline, and a reduction in
chunks, which is written with both. -/

namespace Pair

/-- The broadcast. -/
def down : OperatorView := ⟨.plain .broadcast "a", ⟨"a", none, ["b"], .sender⟩⟩

/-- The reduction. -/
def up : OperatorView :=
  ⟨⟨.reduce .sum, "b", .integer, .chunked ⟨4, by decide⟩⟩, ⟨"a", some "b", [], .sender⟩⟩

/-- The bundle. -/
def bundle : Bundle := ⟨"g", "a", 3, ⟨[("down", down), ("up", up)], by decide⟩⟩

/-- The operators, the broadcast without codec and pipeline. -/
def terse : Json :=
  .ofMembers [
    ("down", .ofMembers [
      ("spec", .ofMembers [("kind", .ofString "broadcast"), ("sender_id", .ofString "a")]),
      ("topology", down.place.toJson)]),
    ("up", up.toJson)]

/-- The bundle without its epoch, and with a remark. -/
def remarked : Json :=
  .ofMembers [("remark", .ofString "no epoch"), ("group_name", .ofString "g"),
    ("task_id", .ofString "a"), ("operators", terse)]

theorem isOperators_terse : IsOperators bundle.operators terse := by
  have hspec : down.spec.IsForm
      (.ofMembers [("kind", .ofString "broadcast"), ("sender_id", .ofString "a")]) :=
    ⟨none, none, .omitted, .omitted, _, rfl, .given (Json.Piece.spells_ofText _)
      (.given (Json.Piece.spells_ofText _) (.omitted (.omitted .nil)))⟩
  have hdown : down.IsForm (.ofMembers [
      ("spec", .ofMembers [("kind", .ofString "broadcast"), ("sender_id", .ofString "a")]),
      ("topology", down.place.toJson)]) :=
    ⟨_, _, hspec, down.place.isForm_toJson, .ofMembers _⟩
  refine ⟨_, rfl, .cons ⟨Json.Piece.spells_ofText _, hdown⟩ (.cons ?_ .nil)⟩
  exact ⟨Json.Piece.spells_ofText _, up.isForm_toJson⟩

theorem isForm_remarked : bundle.IsForm false remarked := by
  refine ⟨_, isOperators_terse, _, rfl, ?_⟩
  refine .extra (by simp) (Json.Piece.spells_ofText _) (Json.Piece.spells_ofText _) ?_
  exact .given (Json.Piece.spells_ofText _) (.given (Json.Piece.spells_ofText _)
    (.omitted (.given (Json.Piece.spells_ofText _) .nil)))

end Pair

theorem print_lossless_pair :
    (∃ text, Utf8.encode text = Pair.bundle.print ∧
      parse? (Utf8.encode text) = some Pair.bundle) ∧
    ∃ text, Utf8.encode text = Pair.remarked.print ∧
      parse? (Utf8.encode text) = some { Pair.bundle with epoch := 0 } := by
  obtain ⟨hprint, hforms⟩ := print_lossless Pair.bundle
  exact ⟨hprint, hforms false _ Pair.isForm_remarked⟩

end Bundle

end Collective
