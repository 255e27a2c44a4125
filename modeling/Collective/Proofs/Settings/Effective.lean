import Collective.Proofs.Settings.Variables
import Collective.Proofs.Toml.Names

/-!
# What the sources come to

A field of a part has the value that the highest source gives it, whatever the sources of the other
fields are (`Sources.effective?`, `Sources.gives_layered`). What the sources come to for one part
does not depend on the section of the other in the file, nor on the variables with the other's mark
(`Sources.AgreeOutside.sectionOf_eq`).
-/

namespace Collective.Settings

open Value (Gives Alike Distinct)

namespace Sources

variable {part : Part} {s : Sources}

/-! ## What each source gives to a field -/

/-- What the file gives to a field. -/
def inFile? (s : Sources) (part : Part) (field : String) : Option Value :=
  (Toml.parse? s.file).bind (Value.at? [part.name, field])

/-- What overrides give to a field: the last one under its key. -/
def lastOverride? (part : Part) (given : List (String × Value)) (field : String) : Option Value :=
  (given.reverse.find? (·.1 = part.key field)).map (·.2)

/-- The value that the highest source gives to a field which gives it one: the overrides, else the
environment, else the file, else the defaults. -/
def effective? (s : Sources) (part : Part) (field : String) : Option Value :=
  (lastOverride? part s.overrides field).or <|
    (part.lastVariable? s.environment field).or <|
      (s.inFile? part field).or (Value.find? field part.usual)

/-- The overrides are values of fields, of this part or another. -/
def KeyedByFields (given : List (String × Value)) : Prop :=
  ∀ entry ∈ given, ∃ part, ∃ field ∈ Part.fields part, entry.1 = part.key field

/-- The sources speak of a part in terms of its fields: the file is a table whose section of the
part is one too, and variables and overrides name fields. -/
structure Proper (s : Sources) (part : Part) : Prop where
  file : ∃ table, Toml.parse? s.file = some table ∧
    ∀ v, Value.at? [part.name] table = some v → ∃ fields, v = .table fields
  environment : part.Addressed s.environment
  overrides : KeyedByFields s.overrides

/-! ## Layers -/

theorem gives_file {table : Value} (hparse : Toml.parse? s.file = some table)
    (hsection : ∀ v, Value.at? [part.name] table = some v → ∃ fields, v = .table fields) :
    Gives part.name table (s.inFile? part) := by
  obtain ⟨entries, rfl⟩ := Toml.exists_of_parse? hparse
  simp only [Value.at?_name] at hsection
  refine ((Toml.tidy_of_parse? hparse).gives hsection).congr fun field => ?_
  rw [inFile?, hparse, Option.bind_some]

theorem gives_defaults (part : Part) :
    Gives part.name part.defaults (Value.find? · part.usual) := by
  refine Value.gives_section part.name ?_
  rw [Distinct]
  cases part <;> decide

/-- Below the overrides a field has what the environment gives it, else the file, else the
defaults. -/
theorem gives_layers {table : Value} (hparse : Toml.parse? s.file = some table)
    (hproper : s.Proper part) :
    Gives part.name (s.layers table part) fun field =>
      (part.lastVariable? s.environment field).or <|
        (s.inFile? part field).or (Value.find? field part.usual) := by
  obtain ⟨_, hsome, hsection⟩ := hproper.file
  obtain rfl := Option.some.inj (hparse.symm.trans hsome)
  have hfile := gives_file hparse hsection
  have hlayer := gives_layer hproper.environment
  cases part with
  | transport => exact ((gives_defaults .transport).overlay hfile).overlay hlayer
  | group =>
    -- Neither the defaults nor the variables of links speak of groups.
    have hdefaults : Gives Part.group.name Part.transport.defaults fun _ => none :=
      Value.gives_none (Value.distinct_singleton _ _) rfl
    obtain ⟨entries, heq, hdistinct, hnone⟩ := exists_layer .transport s.environment
    have hvariables := heq ▸ Value.gives_none hdistinct (hnone Part.group.name (by decide))
    have hlinks := (hdefaults.overlay hfile).overlay hvariables
    refine (((gives_defaults .group).overlay hlinks).overlay hlayer).congr fun field => ?_
    rw [Option.none_or, Option.or_none]

/-! ## Overrides -/

theorem override?_key {field : String} (h : field ∈ part.fields) (value : Value) :
    override? (part.key field) value = some (.nest [part.name, field] value) := by
  have hparts : ((Environment.parts (part.key field).toList).takeWhile (! ·.isEmpty)).map
      String.ofList = [part.name, field] := by
    revert field
    cases part <;> decide
  rw [override?, hparts]
  rfl

theorem lastOverride?_concat (given : List (String × Value)) (key field : String) (value : Value) :
    lastOverride? part (given ++ [(key, value)]) field =
      if key = part.key field then some value else lastOverride? part given field := by
  simp only [lastOverride?, List.reverse_concat, List.find?_cons]
  by_cases h : key = part.key field <;> simp [h]

/-- Overrides hide what lies below them field by field. -/
theorem gives_overrides {low : Value} {below : String → Option Value}
    (h : Gives part.name low below) {given : List (String × Value)} (hgiven : KeyedByFields given) :
    ∃ v, given.foldl addOverride (.ok low) = .ok v ∧
      Gives part.name v fun field => (lastOverride? part given field).or (below field) := by
  induction given using List.reverseRecOn with
  | nil => exact ⟨low, rfl, h⟩
  | append_singleton given last ih =>
    obtain ⟨key, value⟩ := last
    obtain ⟨v, hfold, hgives⟩ := ih fun entry hentry => hgiven entry (List.mem_append_left _ hentry)
    obtain ⟨other, field, hfield, rfl⟩ := hgiven (key, value) (List.mem_concat_self ..)
    refine ⟨v.overlay (.nest [other.name, field] value), ?_,
      (hgives.overlay_nest other.name field value).congr fun asked => ?_⟩
    · rw [List.foldl_append, hfold, List.foldl_cons, List.foldl_nil, addOverride]
      simp only [override?_key hfield]
    · rw [lastOverride?_concat]
      simp only [Part.key_eq_iff]
      split <;> rfl

/-- The sources come to the effective value of each field. -/
theorem gives_layered (h : s.Proper part) :
    ∃ v, s.layered part = .ok v ∧ Gives part.name v (s.effective? part) := by
  obtain ⟨table, hparse, -⟩ := h.file
  rw [layered, hparse]
  exact gives_overrides (gives_layers hparse h) h.overrides

/-! ## Agreement outside a part -/

/-- The sources agree but for the section of a part in the file, and the variables with its mark. -/
structure AgreeOutside (part : Part) (s t : Sources) : Prop where
  file : Option.Rel
    (fun v w => ∀ other, other ≠ part.name → Value.at? [other] v = Value.at? [other] w)
    (Toml.parse? s.file) (Toml.parse? t.file)
  environment :
    s.environment.filter (! part.marks ·.1) = t.environment.filter (! part.marks ·.1)
  overrides : s.overrides = t.overrides

/-- Outcomes of laying sources over one another that agree but for a name. -/
inductive Matching (name : String) : Except LoadError Value → Except LoadError Value → Prop where
  | ok {v w : Value} (h : Alike name v w) : Matching name (.ok v) (.ok w)
  | error (e : LoadError) : Matching name (.error e) (.error e)

/-- Nothing is laid over a table but tables. -/
theorem exists_of_override? {key : String} {value table : Value}
    (h : override? key value = some table) : ∃ entries, table = .table entries := by
  rw [override?] at h
  split at h
  · exact ⟨_, (Option.some.inj h).symm⟩
  · cases h

theorem Matching.addOverride {name : String} {left right : Except LoadError Value}
    (h : Matching name left right) (entry : String × Value) :
    Matching name (addOverride left entry) (addOverride right entry) := by
  obtain ⟨key, value⟩ := entry
  cases htable : override? key value with
  | none =>
    simp only [Sources.addOverride, htable]
    exact .error _
  | some table =>
    cases h with
    | error e =>
      simp only [Sources.addOverride, htable]
      exact .error e
    | ok halike =>
      obtain ⟨entries, rfl⟩ := exists_of_override? htable
      simp only [Sources.addOverride, htable]
      exact .ok (halike.overlay_table entries)

namespace AgreeOutside

variable {t : Sources}

theorem layer (h : AgreeOutside part s t) (other : Part) :
    Alike part.name (Environment.layer other s.environment)
      (Environment.layer other t.environment) := by
  by_cases hpart : part = other
  · subst hpart
    obtain ⟨left, hleft, hdistinct, hnone⟩ := exists_layer part s.environment
    obtain ⟨right, hright, hdistinct', hnone'⟩ := exists_layer part t.environment
    refine ⟨⟨left, hleft, hdistinct⟩, ⟨right, hright, hdistinct'⟩, fun {asked} hasked => ?_⟩
    rw [hleft, hright, Value.at?_name, Value.at?_name, hnone asked hasked, hnone' asked hasked]
  · rw [← layer_filter hpart, h.environment, layer_filter hpart]
    obtain ⟨entries, heq, hdistinct, -⟩ := exists_layer other t.environment
    rw [heq]
    exact .refl hdistinct

theorem layers (h : AgreeOutside part s t) {left right : Value}
    (hleft : Toml.parse? s.file = some left) (hright : Toml.parse? t.file = some right)
    (other : Part) : Alike part.name (s.layers left other) (t.layers right other) := by
  have hfile : Alike part.name left right := by
    have hagree := h.file
    rw [hleft, hright, Option.rel_some_some] at hagree
    obtain ⟨entries, rfl⟩ := Toml.exists_of_parse? hleft
    obtain ⟨entries', rfl⟩ := Toml.exists_of_parse? hright
    exact ⟨⟨_, rfl, (Toml.tidy_of_parse? hleft).distinct⟩,
      ⟨_, rfl, (Toml.tidy_of_parse? hright).distinct⟩, hagree _⟩
  have hdefaults (other : Part) : Alike part.name other.defaults other.defaults :=
    .refl (Value.distinct_singleton _ _)
  have hlinks := ((hdefaults .transport).overlay hfile).overlay (h.layer .transport)
  cases other with
  | transport => exact hlinks
  | group => exact ((hdefaults .group).overlay hlinks).overlay (h.layer .group)

theorem layered (h : AgreeOutside part s t) (other : Part) :
    Matching part.name (s.layered other) (t.layered other) := by
  rw [Sources.layered, Sources.layered, h.overrides]
  refine List.foldl_rel ?_ fun entry _ _ _ hbelow => hbelow.addOverride entry
  have hfile := h.file
  cases hleft : Toml.parse? s.file with
  | none =>
    rw [hleft] at hfile
    cases hright : Toml.parse? t.file with
    | none => exact .error _
    | some _ => simp [hright] at hfile
  | some left =>
    rw [hleft] at hfile
    cases hright : Toml.parse? t.file with
    | none => simp [hright] at hfile
    | some right => exact .ok (h.layers hleft hright other)

/-- What the sources come to for a part is the same for sources that differ in another one only. -/
theorem sectionOf_eq {other : Part} (h : AgreeOutside part s t) (hother : other ≠ part) :
    s.sectionOf other = t.sectionOf other := by
  have hname : other.name ≠ part.name := by
    revert hother
    cases other <;> cases part <;> decide
  have hlayered := h.layered other
  rw [sectionOf, sectionOf]
  generalize s.layered other = left at hlayered ⊢
  generalize t.layered other = right at hlayered ⊢
  cases hlayered with
  | error e => rfl
  | ok halike =>
    show Section.find other.name _ = Section.find other.name _
    rw [Section.find, Section.find, halike.at?_eq hname]

end AgreeOutside

end Sources

end Collective.Settings
