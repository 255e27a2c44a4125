import Collective.Proofs.Settings.Layering
import Collective.Settings.Load
import Mathlib.Data.List.Induction

/-!
# Names of variables and keys of overrides

A field of a part has one name among the variables, up to the case of its letters, and one key among
the overrides. Variables that name fields say of the section of their part what the last of them
says of each field (`gives_layer`), and variables never say anything of another section.
-/

namespace Collective.Settings

open Environment (lower behind? parts path? layer)
open Value (Gives Distinct)

namespace Part

/-- The names of the fields. -/
def fields (part : Part) : List String := part.usual.map Prod.fst

/-- The name of a variable starts with the mark of the part, whatever the case of its letters. -/
def marks (part : Part) (name : String) : Bool :=
  (part.mark.toList.map lower).isPrefixOf ((Text.trim name.toList).map lower)

/-- The name of a variable is that of a field, whatever the case of its letters. -/
def names (part : Part) (field name : String) : Bool :=
  (Text.trim name.toList).map lower = part.mark.toList.map lower ++ field.toList

/-- The key of a field among the overrides. -/
def key (part : Part) (field : String) : String := part.name ++ "." ++ field

variable {part : Part} {field name : String}

theorem marks_of_names (h : part.names field name) : part.marks name := by
  rw [names, decide_eq_true_eq] at h
  rw [marks, h]
  exact List.isPrefixOf_iff_prefix.2 (List.prefix_append _ _)

/-- A variable names one field. -/
theorem names_iff (h : part.names field name) (asked : String) :
    part.names asked name ↔ field = asked := by
  refine ⟨fun hasked => ?_, fun heq => heq ▸ h⟩
  rw [names, decide_eq_true_eq] at h hasked
  rw [h] at hasked
  exact String.toList_inj.1 (List.append_cancel_left hasked)

/-- Two texts that start one text belong to one part, if those of no two parts start one another. -/
theorem eq_of_prefix (start : Part → List Char) (hstart : ∀ a b, start a <+: start b → a = b)
    {other : Part} {cs : List Char} (h : start part <+: cs) (hother : start other <+: cs) :
    part = other := by
  rcases List.prefix_or_prefix_of_prefix h hother with h | h
  · exact hstart part other h
  · exact (hstart other part h).symm

theorem eq_of_marks {other : Part} (h : part.marks name) (hother : other.marks name) :
    part = other := by
  rw [marks, List.isPrefixOf_iff_prefix] at h hother
  refine eq_of_prefix (fun part => part.mark.toList.map lower) (fun a b => ?_) h hother
  cases a <;> cases b <;> decide

theorem key_eq_iff {other : Part} {asked : String} :
    part.key field = other.key asked ↔ part.name = other.name ∧ field = asked := by
  refine ⟨fun h => ?_, fun ⟨hname, hfield⟩ => by rw [key, key, hname, hfield]⟩
  have hlist : (part.name ++ ".").toList ++ field.toList =
      (other.name ++ ".").toList ++ asked.toList := by
    rw [← String.toList_append, ← String.toList_append]
    exact String.toList_inj.2 h
  have heq : part = other := by
    refine eq_of_prefix (fun part => (part.name ++ ".").toList) (fun a b => ?_)
      (List.prefix_append _ field.toList) (hlist ▸ List.prefix_append _ asked.toList)
    cases a <;> cases b <;> decide
  subst heq
  exact ⟨rfl, String.toList_inj.1 (List.append_cancel_left hlist)⟩

/-- The name of a field is one part of a path. -/
theorem plain_of_mem_fields (h : field ∈ part.fields) :
    '.' ∉ field.toList ∧ field.toList ≠ [] := by
  revert field
  cases part <;> decide

end Part

/-! ## Paths -/

theorem parts_eq_singleton {cs : List Char} (h : '.' ∉ cs) : parts cs = [cs] := by
  induction cs with
  | nil => rfl
  | cons c rest ih =>
    rw [parts, if_neg (List.ne_of_not_mem_cons h).symm, ih (List.not_mem_of_not_mem_cons h)]

theorem behind?_eq_some {mark name : List Char} (h : mark.map lower <+: name.map lower) :
    behind? mark name = some (name.drop mark.length) := by
  rw [List.prefix_iff_eq_take, List.length_map, ← List.map_take] at h
  rw [behind?, if_pos h.symm]

theorem behind?_eq_none {mark name : List Char} (h : ¬ mark.map lower <+: name.map lower) :
    behind? mark name = none := by
  rw [List.prefix_iff_eq_take, List.length_map, ← List.map_take] at h
  rw [behind?, if_neg (Ne.symm h)]

variable {part : Part} {field name : String}

theorem path?_of_names (hfield : field ∈ part.fields) (h : part.names field name) :
    path? part name = some [field] := by
  obtain ⟨hpoint, hempty⟩ := Part.plain_of_mem_fields hfield
  have hmarks := Part.marks_of_names h
  rw [Part.marks, List.isPrefixOf_iff_prefix] at hmarks
  rw [Part.names, decide_eq_true_eq] at h
  have hrest : ((Text.trim name.toList).drop part.mark.toList.length).map lower = field.toList := by
    rw [List.map_drop, h, ← List.length_map (f := lower), List.drop_left]
  rw [path?, behind?_eq_some hmarks, Option.bind_eq_bind, Option.bind_some]
  simp only [hrest, parts_eq_singleton hpoint]
  simp [hempty]

theorem path?_of_not_marks (h : ¬ part.marks name) : path? part name = none := by
  rw [Part.marks, List.isPrefixOf_iff_prefix] at h
  rw [path?, behind?_eq_none h]
  rfl

/-! ## Variables -/

/-- The variables that have the mark of a part name fields of it. -/
def Part.Addressed (part : Part) (given : List (String × String)) : Prop :=
  ∀ entry ∈ given, part.marks entry.1 → ∃ field ∈ part.fields, part.names field entry.1

/-- What variables say of a field: what the last one says that names it. -/
def Part.lastVariable? (part : Part) (given : List (String × String)) (field : String) :
    Option Value :=
  (given.reverse.find? (part.names field ·.1)).map fun (_, text) => Environment.read text

theorem Part.lastVariable?_concat (given : List (String × String)) (name text field : String) :
    part.lastVariable? (given ++ [(name, text)]) field =
      if part.names field name then some (Environment.read text)
      else part.lastVariable? given field := by
  simp only [lastVariable?, List.reverse_concat, List.find?_cons]
  cases part.names field name <;> rfl

theorem layer_concat_some {path : List String} (h : path? part name = some path)
    (given : List (String × String)) (text : String) :
    layer part (given ++ [(name, text)]) =
      (layer part given).overlay (.nest (part.name :: path) (Environment.read text)) := by
  rw [layer, List.foldl_append, List.foldl_cons, List.foldl_nil, ← layer]
  simp only [h]

theorem layer_concat_none (h : path? part name = none) (given : List (String × String))
    (text : String) : layer part (given ++ [(name, text)]) = layer part given := by
  rw [layer, List.foldl_append, List.foldl_cons, List.foldl_nil, ← layer]
  simp only [h]

/-- Variables that name fields say of their section what the last one says of each field. -/
theorem gives_layer {given : List (String × String)} (h : part.Addressed given) :
    Gives part.name (layer part given) (part.lastVariable? given) := by
  induction given using List.reverseRecOn with
  | nil => exact Value.gives_none Value.distinct_nil rfl
  | append_singleton given last ih =>
    obtain ⟨name, text⟩ := last
    have hbefore := ih fun entry hentry => h entry (List.mem_append_left _ hentry)
    by_cases hmarks : part.marks name
    · obtain ⟨field, hfield, hnames⟩ := h (name, text) (List.mem_concat_self ..) hmarks
      rw [layer_concat_some (path?_of_names hfield hnames)]
      refine (hbefore.overlay_nest part.name field _).congr fun asked => ?_
      simp only [part.lastVariable?_concat, Part.names_iff hnames, true_and]
    · rw [layer_concat_none (path?_of_not_marks hmarks)]
      refine hbefore.congr fun asked => ?_
      rw [part.lastVariable?_concat, if_neg fun hnames => hmarks (Part.marks_of_names hnames)]

/-- Variables never say anything of another section. -/
theorem exists_layer (part : Part) (given : List (String × String)) :
    ∃ entries, layer part given = .table entries ∧ Distinct entries ∧
      ∀ other, other ≠ part.name → Value.find? other entries = none := by
  induction given using List.reverseRecOn with
  | nil => exact ⟨[], rfl, Value.distinct_nil, fun _ _ => rfl⟩
  | append_singleton given last ih =>
    obtain ⟨entries, heq, hdistinct, hnone⟩ := ih
    cases hpath : path? part last.1 with
    | none =>
      rw [layer_concat_none hpath]
      exact ⟨entries, heq, hdistinct, hnone⟩
    | some path =>
      rw [layer_concat_some hpath, heq]
      refine ⟨_, Value.overlay_table _ _, hdistinct.overlayEntries _, fun other hother => ?_⟩
      rw [Value.find?_overlayEntries (Value.distinct_singleton _ _), Value.find?_cons,
        if_neg hother.symm, hnone other hother]
      rfl

/-- Variables with the mark of another part do not matter. -/
theorem layer_filter {other : Part} (h : other ≠ part) (given : List (String × String)) :
    layer part (given.filter (! other.marks ·.1)) = layer part given := by
  rw [layer, layer, List.foldl_filter]
  congr 1
  funext low entry
  cases hmarks : other.marks entry.1 with
  | false => rfl
  | true =>
    have hnone : path? part entry.1 = none :=
      path?_of_not_marks fun hown => h (Part.eq_of_marks hmarks hown)
    simp [hnone]

end Collective.Settings
