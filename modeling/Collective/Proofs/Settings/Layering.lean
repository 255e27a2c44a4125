import Collective.Settings.Value

/-!
# Sources laid over one another

A table laid over another says of each name what it says itself, and what the lower one says where
it is silent. For two tables with sections this comes down to the fields: a section that both have
is joined field by field, so that no field hides its siblings (`Gives.overlay`). What a table says
outside a section does not depend on that section of what it was laid over (`Alike.overlay`).
-/

namespace Collective.Settings.Value

variable {α : Type}

/-! ## Distinct names -/

/-- No name has two entries. -/
def Distinct (entries : List (String × α)) : Prop := (entries.map Prod.fst).Nodup

theorem mem_of_find? {name : String} {value : α} {entries : List (String × α)}
    (h : find? name entries = some value) : (name, value) ∈ entries := by
  obtain ⟨entry, hentry, rfl⟩ := Option.map_eq_some_iff.1 h
  have hname : entry.1 = name := by simpa using List.find?_some hentry
  exact hname ▸ List.mem_of_find?_eq_some hentry

theorem eq_or_mem_of_mem_put {name : String} {value : α} {entry : String × α}
    {entries : List (String × α)} (h : entry ∈ put name value entries) :
    entry = (name, value) ∨ entry ∈ entries := by
  induction entries with
  | nil => exact .inl (List.mem_singleton.1 h)
  | cons first rest ih =>
    rw [put] at h
    split at h
    · rcases List.mem_cons.1 h with h | h
      · exact .inl h
      · exact .inr (List.mem_cons_of_mem _ h)
    · rcases List.mem_cons.1 h with rfl | h
      · exact .inr List.mem_cons_self
      · exact (ih h).imp_right (List.mem_cons_of_mem _)

theorem find?_cons (other name : String) (value : α) (rest : List (String × α)) :
    find? other ((name, value) :: rest) = if name = other then some value else find? other rest := by
  by_cases h : name = other <;> simp [find?, h]

theorem distinct_nil : Distinct ([] : List (String × α)) := List.nodup_nil

theorem distinct_singleton (name : String) (value : α) : Distinct [(name, value)] :=
  List.pairwise_singleton _ name

namespace Distinct

theorem find?_eq_none {name : String} {value : α} {rest : List (String × α)}
    (h : Distinct ((name, value) :: rest)) : find? name rest = none := by
  cases hfind : find? name rest with
  | none => rfl
  | some found =>
    exact absurd (List.mem_map_of_mem (mem_of_find? hfind)) (List.nodup_cons.1 h).1

protected theorem put {entries : List (String × α)} (h : Distinct entries) (name : String)
    (value : α) : Distinct (put name value entries) := by
  induction entries with
  | nil => exact distinct_singleton name value
  | cons first rest ih =>
    obtain ⟨hfirst, hrest⟩ := List.nodup_cons.1 h
    rw [Value.put]
    split
    · next heq => exact List.nodup_cons.2 ⟨heq ▸ hfirst, hrest⟩
    · next hne =>
      refine List.nodup_cons.2 ⟨fun hmem => ?_, ih hrest⟩
      obtain ⟨entry, hentry, hname⟩ := List.mem_map.1 hmem
      rcases eq_or_mem_of_mem_put hentry with rfl | hentry
      · exact hne hname.symm
      · exact hfirst (List.mem_map.2 ⟨entry, hentry, hname⟩)

protected theorem overlayEntries {low : List (String × Value)} (h : Distinct low)
    (high : List (String × Value)) : Distinct (overlayEntries low high) := by
  induction high generalizing low with
  | nil => rwa [Value.overlayEntries]
  | cons entry rest ih =>
    rw [Value.overlayEntries]
    exact ih (h.put _ _)

end Distinct

/-- Tables have distinct names, at every depth that names lead to. -/
inductive Tidy : Value → Prop where
  | table {entries : List (String × Value)} (names : Distinct entries)
    (values : ∀ entry ∈ entries, Tidy entry.2) : Tidy (.table entries)
  | other {value : Value} (h : ∀ entries, value ≠ .table entries) : Tidy value

namespace Tidy

variable {entries : List (String × Value)}

theorem distinct (h : Tidy (.table entries)) : Distinct entries := by
  cases h with
  | table names _ => exact names
  | other h => exact absurd rfl (h entries)

protected theorem find? (h : Tidy (.table entries)) {name : String} {value : Value}
    (hfind : find? name entries = some value) : Tidy value := by
  cases h with
  | table _ values => exact values _ (mem_of_find? hfind)
  | other h => exact absurd rfl (h entries)

end Tidy

/-! ## Tables -/

/-- A value laid over what a lower table may have under the same name. -/
def atop (low : Option Value) (value : Value) : Value := low.elim value (·.overlay value)

/-- A table laid over another has what it says itself, laid over what the other says, and is silent
on nothing else. -/
theorem find?_overlayEntries {low high : List (String × Value)} (h : Distinct high)
    (name : String) :
    find? name (overlayEntries low high) =
      ((find? name high).map (atop (find? name low))).or (find? name low) := by
  induction high generalizing low with
  | nil => rw [overlayEntries]; rfl
  | cons entry rest ih =>
    obtain ⟨first, value⟩ := entry
    rw [overlayEntries, ih (List.nodup_cons.1 h).2, find?_put, find?_cons]
    by_cases hname : first = name
    · subst hname
      rw [if_pos rfl, if_pos rfl, h.find?_eq_none]
      cases find? first low <;> rfl
    · rw [if_neg hname, if_neg hname]

/-- What lies below a name matters to no other name. -/
theorem find?_overlayEntries_congr {name other : String} (hother : other ≠ name)
    {low low' : List (String × Value)}
    (hlow : ∀ other, other ≠ name → find? other low = find? other low')
    (high : List (String × Value)) :
    find? other (overlayEntries low high) = find? other (overlayEntries low' high) := by
  induction high generalizing low low' with
  | nil => rw [overlayEntries, overlayEntries, hlow other hother]
  | cons entry rest ih =>
    rw [overlayEntries, overlayEntries]
    refine ih fun asked hasked => ?_
    rw [find?_put, find?_put]
    by_cases hentry : entry.1 = asked
    · rw [if_pos hentry, if_pos hentry, hlow _ (hentry ▸ hasked)]
    · rw [if_neg hentry, if_neg hentry, hlow asked hasked]

/-! ## Sections -/

/-- Values that are the same, or both tables. No field takes a table, so it does not matter that one
laid over another is joined with it. -/
inductive Like : Value → Value → Prop where
  | refl (v : Value) : Like v v
  | tables (entries others : List (String × Value)) : Like (.table entries) (.table others)

theorem Like.trans {u v w : Value} (h : Like u v) (h' : Like v w) : Like u w := by
  cases h with
  | refl => exact h'
  | tables entries others =>
    cases h' with
    | refl => exact .tables _ _
    | tables => exact .tables _ _

theorem rel_like_refl (v : Option Value) : Option.Rel Like v v := by
  cases v with
  | none => exact .none
  | some v => exact .some (.refl v)

theorem like_atop (low : Option Value) (value : Value) : Like (atop low value) value := by
  cases low with
  | none => exact .refl value
  | some low =>
    rw [atop, Option.elim_some]
    cases value with
    | table high =>
      rw [overlay.eq_def]
      cases low with
      | table entries => exact .tables _ _
      | _ => exact .refl _
    | _ => exact .refl _

/-- A table whose section of a name, if it has one, is a table as well. -/
structure Sectioned (name : String) (v : Value) : Prop where
  table : ∃ entries, v = .table entries ∧ Distinct entries
  fields : ∀ {value}, at? [name] v = some value → ∃ fields, value = .table fields ∧ Distinct fields

/-- The section of a name gives to its fields the values listed. -/
structure Gives (name : String) (v : Value) (values : String → Option Value) : Prop
    extends Sectioned name v where
  values : ∀ field, Option.Rel Like (at? [name, field] v) (values field)

theorem at?_name (name : String) (entries : List (String × Value)) :
    at? [name] (.table entries) = find? name entries := by
  rw [at?]
  cases find? name entries <;> rfl

theorem at?_field (name field : String) (v : Value) :
    at? [name, field] v = (at? [name] v).bind (at? [field]) := by
  cases v with
  | table entries =>
    rw [at?, at?_name]
  | _ => rfl

theorem overlay_table (low high : List (String × Value)) :
    overlay (.table low) (.table high) = .table (overlayEntries low high) := by
  rw [overlay]

namespace Sectioned

variable {name : String} {low high : Value}

theorem at?_overlay (hlow : Sectioned name low) (hhigh : Sectioned name high) :
    at? [name] (low.overlay high) =
      ((at? [name] high).map (atop (at? [name] low))).or (at? [name] low) := by
  obtain ⟨lower, rfl, -⟩ := hlow.table
  obtain ⟨upper, rfl, hupper⟩ := hhigh.table
  rw [overlay_table, at?_name, at?_name, at?_name, find?_overlayEntries hupper]

theorem overlay (hlow : Sectioned name low) (hhigh : Sectioned name high) :
    Sectioned name (low.overlay high) where
  table := by
    obtain ⟨lower, rfl, hlower⟩ := hlow.table
    obtain ⟨upper, rfl, -⟩ := hhigh.table
    exact ⟨_, overlay_table lower upper, hlower.overlayEntries upper⟩
  fields {value} hvalue := by
    rw [hlow.at?_overlay hhigh] at hvalue
    cases hupper : at? [name] high with
    | none =>
      rw [hupper] at hvalue
      exact hlow.fields hvalue
    | some upper =>
      obtain ⟨above, rfl, habove⟩ := hhigh.fields hupper
      rw [hupper] at hvalue
      obtain rfl := Option.some.inj hvalue
      cases hlower : at? [name] low with
      | none => exact ⟨above, rfl, habove⟩
      | some lower =>
        obtain ⟨below, rfl, hbelow⟩ := hlow.fields hlower
        exact ⟨_, overlay_table below above, hbelow.overlayEntries above⟩

/-- A section that two sources have is joined field by field. -/
theorem at?_overlay_field (hlow : Sectioned name low) (hhigh : Sectioned name high)
    (field : String) :
    at? [name, field] (low.overlay high) =
      ((at? [name, field] high).map (atop (at? [name, field] low))).or (at? [name, field] low) := by
  rw [at?_field, at?_field, at?_field, hlow.at?_overlay hhigh]
  cases hupper : at? [name] high with
  | none => rfl
  | some upper =>
    obtain ⟨above, rfl, habove⟩ := hhigh.fields hupper
    cases hlower : at? [name] low with
    | none =>
      show at? [field] (.table above) = ((at? [field] (.table above)).map (atop none)).or none
      cases at? [field] (.table above) <;> rfl
    | some lower =>
      obtain ⟨below, rfl, -⟩ := hlow.fields hlower
      show at? [field] ((Value.table below).overlay (.table above)) = _
      rw [overlay_table, at?_name, find?_overlayEntries habove, Option.bind_some, Option.bind_some,
        at?_name, at?_name]

end Sectioned

theorem Gives.congr {name : String} {v : Value} {values others : String → Option Value}
    (h : Gives name v values) (heq : ∀ field, values field = others field) : Gives name v others :=
  funext heq ▸ h

/-- The fields of a section that are set above hide those below, and no others. -/
theorem Gives.overlay {name : String} {low high : Value} {below above : String → Option Value}
    (hlow : Gives name low below) (hhigh : Gives name high above) :
    Gives name (low.overlay high) fun field => (above field).or (below field) where
  toSectioned := hlow.toSectioned.overlay hhigh.toSectioned
  values field := by
    rw [hlow.toSectioned.at?_overlay_field hhigh.toSectioned field]
    have hupper := hhigh.values field
    generalize at? [name, field] high = upper at hupper ⊢
    generalize above field = value at hupper ⊢
    cases hupper with
    | none => exact hlow.values field
    | some hlike => exact .some ((like_atop _ _).trans hlike)

/-- A table with one section says what that section says. -/
theorem gives_section (name : String) {fields : List (String × Value)} (h : Distinct fields) :
    Gives name (.table [(name, .table fields)]) (find? · fields) where
  table := ⟨_, rfl, distinct_singleton _ _⟩
  fields {value} hvalue := by
    rw [at?_name, find?_cons, if_pos rfl] at hvalue
    exact ⟨fields, (Option.some.inj hvalue).symm, h⟩
  values field := by
    rw [at?_field, at?_name, find?_cons, if_pos rfl, Option.bind_some, at?_name]
    exact rel_like_refl _

/-- A table without a section says nothing of its fields. -/
theorem gives_none {name : String} {entries : List (String × Value)} (h : Distinct entries)
    (hnone : find? name entries = none) : Gives name (.table entries) fun _ => none where
  table := ⟨entries, rfl, h⟩
  fields {value} hvalue := by
    rw [at?_name, hnone] at hvalue
    cases hvalue
  values field := by
    rw [at?_field, at?_name, hnone]
    exact .none

/-- A value laid over the field of a section is what that field has, and changes no other. -/
theorem Gives.overlay_nest {name : String} {low : Value} {below : String → Option Value}
    (h : Gives name low below) (other field : String) (value : Value) :
    Gives name (low.overlay (nest [other, field] value)) fun asked =>
      if other = name ∧ field = asked then some value else below asked := by
  by_cases hother : other = name
  · subst hother
    refine (h.overlay (gives_section other (distinct_singleton field value))).congr fun asked => ?_
    rw [find?_cons]
    by_cases hfield : field = asked
    · rw [if_pos hfield, if_pos ⟨rfl, hfield⟩, Option.some_or]
    · rw [if_neg hfield, if_neg fun hboth => hfield hboth.2]
      rfl
  · have hnone : find? name [(other, nest [field] value)] = none := by
      rw [find?_cons, if_neg hother]
      rfl
    refine (h.overlay (gives_none (distinct_singleton _ _) hnone)).congr fun asked => ?_
    rw [if_neg fun hboth => hother hboth.1, Option.none_or]

/-- A tidy table says what stands in its section. -/
theorem Tidy.gives {name : String} {entries : List (String × Value)} (h : Tidy (.table entries))
    (hsection : ∀ v, find? name entries = some v → ∃ fields, v = .table fields) :
    Gives name (.table entries) fun field => at? [name, field] (.table entries) where
  table := ⟨entries, rfl, h.distinct⟩
  fields {value} hvalue := by
    rw [at?_name] at hvalue
    obtain ⟨fields, rfl⟩ := hsection value hvalue
    exact ⟨fields, rfl, (h.find? hvalue).distinct⟩
  values _ := rel_like_refl _

/-! ## Agreement outside a section -/

/-- Tables that say the same but for what they say under a name. -/
structure Alike (name : String) (v w : Value) : Prop where
  left : ∃ entries, v = .table entries ∧ Distinct entries
  right : ∃ entries, w = .table entries ∧ Distinct entries
  at?_eq : ∀ {other}, other ≠ name → at? [other] v = at? [other] w

namespace Alike

variable {name : String} {low low' high high' : Value}

theorem refl {entries : List (String × Value)} (h : Distinct entries) :
    Alike name (.table entries) (.table entries) :=
  ⟨⟨entries, rfl, h⟩, ⟨entries, rfl, h⟩, fun _ => rfl⟩

theorem overlay (hlow : Alike name low low') (hhigh : Alike name high high') :
    Alike name (low.overlay high) (low'.overlay high') := by
  obtain ⟨lower, rfl, hlower⟩ := hlow.left
  obtain ⟨lower', rfl, hlower'⟩ := hlow.right
  obtain ⟨upper, rfl, hupper⟩ := hhigh.left
  obtain ⟨upper', rfl, hupper'⟩ := hhigh.right
  refine ⟨⟨_, overlay_table _ _, hlower.overlayEntries _⟩,
    ⟨_, overlay_table _ _, hlower'.overlayEntries _⟩, fun {other} hother => ?_⟩
  have heqLow := hlow.at?_eq hother
  have heqHigh := hhigh.at?_eq hother
  rw [at?_name, at?_name] at heqLow heqHigh
  rw [overlay_table, overlay_table, at?_name, at?_name, find?_overlayEntries hupper,
    find?_overlayEntries hupper', heqLow, heqHigh]

/-- One table laid over two that are alike gives two that are alike. -/
theorem overlay_table (h : Alike name low low') (high : List (String × Value)) :
    Alike name (low.overlay (.table high)) (low'.overlay (.table high)) := by
  obtain ⟨lower, rfl, hlower⟩ := h.left
  obtain ⟨lower', rfl, hlower'⟩ := h.right
  refine ⟨⟨_, Value.overlay_table _ _, hlower.overlayEntries _⟩,
    ⟨_, Value.overlay_table _ _, hlower'.overlayEntries _⟩, fun {other} hother => ?_⟩
  rw [Value.overlay_table, Value.overlay_table, at?_name, at?_name]
  refine find?_overlayEntries_congr hother (fun asked hasked => ?_) high
  have heq := h.at?_eq hasked
  rwa [at?_name, at?_name] at heq

end Alike

end Collective.Settings.Value
