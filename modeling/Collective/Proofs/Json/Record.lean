import Collective.Json.Record
import Collective.Proofs.Json.Text

/-!
# Forms of a record

A record may be written in more forms than the one in which it is sent: fields that have a default
may be left out, and members with names of their own may stand anywhere among the fields, as long
as texts are what they hold. In each of these forms the fields are found as they were given.
-/

namespace Collective.Json

/-- The members give fields their values, and some fields none. Texts under names that are not known
may stand among them. -/
inductive Gives (known : List String) :
    List (String × Option Json) → List (List Piece × Json) → Prop where
  | nil : Gives known [] []
  | given {name : String} {pieces : List Piece} {value : Json}
      {fields : List (String × Option Json)} {members : List (List Piece × Json)} :
      Piece.Spells pieces name → Gives known fields members →
      Gives known ((name, some value) :: fields) ((pieces, value) :: members)
  | omitted {name : String} {fields : List (String × Option Json)}
      {members : List (List Piece × Json)} : Gives known fields members →
      Gives known ((name, none) :: fields) members
  | extra {name text : String} {pieces value : List Piece} {fields : List (String × Option Json)}
      {members : List (List Piece × Json)} : name ∉ known → Piece.Spells pieces name →
      Piece.Spells value text → Gives known fields members →
      Gives known fields ((pieces, .string value) :: members)

/-- The value is an object that gives the fields their values and has no other member with the name
of a field. -/
def IsRecord (fields : List (String × Option Json)) (j : Json) : Prop :=
  ∃ members, j = .object members ∧ Gives (fields.map (·.1)) fields members

/-- What is given for a field that has a default: a form of its value, or nothing. -/
inductive IsDefaulted {α : Type} (default : α) (IsForm : α → Json → Prop) :
    α → Option Json → Prop where
  | given {a : α} {j : Json} : IsForm a j → IsDefaulted default IsForm a (some j)
  | omitted : IsDefaulted default IsForm default none

namespace Gives

variable {known : List String} {fields : List (String × Option Json)}
  {members : List (List Piece × Json)}

theorem mono {fewer : List String} (h : Gives known fields members) (hfewer : fewer ⊆ known) :
    Gives fewer fields members := by
  induction h with
  | nil => exact .nil
  | given hname _ ih => exact .given hname ih
  | omitted _ ih => exact .omitted ih
  | extra hknown hname hvalue _ ih => exact .extra (fun h => hknown (hfewer h)) hname hvalue ih

/-- Members in the written form of their names give each its value. -/
theorem ofMembers (known : List String) (members : List (String × Json)) :
    Gives known (members.map fun (name, value) => (name, some value))
      (members.map fun (name, value) => (Piece.ofText name, value)) := by
  induction members with
  | nil => exact .nil
  | cons member rest ih => exact .given (Piece.spells_ofText _) ih

/-- What holds of every value that is given and of every text holds of the value of every member,
and each member has a name. -/
theorem forall_mem {P : Json → Prop} (h : Gives known fields members)
    (hfields : ∀ field ∈ fields, ∀ value ∈ field.2, P value)
    (htexts : ∀ {pieces text}, Piece.Spells pieces text → P (.string pieces)) :
    ∀ member ∈ members, (∃ name, Piece.Spells member.1 name) ∧ P member.2 := by
  induction h with
  | nil => exact nofun
  | given hname _ ih =>
    obtain ⟨hfield, hrest⟩ := List.forall_mem_cons.1 hfields
    exact List.forall_mem_cons.2 ⟨⟨⟨_, hname⟩, hfield _ rfl⟩, ih hrest⟩
  | omitted _ ih => exact ih (List.forall_mem_cons.1 hfields).2
  | extra _ hname hvalue _ ih =>
    exact List.forall_mem_cons.2 ⟨⟨⟨_, hname⟩, htexts hvalue⟩, ih hfields⟩

/-- The members have names, and those with a known name are the ones that give its field. -/
theorem exists_namedMembers? (h : Gives known fields members) :
    ∃ named, namedMembers? members = some named ∧ ∀ name ∈ known,
      named.filter (·.1 == name) =
        (fields.filter (·.1 == name)).flatMap fun field => field.2.toList.map (field.1, ·) := by
  induction h with
  | nil => exact ⟨[], rfl, fun _ _ => rfl⟩
  | @given first pieces value fields members hname _ ih =>
    obtain ⟨named, hnamed, hfilter⟩ := ih
    refine ⟨(first, value) :: named, ?_, fun name hknown => ?_⟩
    · rw [namedMembers?] at hnamed ⊢
      simp [List.mapM_cons, hname.text?_eq, hnamed]
    · by_cases hfirst : first = name <;> simp [hfirst, hfilter name hknown]
  | @omitted first fields members _ ih =>
    obtain ⟨named, hnamed, hfilter⟩ := ih
    refine ⟨named, hnamed, fun name hknown => ?_⟩
    by_cases hfirst : first = name <;> simp [hfirst, hfilter name hknown]
  | @extra first text pieces value fields members hfirst hname _ _ ih =>
    obtain ⟨named, hnamed, hfilter⟩ := ih
    refine ⟨(first, .string value) :: named, ?_, fun name hknown => ?_⟩
    · rw [namedMembers?] at hnamed ⊢
      simp [List.mapM_cons, hname.text?_eq, hnamed]
    · have hne : first ≠ name := fun heq => hfirst (heq ▸ hknown)
      simp [hne, hfilter name hknown]

/-- The members without those of one field give the other fields. -/
theorem filter {tag : String} (h : Gives known fields members) (htag : tag ∈ known) :
    Gives known (fields.filter (·.1 != tag))
      (members.filter fun (name, _) => Piece.text? name != some tag) := by
  induction h with
  | nil => exact .nil
  | @given first pieces value fields members hname _ ih =>
    by_cases hfirst : first = tag
    · simpa [hname.text?_eq, hfirst] using ih
    · simpa [hname.text?_eq, hfirst] using Gives.given hname ih
  | @omitted first fields members _ ih =>
    by_cases hfirst : first = tag
    · simpa [hfirst] using ih
    · simpa [hfirst] using Gives.omitted ih
  | @extra first text pieces value fields members hfirst hname hvalue _ ih =>
    have hne : first ≠ tag := fun heq => hfirst (heq ▸ htag)
    simpa [hname.text?_eq, hne] using Gives.extra hfirst hname hvalue ih

/-- The value given for a field is found under its name. -/
theorem uniqueMember?_eq {named : List (String × Json)} {name : String} {value : Option Json}
    (hnodup : (fields.map (·.1)).Nodup) (hfield : (name, value) ∈ fields)
    (hfilter : named.filter (·.1 == name) =
      (fields.filter (·.1 == name)).flatMap fun field => field.2.toList.map (field.1, ·)) :
    uniqueMember? named name = some value := by
  have honly : fields.filter (·.1 == name) = [(name, value)] := by
    clear hfilter
    induction fields with
    | nil => cases hfield
    | cons first rest ih =>
      obtain ⟨hfirst, hrest⟩ := List.nodup_cons.1 hnodup
      rcases List.mem_cons.1 hfield with rfl | hfield
      · have hother : rest.filter (·.1 == name) = [] := by
          simp only [List.filter_eq_nil_iff, beq_iff_eq]
          exact fun field hfield heq => hfirst (List.mem_map.2 ⟨field, hfield, heq⟩)
        simp [hother]
      · have hne : first.1 ≠ name := fun heq => hfirst (List.mem_map.2 ⟨_, hfield, heq.symm⟩)
        simpa [hne] using ih hrest hfield
  rw [uniqueMember?, hfilter, honly]
  cases value <;> rfl

end Gives

namespace IsRecord

variable {fields : List (String × Option Json)} {j : Json}

theorem ofMembers (members : List (String × Json)) :
    IsRecord (members.map fun (name, value) => (name, some value)) (.ofMembers members) :=
  ⟨_, rfl, Gives.ofMembers _ members⟩

/-- The fields are found as they were given. -/
theorem fields?_eq (h : IsRecord fields j) (hnodup : (fields.map (·.1)).Nodup) :
    j.fields? (fields.map (·.1)) = some (.named (fields.map (·.2))) := by
  obtain ⟨members, rfl, hgives⟩ := h
  obtain ⟨named, hnamed, hfilter⟩ := hgives.exists_namedMembers?
  have hvalues : (fields.map (·.1)).mapM (uniqueMember? named) = some (fields.map (·.2)) := by
    rw [List.mapM_map]
    refine mapM_eq_some fun field hfield => ?_
    exact Gives.uniqueMember?_eq hnodup hfield (hfilter _ (List.mem_map.2 ⟨field, hfield, rfl⟩))
  rw [fields?, hnamed]
  show ((fields.map (·.1)).mapM (uniqueMember? named)).bind _ = _
  rw [hvalues]
  rfl

/-- A variant whose tag is the first field is the record of the others. -/
theorem variant? {tag : String} {value : Json} {τ : Type} {t : τ}
    (h : IsRecord ((tag, some value) :: fields) j)
    (hnodup : (((tag, some value) :: fields).map (·.1)).Nodup) (readTag : Json → Option τ)
    (ht : readTag value = some t) :
    ∃ rest, j.variant? tag readTag = some (t, rest) ∧ IsRecord fields rest := by
  obtain ⟨members, rfl, hgives⟩ := h
  obtain ⟨named, hnamed, hfilter⟩ := hgives.exists_namedMembers?
  have htag := Gives.uniqueMember?_eq hnodup List.mem_cons_self (hfilter tag List.mem_cons_self)
  have hothers : fields.filter (·.1 != tag) = fields := by
    simp only [List.filter_eq_self, bne_iff_ne]
    exact fun field hfield heq =>
      (List.nodup_cons.1 hnodup).1 (List.mem_map.2 ⟨field, hfield, heq⟩)
  have hrest := (hgives.filter (List.mem_cons_self (a := tag))).mono (List.subset_cons_self tag _)
  refine ⟨.object (members.filter fun (name, _) => Piece.text? name != some tag), ?_, _, rfl, ?_⟩
  · simp [Json.variant?, hnamed, htag, ht]
  · simpa [hothers] using hrest

theorem readsBack (h : IsRecord fields j)
    (hfields : ∀ field ∈ fields, ∀ value ∈ field.2, ReadsBack value) : ReadsBack j := by
  obtain ⟨members, rfl, hgives⟩ := h
  exact .object (hgives.forall_mem hfields ReadsBack.string)

theorem holds {levels : Nat} (h : IsRecord fields j) (hlevels : 1 < levels)
    (hfields : ∀ field ∈ fields, ∀ value ∈ field.2, value.holds (levels - 1) = true) :
    j.holds levels = true := by
  obtain ⟨members, rfl, hgives⟩ := h
  have hmembers := hgives.forall_mem (P := fun j => j.holds (levels - 1)) hfields
    fun htext => by simp [Json.holds, htext.text?_eq]
  have hall : holdsMembers (levels - 1) members = true := by
    clear hgives
    induction members with
    | nil => rfl
    | cons member rest ih =>
      obtain ⟨⟨⟨_, hname⟩, hvalue⟩, hrest⟩ := List.forall_mem_cons.1 hmembers
      simp [holdsMembers, hname.text?_eq, hvalue, ih hrest]
  simp [Json.holds, hall, hlevels]

end IsRecord

end Collective.Json
