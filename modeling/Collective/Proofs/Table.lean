import Collective.Proofs.Answer
import Collective.Table

/-!
# Tables and their entries

A table is the one that is built from its own entries. What is done with all values of a table, one
after the other, is done with each, unless one of them is refused.
-/

namespace Collective.Table

section Changes

variable {κ α β ε : Type} [LT κ] {t : Table κ α}

/-- Values that all take a change are all changed. -/
theorem changeEach_eq {change : α → Except ε Unit × α}
    (h : ∀ entry ∈ t.entries, (change entry.2).1 = .ok ()) :
    t.changeEach change = (.ok (), t.mapValues fun _ a => (change a).2) := by
  have hentries : ∀ entries : List (κ × α), (∀ entry ∈ entries, (change entry.2).1 = .ok ()) →
      changeEntries change entries = (.ok (), entries.map fun e => (e.1, (change e.2).2)) := by
    intro entries hentries
    induction entries with
    | nil => rfl
    | cons entry rest ih =>
      obtain ⟨hfirst, hrest⟩ := List.forall_mem_cons.1 hentries
      have hhead : change entry.2 = (.ok (), (change entry.2).2) := Prod.ext hfirst rfl
      rw [changeEntries, hhead, ih hrest]
      rfl
  have hchanged := Prod.mk.inj (hentries t.entries h)
  exact Prod.ext hchanged.1 (ext hchanged.2)

omit [LT κ] in
theorem makeEntries_eq (make : α → Except ε β) (entries : List (κ × α)) :
    (makeEntries make entries).map Subtype.val =
      entries.mapM fun e => (make e.2).map fun b => (e.1, b) := by
  induction entries with
  | nil => rfl
  | cons entry rest ih =>
    rw [List.mapM_cons, ← ih, makeEntries]
    cases make entry.2 with
    | error e => rfl
    | ok b => cases makeEntries make rest <;> rfl

/-- A table is made where something is made of each value. -/
theorem makeEach_eq_ok {make : α → Except ε β} {f : α → β}
    (h : ∀ entry ∈ t.entries, make entry.2 = .ok (f entry.2)) :
    t.makeEach make = .ok (t.mapValues fun _ => f) := by
  have hmade := makeEntries_eq make t.entries
  rw [mapM_eq_ok (g := fun e => (e.1, f e.2)) fun e he => by rw [h e he]; rfl] at hmade
  rw [makeEach]
  cases hentries : makeEntries make t.entries with
  | error e =>
    rw [hentries] at hmade
    cases hmade
  | ok made =>
    rw [hentries] at hmade
    refine congrArg Except.ok (ext ?_)
    exact Except.ok.inj hmade

/-- No table is made where a value is refused, with the error of all that are refused. -/
theorem makeEach_eq_error {make : α → Except ε β} {e : ε}
    (h : ∀ entry ∈ t.entries, make entry.2 = .error e ∨ ∃ b, make entry.2 = .ok b)
    (hsome : ∃ entry ∈ t.entries, make entry.2 = .error e) : t.makeEach make = .error e := by
  have hmade := makeEntries_eq make t.entries
  have hrefused : ∀ entry : κ × α, make entry.2 = .error e →
      ((make entry.2).map fun b => (entry.1, b)) = .error e := fun entry he => by rw [he]; rfl
  obtain ⟨first, hmem, hfirst⟩ := hsome
  rw [mapM_eq_error (e := e) (fun entry hentry => ?_) ⟨first, hmem, hrefused first hfirst⟩] at hmade
  · rw [makeEach]
    cases hentries : makeEntries make t.entries with
    | error other =>
      rw [hentries] at hmade
      exact congrArg _ (Except.error.inj hmade)
    | ok made =>
      rw [hentries] at hmade
      cases hmade
  · obtain he | ⟨b, hb⟩ := h entry hentry
    · exact .inl (hrefused entry he)
    · exact .inr ⟨(entry.1, b), by rw [hb]; rfl⟩

end Changes

variable {κ α : Type} [DecidableEq κ] [LT κ] [DecidableLT κ] [LE κ] [Std.LawfulOrderLT κ]
  [Std.IsLinearOrder κ] {t : Table κ α} {key : κ} {value : α}

/-- A key above all others goes to the end. -/
theorem entries_insert_of_forall_lt (h : ∀ entry ∈ t.entries, entry.1 < key) :
    (t.insert key value).entries = t.entries ++ [(key, value)] := by
  change insertEntry key value t.entries = _
  revert h
  generalize t.entries = entries
  intro h
  induction entries with
  | nil => rfl
  | cons entry rest ih =>
    obtain ⟨hfirst, hrest⟩ := List.forall_mem_cons.1 h
    rw [insertEntry, if_neg (Std.ne_of_lt hfirst), if_neg (Std.not_gt_of_lt hfirst), ih hrest,
      List.cons_append]

/-- A table is built from its own entries. -/
theorem ofList_entries (t : Table κ α) : ofList t.entries = t := by
  have hall : ∀ (late : List (κ × α)) (early : Table κ α), t.entries = early.entries ++ late →
      late.foldl (fun t entry => t.insert entry.1 entry.2) early = t := by
    intro late
    induction late with
    | nil =>
      intro early hearly
      exact ext (by rw [hearly, List.append_nil]; rfl)
    | cons entry rest ih =>
      intro early hearly
      have hlt : ∀ other ∈ early.entries, other.1 < entry.1 := by
        intro other hother
        have hkeys := t.sorted_keys
        rw [hearly, List.map_append, List.map_cons] at hkeys
        exact (List.pairwise_append.1 hkeys).2.2 _ (List.mem_map_of_mem hother) _
          List.mem_cons_self
      refine ih _ ?_
      rw [entries_insert_of_forall_lt hlt, hearly, List.append_assoc, List.singleton_append]
  exact hall t.entries empty rfl

end Collective.Table
