/-!
# Tables

A table gives values to keys. Entries stand in the order of their keys, so that tables built from
the same entries in any order are equal. `get?` reads what `insert` and `erase` wrote.
-/

namespace Collective

/-- A finite map, as its entries in the order of their keys, each key once. -/
structure Table (κ α : Type) [LT κ] where
  entries : List (κ × α)
  sorted_keys : (entries.map (·.1)).Pairwise (· < ·)
  deriving DecidableEq, Repr

namespace Table

variable {κ α β ε : Type} [LT κ]

theorem ext {t u : Table κ α} (h : t.entries = u.entries) : t = u := by
  cases t
  cases u
  obtain rfl : _ = _ := h
  rfl

/-- No entries. -/
def empty : Table κ α := ⟨[], .nil⟩

/-- The number of entries. -/
def size (t : Table κ α) : Nat := t.entries.length

/-- The keys, in order. -/
def keys (t : Table κ α) : List κ := t.entries.map (·.1)

/-- The values, in the order of their keys. -/
def values (t : Table κ α) : List α := t.entries.map (·.2)

/-- The value of each entry changed. -/
def mapValues (f : κ → α → β) (t : Table κ α) : Table κ β where
  entries := t.entries.map fun (k, a) => (k, f k a)
  sorted_keys := by
    rw [List.map_map]
    exact t.sorted_keys

/-! ## Changes that may be refused -/

/-- Entries changed one after the other, until a change is refused. -/
def changeEntries (change : α → Except ε Unit × α) :
    List (κ × α) → Except ε Unit × List (κ × α)
  | [] => (.ok (), [])
  | (key, a) :: rest =>
    match change a with
    | (.ok (), a) =>
      let (answer, rest) := changeEntries change rest
      (answer, (key, a) :: rest)
    | (.error e, a) => (.error e, (key, a) :: rest)

omit [LT κ] in
theorem keys_changeEntries (change : α → Except ε Unit × α) (entries : List (κ × α)) :
    (changeEntries change entries).2.map (·.1) = entries.map (·.1) := by
  induction entries with
  | nil => rfl
  | cons entry rest ih =>
    rw [changeEntries]
    split
    · rw [List.map_cons, List.map_cons, ih]
    · rfl

/-- The table with its values changed one after the other, until a change is refused. -/
def changeEach (change : α → Except ε Unit × α) (t : Table κ α) : Except ε Unit × Table κ α :=
  let changed := changeEntries change t.entries
  (changed.1, ⟨changed.2, (keys_changeEntries change t.entries).symm ▸ t.sorted_keys⟩)

/-- What is made of each entry, unless one is refused. -/
def makeEntries (make : α → Except ε β) : (entries : List (κ × α)) →
    Except ε { made : List (κ × β) // made.map (·.1) = entries.map (·.1) }
  | [] => .ok ⟨[], rfl⟩
  | (key, a) :: rest => do
    let b ← make a
    let made ← makeEntries make rest
    .ok ⟨(key, b) :: made.1, congrArg (key :: ·) made.2⟩

/-- A table of what is made of each value, unless one is refused. -/
def makeEach (make : α → Except ε β) (t : Table κ α) : Except ε (Table κ β) :=
  (makeEntries make t.entries).map fun made => ⟨made.1, made.2.symm ▸ t.sorted_keys⟩

/-! ## Reading and writing -/

variable [DecidableEq κ]

/-- The value of a key. -/
def get? (t : Table κ α) (key : κ) : Option α := (t.entries.find? (·.1 = key)).map (·.2)

/-- The key has a value. -/
def contains (t : Table κ α) (key : κ) : Bool := (t.get? key).isSome

/-- The table without a key. -/
def erase (t : Table κ α) (key : κ) : Table κ α where
  entries := t.entries.filter (·.1 ≠ key)
  sorted_keys := t.sorted_keys.sublist (List.filter_sublist.map _)

section Entries

variable [DecidableLT κ]

/-- Entries with one more, in place of an entry of its key if there is one. -/
def insertEntry (key : κ) (value : α) : List (κ × α) → List (κ × α)
  | [] => [(key, value)]
  | (k, v) :: rest =>
    if k = key then (key, value) :: rest
    else if key < k then (key, value) :: (k, v) :: rest
    else (k, v) :: insertEntry key value rest

/-- No entry is new but the one that is added. -/
theorem mem_insertEntry {key : κ} {value : α} {entries : List (κ × α)} {entry : κ × α}
    (h : entry ∈ insertEntry key value entries) : entry = (key, value) ∨ entry ∈ entries := by
  induction entries with
  | nil => simpa [insertEntry] using h
  | cons first rest ih =>
    obtain ⟨k, v⟩ := first
    rw [insertEntry] at h
    split at h
    · rcases List.mem_cons.1 h with h | h
      · exact .inl h
      · exact .inr (List.mem_cons_of_mem _ h)
    · split at h
      · exact List.mem_cons.1 h
      · rcases List.mem_cons.1 h with h | h
        · exact .inr (h ▸ List.mem_cons_self)
        · exact (ih h).imp_right (List.mem_cons_of_mem _)

theorem find?_insertEntry (key other : κ) (value : α) (entries : List (κ × α)) :
    (insertEntry key value entries).find? (·.1 = other) =
      if key = other then some (key, value) else entries.find? (·.1 = other) := by
  induction entries with
  | nil => by_cases h : key = other <;> simp [insertEntry, h]
  | cons entry rest ih =>
    obtain ⟨k, v⟩ := entry
    rw [insertEntry]
    by_cases hk : k = key
    · subst hk
      by_cases h : k = other <;> simp [h]
    · rw [if_neg hk]
      by_cases hlt : key < k
      · rw [if_pos hlt]
        by_cases h : key = other <;> simp [h]
      · rw [if_neg hlt, List.find?_cons, ih]
        by_cases h : k = other
        · have hne : ¬ key = other := fun he => hk (h.trans he.symm)
          simp [h, hne]
        · simp [h]

/-- One more entry finds its place in the order of keys. -/
theorem pairwise_insertEntry [LE κ] [Std.LawfulOrderLT κ] [Std.IsLinearOrder κ] (key : κ)
    (value : α) {entries : List (κ × α)} (h : (entries.map (·.1)).Pairwise (· < ·)) :
    ((insertEntry key value entries).map (·.1)).Pairwise (· < ·) := by
  induction entries with
  | nil => exact List.pairwise_singleton _ _
  | cons entry rest ih =>
    obtain ⟨k, v⟩ := entry
    obtain ⟨hfirst, hrest⟩ := List.pairwise_cons.1 h
    rw [insertEntry]
    split
    · next heq =>
      subst heq
      exact List.pairwise_cons.2 ⟨hfirst, hrest⟩
    split
    · next hlt =>
      refine List.pairwise_cons.2 ⟨List.forall_mem_cons.2 ⟨hlt, ?_⟩, h⟩
      exact fun other hother => Std.lt_trans hlt (hfirst other hother)
    · next hne hlt =>
      refine List.pairwise_cons.2 ⟨?_, ih hrest⟩
      intro other hother
      obtain ⟨entry, hentry, rfl⟩ := List.mem_map.1 hother
      rcases mem_insertEntry hentry with rfl | hentry
      · exact Std.lt_of_le_of_ne (Std.not_lt.1 hlt) hne
      · exact hfirst _ (List.mem_map_of_mem hentry)

end Entries

variable [DecidableLT κ] [LE κ] [Std.LawfulOrderLT κ] [Std.IsLinearOrder κ]

/-- The table with a value for a key. -/
def insert (t : Table κ α) (key : κ) (value : α) : Table κ α :=
  ⟨insertEntry key value t.entries, pairwise_insertEntry key value t.sorted_keys⟩

/-- The table of entries, of which later ones win. -/
def ofList (entries : List (κ × α)) : Table κ α :=
  entries.foldl (fun t (k, v) => t.insert k v) empty

/-- The table with the value of a key changed, if it has one. -/
def modify (t : Table κ α) (key : κ) (f : α → α) : Table κ α :=
  match t.get? key with
  | some value => t.insert key (f value)
  | none => t

section Reading

omit [DecidableLT κ] [LE κ] [Std.LawfulOrderLT κ] [Std.IsLinearOrder κ]

/-- A value that can be read stands in an entry. -/
theorem mem_of_get? {t : Table κ α} {key : κ} {value : α} (h : t.get? key = some value) :
    (key, value) ∈ t.entries := by
  obtain ⟨⟨k, v⟩, hfind, rfl⟩ := Option.map_eq_some_iff.1 h
  have hkey : k = key := of_decide_eq_true (List.find?_some (p := fun e : κ × α => e.1 = key) hfind)
  exact hkey ▸ List.mem_of_find?_eq_some hfind

/-- Reading where every value has been changed. -/
@[simp] theorem get?_mapValues (f : κ → α → β) (t : Table κ α) (key : κ) :
    (t.mapValues f).get? key = (t.get? key).map (f key) := by
  rw [get?, get?, mapValues]
  dsimp only
  induction t.entries with
  | nil => rfl
  | cons entry rest ih =>
    by_cases h : entry.1 = key
    · subst h
      simp
    · simpa [h] using ih

/-- Reading after erasing. -/
theorem get?_erase (t : Table κ α) (key other : κ) :
    (t.erase key).get? other = if key = other then none else t.get? other := by
  have find : ∀ entries : List (κ × α),
      (entries.filter (·.1 ≠ key)).find? (·.1 = other) =
        if key = other then none else entries.find? (·.1 = other) := by
    intro entries
    induction entries with
    | nil => simp
    | cons entry rest ih =>
      by_cases hk : entry.1 = key <;> by_cases ho : key = other <;>
        by_cases he : entry.1 = other <;> simp_all
  rw [get?, erase, find]
  split <;> rfl

end Reading

/-- Writing leaves no new entry but the one it writes. -/
theorem mem_insert {t : Table κ α} {key : κ} {value : α} {entry : κ × α}
    (h : entry ∈ (t.insert key value).entries) : entry = (key, value) ∨ entry ∈ t.entries :=
  mem_insertEntry h

/-- Reading after writing. -/
theorem get?_insert (t : Table κ α) (key other : κ) (value : α) :
    (t.insert key value).get? other = if key = other then some value else t.get? other := by
  rw [get?, insert, find?_insertEntry]
  split <;> rfl

end Table

end Collective
