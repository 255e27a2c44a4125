/-!
# Values of settings

What a source of settings says: tables of values under names. A source laid over another keeps of
the lower one what it does not set itself, table by table.
-/

namespace Collective.Settings

/-- A value as a source gives it. -/
inductive Value where
  | null
  | bool (b : Bool)
  | integer (i : Int)
  /-- A number with a fraction or an exponent. No setting takes one, so its size is not kept. -/
  | real
  | text (s : String)
  | list (items : List Value)
  | table (entries : List (String × Value))
  deriving Repr, Inhabited

namespace Value

/-- The entry of a name. -/
def find? (name : String) (entries : List (String × α)) : Option α :=
  (entries.find? (·.1 = name)).map (·.2)

/-- Entries with a value for a name, in place of the one it has. -/
def put (name : String) (value : α) : List (String × α) → List (String × α)
  | [] => [(name, value)]
  | (n, v) :: rest => if n = name then (name, value) :: rest else (n, v) :: put name value rest

theorem find?_put (name other : String) (value : α) (entries : List (String × α)) :
    find? other (put name value entries) =
      if name = other then some value else find? other entries := by
  induction entries with
  | nil => by_cases h : name = other <;> simp [put, find?, h]
  | cons entry rest ih =>
    obtain ⟨n, v⟩ := entry
    rw [put]
    by_cases hn : n = name
    · subst hn
      by_cases h : n = other <;> simp [find?, h]
    · rw [if_neg hn]
      by_cases h : n = other
      · have hne : ¬ name = other := fun e => hn (h.trans e.symm)
        simp [find?, h, hne]
      · simpa [find?, h] using ih

mutual

/-- A value laid over another: tables are joined, anything else hides what is below. -/
def overlay (low : Value) : Value → Value
  | .table high =>
    match low with
    | .table entries => .table (overlayEntries entries high)
    | _ => .table high
  | high => high

/-- Entries laid over those of another table. -/
def overlayEntries (low : List (String × Value)) : List (String × Value) → List (String × Value)
  | [] => low
  | (name, value) :: rest =>
    let merged := match find? name low with
      | some below => overlay below value
      | none => value
    overlayEntries (put name merged low) rest

end

/-- A value under a path of names. -/
def nest : List String → Value → Value
  | [], value => value
  | name :: path, value => .table [(name, nest path value)]

/-- The value at the end of a path of names. -/
def at? : List String → Value → Option Value
  | [], value => some value
  | name :: path, .table entries => (find? name entries).bind (at? path)
  | _ :: _, _ => none

end Value

end Collective.Settings
