import Collective.Proofs.Settings.Layering
import Collective.Toml.Document

/-!
# Names of a document

A document gives no name twice: in its table, and in every table inside it, names are distinct.
This is kept line by line; a table that is still being filled has distinct names already.
-/

namespace Collective

namespace Toml

open Settings (Value)
open Settings.Value (find? put Distinct mem_of_find? eq_or_mem_of_mem_put)

/-! ## Unfinished tables -/

/-- What a name has gives no name twice. -/
inductive Node.Tidy : Node → Prop where
  | value {v : Value} (h : v.Tidy) : Tidy (.value v)
  | table {origin : Origin} {entries : Entries} (names : Distinct entries)
    (nodes : ∀ entry ∈ entries, Tidy entry.2) : Tidy (.table origin entries)
  | tables {rows : List Entries} : Tidy (.tables rows)

/-- A table that is being filled gives no name twice. -/
structure TidyEntries (entries : Entries) : Prop where
  names : Distinct entries
  nodes : ∀ entry ∈ entries, entry.2.Tidy

theorem tidyEntries_nil : TidyEntries [] := ⟨List.nodup_nil, nofun⟩

theorem tidyEntries_of_tidy {origin : Origin} {entries : Entries}
    (h : (Node.table origin entries).Tidy) : TidyEntries entries := by
  cases h with
  | table names nodes => exact ⟨names, nodes⟩

namespace TidyEntries

variable {entries : Entries} {name : String} {node : Node}

theorem table (h : TidyEntries entries) (origin : Origin) : (Node.table origin entries).Tidy :=
  .table h.names h.nodes

theorem find? (h : TidyEntries entries) (hfind : find? name entries = some node) : node.Tidy :=
  h.nodes _ (mem_of_find? hfind)

theorem put (h : TidyEntries entries) (hnode : node.Tidy) : TidyEntries (put name node entries) where
  names := h.names.put name node
  nodes entry hentry := by
    rcases eq_or_mem_of_mem_put hentry with rfl | hentry
    · exact hnode
    · exact h.nodes entry hentry

end TidyEntries

theorem Node.toEntries_eq_map (entries : Entries) :
    toEntries entries = entries.map fun entry => (entry.1, entry.2.toValue) := by
  induction entries with
  | nil => rw [toEntries, List.map_nil]
  | cons entry rest ih => rw [toEntries, ih, List.map_cons]

theorem Node.Tidy.toValue {node : Node} (h : node.Tidy) : node.toValue.Tidy := by
  induction h with
  | value h => rwa [Node.toValue]
  | tables =>
    rw [Node.toValue]
    exact .other nofun
  | table names _ ih =>
    rw [Node.toValue, Node.toEntries_eq_map]
    refine .table (by simpa [Distinct, Function.comp_def] using names) fun entry hentry => ?_
    obtain ⟨given, hgiven, rfl⟩ := List.mem_map.1 hentry
    exact ih given hgiven

theorem TidyEntries.toEntries {entries : Entries} (h : TidyEntries entries) :
    (Value.table (Node.toEntries entries)).Tidy := by
  simpa only [Node.toValue] using (h.table .declared).toValue

/-! ## Changes -/

/-- A change keeps names distinct if what it does at the end of its path keeps them so. -/
theorem TidyEntries.change {origin : Origin} {f : Origin → Entries → Option Entries}
    (hf : ∀ {here entries result}, TidyEntries entries → f here entries = some result →
      TidyEntries result) {path : List String} {here : Origin} {entries result : Entries}
    (h : TidyEntries entries) (hresult : change origin f path here entries = some result) :
    TidyEntries result := by
  induction path generalizing here entries result with
  | nil => exact hf h hresult
  | cons name path ih =>
    rw [Toml.change] at hresult
    split at hresult
    · obtain ⟨inner, hinner, rfl⟩ := Option.map_eq_some_iff.1 hresult
      exact h.put ((ih tidyEntries_nil hinner).table origin)
    · next there inner hfind =>
      split at hresult
      · cases hresult
      · obtain ⟨changed, hchanged, rfl⟩ := Option.map_eq_some_iff.1 hresult
        exact h.put ((ih (tidyEntries_of_tidy (h.find? hfind)) hchanged).table there)
    · obtain ⟨changed, -, rfl⟩ := Option.map_eq_some_iff.1 hresult
      exact h.put .tables
    · cases hresult

theorem TidyEntries.assign {path : List String} {name : String} {value : Value} {here : Origin}
    {entries result : Entries} (h : TidyEntries entries) (hvalue : value.Tidy)
    (hresult : assign path name value here entries = some result) : TidyEntries result := by
  refine h.change (fun hentries hput => ?_) hresult
  split at hput
  · cases hput
  · obtain rfl := Option.some.inj hput
    exact hentries.put (.value hvalue)

theorem TidyEntries.declareTable {path : List String} {name : String} {document result : Entries}
    (h : TidyEntries document) (hresult : declareTable path name document = some result) :
    TidyEntries result := by
  refine h.change (fun hentries hput => ?_) hresult
  split at hput
  · obtain rfl := Option.some.inj hput
    exact hentries.put (tidyEntries_nil.table .declared)
  · next hfind =>
    obtain rfl := Option.some.inj hput
    exact hentries.put ((tidyEntries_of_tidy (hentries.find? hfind)).table .declared)
  · cases hput

theorem TidyEntries.declareRow {path : List String} {name : String} {document result : Entries}
    (h : TidyEntries document) (hresult : declareRow path name document = some result) :
    TidyEntries result := by
  refine h.change (fun hentries hput => ?_) hresult
  split at hput
  · obtain rfl := Option.some.inj hput
    exact hentries.put .tables
  · obtain rfl := Option.some.inj hput
    exact hentries.put .tables
  · cases hput

/-! ## Values -/

theorem tidy_of_integer? {i : Int} {value : Value} (h : integer? i = some value) : value.Tidy := by
  rw [integer?] at h
  split at h
  · obtain rfl := Option.some.inj h
    exact .other nofun
  · cases h

theorem tidy_of_radix? {base : Nat} {cs : List Char} {value : Value}
    (h : radix? base cs = some value) : value.Tidy := by
  obtain ⟨_, _, h⟩ := Option.bind_eq_some_iff.1 h
  exact tidy_of_integer? h

theorem tidy_of_decimal? {negative : Bool} {cs : List Char} {value : Value}
    (h : decimal? negative cs = some value) : value.Tidy := by
  obtain ⟨_, _, h⟩ := Option.bind_eq_some_iff.1 h
  obtain ⟨_, _, h⟩ := Option.bind_eq_some_iff.1 h
  split at h
  · exact tidy_of_integer? h
  · split at h
    · obtain rfl := Option.some.inj h
      exact .other nofun
    · cases h

theorem tidy_of_unsigned? {negative : Bool} {cs : List Char} {value : Value}
    (h : number?.unsigned? negative cs = some value) : value.Tidy := by
  rw [number?.unsigned?] at h
  split at h
  · obtain rfl := Option.some.inj h
    exact .other nofun
  · exact tidy_of_decimal? h

theorem tidy_of_number? {cs : List Char} {value : Value} (h : number? cs = some value) :
    value.Tidy := by
  rw [number?.eq_def] at h
  split at h
  all_goals first | exact tidy_of_radix? h | exact tidy_of_unsigned? h

theorem tidy_of_word? {cs rest : List Char} {value : Value} (h : word? cs = some (value, rest)) :
    value.Tidy := by
  simp only [word?] at h
  split at h
  · cases h
    exact .other nofun
  split at h
  · cases h
    exact .other nofun
  split at h
  · cases h
    exact .table List.nodup_nil nofun
  · obtain ⟨number, hnumber, hvalue⟩ := Option.map_eq_some_iff.1 h
    cases hvalue
    exact tidy_of_number? hnumber

/-- What is read has distinct names: a value, and the entries of a table on one line. -/
theorem tidy_read (fuel : Nat) :
    (∀ {cs rest : List Char} {value : Value}, value? fuel cs = some (value, rest) → value.Tidy) ∧
      ∀ {entries result : Entries} {cs rest : List Char}, TidyEntries entries →
        pairs? fuel entries cs = some (result, rest) → TidyEntries result := by
  induction fuel with
  | zero => exact ⟨nofun, nofun⟩
  | succ fuel ih =>
    obtain ⟨ihvalue, ihpairs⟩ := ih
    constructor
    · intro cs rest value h
      rw [value?.eq_def] at h
      dsimp only at h
      split at h
      · obtain ⟨_, _, h⟩ := Option.bind_eq_some_iff.1 h
        cases h
        exact .other nofun
      · split at h
        · cases h
          exact .table List.nodup_nil nofun
        · obtain ⟨⟨entries, _⟩, hpairs, h⟩ := Option.bind_eq_some_iff.1 h
          cases h
          exact (ihpairs tidyEntries_nil hpairs).toEntries
      · obtain ⟨_, _, h⟩ := Option.bind_eq_some_iff.1 h
        cases h
        exact .other nofun
      · obtain ⟨_, _, h⟩ := Option.bind_eq_some_iff.1 h
        cases h
        exact .other nofun
      · exact tidy_of_word? h
    · intro entries result cs rest hentries h
      rw [pairs?] at h
      obtain ⟨⟨path, name, _⟩, _, h⟩ := Option.bind_eq_some_iff.1 h
      obtain ⟨_, _, h⟩ := Option.bind_eq_some_iff.1 h
      obtain ⟨⟨value, _⟩, hvalue, h⟩ := Option.bind_eq_some_iff.1 h
      obtain ⟨assigned, hassign, h⟩ := Option.bind_eq_some_iff.1 h
      have hassigned := hentries.assign (ihvalue hvalue) hassign
      split at h
      · exact ihpairs hassigned h
      · cases h
        exact hassigned
      · cases h

/-! ## Lines -/

theorem TidyEntries.line {s next : State} {cs rest : List Char} (h : TidyEntries s.entries)
    (hline : line s cs = some (next, rest)) : TidyEntries next.entries := by
  rw [Toml.line.eq_def] at hline
  split at hline
  · obtain ⟨_, _, hline⟩ := Option.bind_eq_some_iff.1 hline
    obtain ⟨_, _, hline⟩ := Option.bind_eq_some_iff.1 hline
    obtain ⟨_, _, hline⟩ := Option.bind_eq_some_iff.1 hline
    obtain ⟨_, _, hline⟩ := Option.bind_eq_some_iff.1 hline
    obtain ⟨_, hrow, hline⟩ := Option.bind_eq_some_iff.1 hline
    cases hline
    exact h.declareRow hrow
  · obtain ⟨_, _, hline⟩ := Option.bind_eq_some_iff.1 hline
    obtain ⟨_, _, hline⟩ := Option.bind_eq_some_iff.1 hline
    obtain ⟨_, _, hline⟩ := Option.bind_eq_some_iff.1 hline
    obtain ⟨_, htable, hline⟩ := Option.bind_eq_some_iff.1 hline
    cases hline
    exact h.declareTable htable
  · split at hline
    · cases hline
      exact h
    · obtain ⟨_, _, hline⟩ := Option.bind_eq_some_iff.1 hline
      obtain ⟨_, _, hline⟩ := Option.bind_eq_some_iff.1 hline
      obtain ⟨⟨value, _⟩, hvalue, hline⟩ := Option.bind_eq_some_iff.1 hline
      obtain ⟨_, _, hline⟩ := Option.bind_eq_some_iff.1 hline
      obtain ⟨_, hchange, hline⟩ := Option.bind_eq_some_iff.1 hline
      cases hline
      have htidy := (tidy_read _).1 hvalue
      exact h.change (fun hentries hassign => hentries.assign htidy hassign) hchange

theorem TidyEntries.lines {fuel : Nat} {s last : State} {cs : List Char} (h : TidyEntries s.entries)
    (hlines : lines fuel s cs = some last) : TidyEntries last.entries := by
  induction fuel generalizing s cs with
  | zero =>
    cases cs with
    | nil => exact Option.some.inj hlines ▸ h
    | cons => cases hlines
  | succ fuel ih =>
    cases cs with
    | nil => exact Option.some.inj hlines ▸ h
    | cons c cs =>
      obtain ⟨⟨next, rest⟩, hline, hlines⟩ := Option.bind_eq_some_iff.1 hlines
      exact ih (h.line hline) hlines

/-- What a document says gives no name twice. -/
theorem tidy_of_parse? {text : String} {value : Value} (h : parse? text = some value) :
    value.Tidy := by
  obtain ⟨last, hlast, h⟩ := Option.bind_eq_some_iff.1 h
  cases h
  exact (tidyEntries_nil.lines hlast).toEntries

/-- What a document says is a table. -/
theorem exists_of_parse? {text : String} {value : Value} (h : parse? text = some value) :
    ∃ entries, value = .table entries := by
  obtain ⟨last, _, h⟩ := Option.bind_eq_some_iff.1 h
  cases h
  exact ⟨_, rfl⟩

end Toml

end Collective
