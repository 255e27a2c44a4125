import Collective.Toml.Scalar

/-!
# TOML documents

A document is a table, filled line by line: a key gives a value to a name of the present table, a
header makes another table the present one. Tables come to be in three ways (`Origin`), and a
table may be filled further only in some of them, so that nothing is defined twice. `parse?` gives
the table of a whole text.
-/

namespace Collective.Toml

open Settings (Value)
open Settings.Value (find? put)
open Text.Quoted (isPlain)

/-- How a table came to be. -/
inductive Origin where
  /-- A header has it on its path. -/
  | implied
  /-- A key with dots has it on its path. -/
  | dotted
  /-- It has a header of its own, or is the document. -/
  | declared
  deriving DecidableEq, Repr

/-- What a name of an unfinished document has. -/
inductive Node where
  | value (v : Value)
  | table (origin : Origin) (entries : List (String × Node))
  /-- An array of tables, the present one first. -/
  | tables (rows : List (List (String × Node)))

namespace Node

mutual

/-- The value of a finished node. -/
def toValue : Node → Value
  | .value v => v
  | .table _ entries => .table (toEntries entries)
  | .tables rows => .list (toRows rows).reverse

/-- The values of finished entries. -/
def toEntries : List (String × Node) → List (String × Value)
  | [] => []
  | (name, node) :: rest => (name, toValue node) :: toEntries rest

/-- The values of finished rows. -/
def toRows : List (List (String × Node)) → List Value
  | [] => []
  | row :: rest => .table (toEntries row) :: toRows rest

end

end Node

/-- The entries of an unfinished table. -/
abbrev Entries := List (String × Node)

/-- Entries with a change made to the table at the end of a path. Tables missing on the way come
to be; a key with dots does not enter a table that has a header. -/
def change (origin : Origin) (f : Origin → Entries → Option Entries) :
    List String → Origin → Entries → Option Entries
  | [], here, entries => f here entries
  | name :: path, _, entries =>
    match find? name entries with
    | none =>
      (change origin f path origin []).map fun inner => put name (.table origin inner) entries
    | some (.table there inner) =>
      if origin = .dotted ∧ there = .declared then none
      else (change origin f path there inner).map fun inner => put name (.table there inner) entries
    | some (.tables (row :: rows)) =>
      (change origin f path .declared row).map fun row => put name (.tables (row :: rows)) entries
    | some _ => none

/-- Entries with a value for a key. A key without dots belongs to a table that no key with dots
made, and one with dots to a table that such a key made. -/
def assign (path : List String) (name : String) (value : Value) :
    Origin → Entries → Option Entries :=
  change .dotted (fun here entries =>
    if (here = .dotted) = (path = []) ∨ (find? name entries).isSome then none
    else some (put name (.value value) entries)) path

/-- The document with a table of its own for a header. -/
def declareTable (path : List String) (name : String) (document : Entries) : Option Entries :=
  change .implied (fun _ entries =>
    match find? name entries with
    | none => some (put name (.table .declared []) entries)
    | some (.table .implied inner) => some (put name (.table .declared inner) entries)
    | some _ => none) path .declared document

/-- The document with one more table in the array of tables of a header. -/
def declareRow (path : List String) (name : String) (document : Entries) : Option Entries :=
  change .implied (fun _ entries =>
    match find? name entries with
    | none => some (put name (.tables [[]]) entries)
    | some (.tables rows) => some (put name (.tables ([] :: rows)) entries)
    | some _ => none) path .declared document

/-! ## Keys -/

/-- A text without the spaces at its start. -/
def skipSpaces (cs : List Char) : List Char := cs.dropWhile isSpace

/-- The characters of names without quotes. -/
def isBare (c : Char) : Bool := c.isAlphanum || c = '_' || c = '-'

/-- A name, and what follows it. -/
def name? (cs : List Char) : Option (String × List Char) :=
  match cs.span isBare with
  | ([], _) => line? cs
  | (bare, rest) => some (String.ofList bare, rest)

/-- The names of a key, at most `fuel` of them, and what follows the spaces behind them. -/
def names? : (fuel : Nat) → List Char → Option (List String × List Char)
  | 0, _ => none
  | fuel + 1, cs => do
    let (name, rest) ← name? (skipSpaces cs)
    match skipSpaces rest with
    | '.' :: rest =>
      let (names, rest) ← names? fuel rest
      return (name :: names, rest)
    | rest => return ([name], rest)

/-- The path and the last name of a key, and what follows the spaces behind it. -/
def key? (cs : List Char) : Option (List String × String × List Char) := do
  let (names, rest) ← names? cs.length cs
  return (names.dropLast, ← names.getLast?, rest)

/-! ## Values -/

/-- A text without the spaces, newlines and comments at its start. -/
def skipBlank : (comment : Bool) → List Char → List Char
  | _, [] => []
  | true, c :: rest =>
    if isPlain c then skipBlank true rest
    else if c = '\n' then skipBlank false rest
    else c :: rest
  | false, c :: rest =>
    if c = '#' then skipBlank true rest
    else if isSpace c ∨ c = '\n' then skipBlank false rest
    else c :: rest

mutual

/-- A value, and what follows it. -/
def value? : (fuel : Nat) → List Char → Option (Value × List Char)
  | 0, _ => none
  | fuel + 1, cs =>
    match cs with
    | '[' :: rest => do
      let (items, rest) ← items? fuel (skipBlank false rest)
      return (.list items, rest)
    | '{' :: rest =>
      match skipSpaces rest with
      | '}' :: rest => some (.table [], rest)
      | rest => do
        let (entries, rest) ← pairs? fuel [] rest
        return (.table (Node.toEntries entries), rest)
    | '"' :: _ => do
      let (text, rest) ← string? cs
      return (.text text, rest)
    | '\'' :: _ => do
      let (text, rest) ← string? cs
      return (.text text, rest)
    | _ => word? cs

/-- The items of an array up to its end; a comma may stand behind the last. -/
def items? : (fuel : Nat) → List Char → Option (List Value × List Char)
  | 0, _ => none
  | fuel + 1, cs =>
    match cs with
    | ']' :: rest => some ([], rest)
    | cs => do
      let (item, rest) ← value? fuel cs
      match skipBlank false rest with
      | ',' :: rest =>
        let (items, rest) ← items? fuel (skipBlank false rest)
        return (item :: items, rest)
      | ']' :: rest => return ([item], rest)
      | _ => none

/-- The entries of a table on one line up to its end, added to those before. -/
def pairs? : (fuel : Nat) → Entries → List Char → Option (Entries × List Char)
  | 0, _, _ => none
  | fuel + 1, entries, cs => do
    let (path, name, rest) ← key? cs
    let (value, rest) ← value? fuel (skipSpaces (← after? '=' rest))
    let entries ← assign path name value .declared entries
    match skipSpaces rest with
    | ',' :: rest => pairs? fuel entries rest
    | '}' :: rest => return (entries, rest)
    | _ => none

end

/-! ## Lines -/

/-- What follows the end of a line: spaces and a comment may stand before it. -/
def endLine? (cs : List Char) : Option (List Char) :=
  let rest := match skipSpaces cs with
    | '#' :: rest => rest.dropWhile isPlain
    | rest => rest
  match rest with
  | [] => some []
  | '\n' :: rest => some rest
  | _ => none

/-- A document part way through: its entries, and the path of the present table. -/
structure State where
  entries : Entries
  present : List String

/-- The state after the line at the start of a text, and what follows the line. -/
def line (s : State) (cs : List Char) : Option (State × List Char) :=
  match skipSpaces cs with
  | '[' :: '[' :: rest => do
    let (path, name, rest) ← key? rest
    let rest ← endLine? (← after? ']' (← after? ']' rest))
    return (⟨← declareRow path name s.entries, path ++ [name]⟩, rest)
  | '[' :: rest => do
    let (path, name, rest) ← key? rest
    let rest ← endLine? (← after? ']' rest)
    return (⟨← declareTable path name s.entries, path ++ [name]⟩, rest)
  | cs =>
    match endLine? cs with
    | some rest => some (s, rest)
    | none => do
      let (path, name, rest) ← key? cs
      let (value, rest) ← value? (2 * rest.length) (skipSpaces (← after? '=' rest))
      let rest ← endLine? rest
      return (⟨← change .implied (assign path name value) s.present .declared s.entries, s.present⟩,
        rest)

/-- The state after the lines of a text, at most `fuel` of them. -/
def lines : (fuel : Nat) → State → List Char → Option State
  | _, s, [] => some s
  | 0, _, _ => none
  | fuel + 1, s, cs => do
    let (s, rest) ← line s cs
    lines fuel s rest

/-- A text in which each line ends with a single line feed. -/
def unifyNewlines : List Char → List Char
  | '\r' :: '\n' :: rest => '\n' :: unifyNewlines rest
  | c :: rest => c :: unifyNewlines rest
  | [] => []

/-- A text without the mark of its byte order. -/
def dropMark : List Char → List Char
  | '\uFEFF' :: rest => rest
  | cs => cs

/-- The table that a text writes. -/
def parse? (text : String) : Option Value := do
  let cs := unifyNewlines (dropMark text.toList)
  let s ← lines cs.length ⟨[], []⟩ cs
  return .table (Node.toEntries s.entries)

end Collective.Toml
