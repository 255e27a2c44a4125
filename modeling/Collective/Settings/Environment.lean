import Collective.Settings.Basic
import Collective.Settings.Value
import Collective.Text.Blank
import Collective.Text.Quoted

/-!
# Settings from variables

A variable of a section has the section's mark at the start of its name, whatever the case of its
letters, and the path of the value behind it. The text of a variable is a value in a notation for
tables, lists, quoted texts and numbers; a text that is none of these is itself the value.
-/

namespace Collective.Settings.Environment

/-! ## Numbers -/

/-- A decimal digit. -/
def isDigit (c : Char) : Bool := '0' ≤ c && c ≤ '9'

/-- The number that digits write, of which there is at least one. -/
def natural? (cs : List Char) : Option Nat :=
  if cs ≠ [] ∧ cs.all isDigit then some (cs.foldl (fun n c => n * 10 + (c.toNat - 48)) 0) else none

/-- An integer of 64 bits, with or without sign. -/
def integer? : List Char → Option Int
  | '-' :: ds => ((natural? ds).filter (· ≤ 2 ^ 63)).map fun n => -(n : Int)
  | '+' :: ds => ((natural? ds).filter (· < 2 ^ 64)).map Int.ofNat
  | ds => ((natural? ds).filter (· < 2 ^ 64)).map Int.ofNat

/-- The rest of a number with a point is empty or an exponent. -/
def isExponent : List Char → Bool
  | [] => true
  | mark :: rest =>
    (mark = 'e' || mark = 'E') &&
      match rest with
      | '+' :: ds => (natural? ds).isSome
      | '-' :: ds => (natural? ds).isSome
      | ds => (natural? ds).isSome

/-- The text writes a number with a point, on one side of which a digit stands. -/
def isReal (cs : List Char) : Bool :=
  let unsigned := match cs with
    | '+' :: rest => rest
    | '-' :: rest => rest
    | rest => rest
  match unsigned.span isDigit with
  | (whole, '.' :: rest) =>
    let (fraction, rest) := rest.span isDigit
    (whole ≠ [] || fraction ≠ []) && isExponent rest
  | _ => false

/-- The value of a text without marks: a number, or the text itself. -/
def plain (cs : List Char) : Value :=
  if isReal cs then .real
  else match integer? cs with
    | some i => .integer i
    | none => .text (String.ofList cs)

/-! ## Values -/

/-- A blank of ASCII. -/
def isBlank (c : Char) : Bool := c = ' ' || c = '\t' || c = '\n' || c = '\r' || c = '\x0c'

/-- The character is no mark between values. -/
def isInside (c : Char) : Bool := c ≠ ',' && c ≠ '\x7b' && c ≠ '\x7d' && c ≠ '[' && c ≠ ']'

/-- The characters of names without quotes. -/
def isBare (c : Char) : Bool := c.isAlphanum || c = '_' || c = '-'

/-- A text without the blanks at its start. -/
def skip (cs : List Char) : List Char := cs.dropWhile isBlank

/-- A name, and what follows the blanks behind it. -/
def name? (cs : List Char) : Option (String × List Char) :=
  match skip cs with
  | '"' :: rest => do
    let (name, rest) ← Text.Quoted.read? rest
    return (name, skip rest)
  | cs =>
    match cs.span isBare with
    | ([], _) => none
    | (bare, rest) => some (String.ofList bare, skip rest)

mutual

/-- A value, and what follows the blanks behind it. -/
def value? : (fuel : Nat) → List Char → Option (Value × List Char)
  | 0, _ => none
  | fuel + 1, cs =>
    match skip cs with
    | 't' :: 'r' :: 'u' :: 'e' :: rest => some (.bool true, skip rest)
    | 'f' :: 'a' :: 'l' :: 's' :: 'e' :: rest => some (.bool false, skip rest)
    | '\x7b' :: rest => do
      let (entries, rest) ← entries? fuel [] rest
      return (.table entries, skip rest)
    | '[' :: rest => do
      let (items, rest) ← items? fuel rest
      return (.list items, skip rest)
    | '"' :: rest => do
      let (text, rest) ← Text.Quoted.read? rest
      return (.text text, skip rest)
    | '\'' :: rest =>
      match rest with
      | c :: '\'' :: rest => some (.text (String.singleton c), skip rest)
      | _ => none
    | cs =>
      let (inside, rest) := cs.span isInside
      some (plain (Text.trim inside), rest)

/-- The items of a list up to its end; a comma may stand behind the last. -/
def items? : (fuel : Nat) → List Char → Option (List Value × List Char)
  | 0, _ => none
  | fuel + 1, cs =>
    match cs with
    | ']' :: rest => some ([], rest)
    | cs => do
      let (item, rest) ← value? fuel cs
      match rest with
      | ',' :: rest =>
        let (items, rest) ← items? fuel rest
        return (item :: items, rest)
      | ']' :: rest => return ([item], rest)
      | _ => none

/-- The entries of a table up to its end, added to those before; later ones win. -/
def entries? : (fuel : Nat) → List (String × Value) → List Char →
    Option (List (String × Value) × List Char)
  | 0, _, _ => none
  | fuel + 1, entries, cs =>
    match cs with
    | '\x7d' :: rest => some (entries, rest)
    | cs => do
      let (name, rest) ← name? cs
      match rest with
      | '=' :: rest =>
        let (value, rest) ← value? fuel rest
        match rest with
        | ',' :: rest => entries? fuel (Value.put name value entries) rest
        | '\x7d' :: rest => return (Value.put name value entries, rest)
        | _ => none
      | _ => none

end

/-- The value of a variable's text. -/
def read (text : String) : Value :=
  let cs := Text.trim text.toList
  match value? (2 * cs.length + 2) cs with
  | some (value, []) => value
  | _ => .text (String.ofList cs)

/-! ## Variables -/

/-- The small letter of a character. Beyond ASCII only the Kelvin sign has one of ASCII; what the
others have does not matter, since no setting goes by it. -/
def lower (c : Char) : Char := if c = '\u212A' then 'k' else c.toLower

/-- What follows a mark at the start of a name, without regard to case. -/
def behind? (mark name : List Char) : Option (List Char) :=
  if (name.take mark.length).map lower = mark.map lower then some (name.drop mark.length) else none

/-- A text cut at each point. -/
def parts : List Char → List (List Char)
  | [] => [[]]
  | c :: rest =>
    if c = '.' then [] :: parts rest
    else match parts rest with
      | [] => [[c]]
      | first :: more => (c :: first) :: more

/-- The path below a section that the name of a variable gives. -/
def path? (part : Part) (name : String) : Option (List String) := do
  let rest ← behind? part.mark.toList (Text.trim name.toList)
  let names := parts (rest.map lower)
  if names.any (·.isEmpty) then none else some (names.map String.ofList)

/-- What variables say about a section, later ones over earlier ones. -/
def layer (part : Part) (given : List (String × String)) : Value :=
  given.foldl (fun low (name, text) =>
    match path? part name with
    | some path => low.overlay (Value.nest (part.name :: path) (read text))
    | none => low) (.table [])

end Collective.Settings.Environment
