import Collective.Json.Number
import Collective.Settings.Value
import Collective.Text.Quoted
import Collective.Text.Utf8

/-!
# Scalars of TOML

Strings in their four spellings, integers in four bases, numbers with a fraction or an exponent,
truth values and moments. A number or moment is a run of characters, read as a whole. Newlines are
single line feeds here: a text is brought into this form before it is read.
-/

namespace Collective.Toml

open Settings (Value)
open Text.Quoted (isPlain)

/-- A space or tab. -/
def isSpace (c : Char) : Bool := c = ' ' || c = '\t'

/-- A decimal digit. -/
def isDigit (c : Char) : Bool := '0' ≤ c && c ≤ '9'

/-! ## Strings -/

/-- The place at which a text of several lines ends: three quotes, before which up to two more
belong to the text. -/
def closing? (quote : Char) : List Char → Option (List Char × List Char)
  | a :: b :: c :: rest =>
    if a = quote ∧ b = quote ∧ c = quote then
      let extra := (rest.takeWhile (· = quote)).take 2
      some (extra, rest.drop extra.length)
    else none
  | _ => none

/-- The text up to the three quotes that end it, escapes as they are written, and what follows. -/
def spanLines? (quote : Char) (escapes : Bool) : List Char → Option (List Char × List Char)
  | [] => none
  | c :: rest =>
    match closing? quote (c :: rest) with
    | some found => some found
    | none =>
      match c, rest with
      | '\\', d :: rest =>
        if escapes then
          (spanLines? quote escapes rest).map fun (inside, after) => ('\\' :: d :: inside, after)
        else (spanLines? quote escapes (d :: rest)).map fun (inside, after) => (c :: inside, after)
      | c, rest => (spanLines? quote escapes rest).map fun (inside, after) => (c :: inside, after)

/-- Where a reader of a text of several lines stands. -/
inductive Place where
  /-- In the text. -/
  | inside
  /-- Behind a backslash. -/
  | escape
  /-- Behind a backslash and blanks: the line has to end. -/
  | lineEnd
  /-- At the blank start of a line that a backslash joined to the one before. -/
  | lineStart

/-- The text without the line ends that a backslash hides, and the blanks around them. -/
def joinLines? : Place → List Char → Option (List Char)
  | .inside, [] => some []
  | .lineStart, [] => some []
  | _, [] => none
  | .inside, c :: rest =>
    if c = '\\' then joinLines? .escape rest else (joinLines? .inside rest).map (c :: ·)
  | .escape, c :: rest =>
    if isSpace c then joinLines? .lineEnd rest
    else if c = '\n' then joinLines? .lineStart rest
    else (joinLines? .inside rest).map ('\\' :: c :: ·)
  | .lineEnd, c :: rest =>
    if isSpace c then joinLines? .lineEnd rest
    else if c = '\n' then joinLines? .lineStart rest
    else none
  | .lineStart, c :: rest =>
    if isSpace c ∨ c = '\n' then joinLines? .lineStart rest
    else if c = '\\' then joinLines? .escape rest
    else (joinLines? .inside rest).map (c :: ·)

/-- The character may stand in a text of several lines. -/
def isPlainOrNewline (c : Char) : Bool := isPlain c || c = '\n'

/-- A text without the newline at its start. -/
def dropNewline : List Char → List Char
  | '\n' :: rest => rest
  | cs => cs

/-- A string on one line, and what follows it. -/
def line? : List Char → Option (String × List Char)
  | '"' :: rest => Text.Quoted.read? rest
  | '\'' :: rest =>
    match rest.span (fun c => c ≠ '\'' && isPlain c) with
    | (inside, '\'' :: after) => some (String.ofList inside, after)
    | _ => none
  | _ => none

/-- A string, and what follows it. -/
def string? : List Char → Option (String × List Char)
  | '"' :: '"' :: '"' :: rest => do
    let (inside, after) ← spanLines? '"' true (dropNewline rest)
    let text ← Text.Quoted.unescape? isPlainOrNewline (← joinLines? .inside inside)
    return (String.ofList text, after)
  | '\'' :: '\'' :: '\'' :: rest => do
    let (inside, after) ← spanLines? '\'' false (dropNewline rest)
    if inside.all isPlainOrNewline then some (String.ofList inside, after) else none
  | cs => line? cs

/-! ## Numbers -/

/-- Digits among which single underscores stand, without these; `fresh` says that a digit has to
come next. -/
def separated? (digit : Char → Bool) (fresh : Bool) : List Char → Option (List Char)
  | [] => if fresh then none else some []
  | c :: rest =>
    if c = '_' then (if fresh then none else separated? digit true rest)
    else if digit c then (separated? digit false rest).map (c :: ·)
    else none

/-- A text with underscores between digits, without these. -/
def joinDigits? : (digitBefore : Bool) → List Char → Option (List Char)
  | _, [] => some []
  | before, '_' :: d :: rest =>
    if before ∧ isDigit d then (joinDigits? true rest).map (d :: ·) else none
  | _, c :: rest =>
    if c = '_' then none else (joinDigits? (isDigit c) rest).map (c :: ·)

/-- The integer if it has 64 bits with its sign. -/
def integer? (i : Int) : Option Value :=
  if -(2 ^ 63) ≤ i ∧ i < 2 ^ 63 then some (.integer i) else none

/-- The number of digits in a base. -/
def radix? (base : Nat) (cs : List Char) : Option Value := do
  let digits ← separated? (fun c => (Text.Quoted.hexDigit? c).any (· < base)) true cs
  integer? (digits.foldl (fun n c => n * base + ((Text.Quoted.hexDigit? c).getD 0)) 0 : Nat)

/-- The number that a run of characters without sign writes; too great a positive one is none. -/
def decimal? (negative : Bool) (cs : List Char) : Option Value := do
  let plain ← joinDigits? false cs
  let n ← Json.Number.parseUnsigned? negative (Utf8.encode (String.ofList plain))
  match n.fraction, n.exponent with
  | none, none =>
    let m := Json.Number.natOfDigits n.whole
    integer? (if negative then -(m : Int) else m)
  | _, _ => if negative ∨ n.toFloat?.isSome then some .real else none

/-- The number that a run of characters writes. -/
def number? : List Char → Option Value
  | '0' :: 'x' :: rest => radix? 16 rest
  | '0' :: 'o' :: rest => radix? 8 rest
  | '0' :: 'b' :: rest => radix? 2 rest
  | '+' :: rest => unsigned? false rest
  | '-' :: rest => unsigned? true rest
  | cs => unsigned? false cs
where
  /-- The number that a run of characters writes behind its sign. -/
  unsigned? (negative : Bool) (cs : List Char) : Option Value :=
    if cs = ['i', 'n', 'f'] ∨ cs = ['n', 'a', 'n'] then some .real else decimal? negative cs

/-! ## Moments -/

/-- The number that the next digits write, as many as asked for, and what follows them. -/
def digits? (count : Nat) (cs : List Char) : Option (Nat × List Char) :=
  let ds := cs.take count
  if ds.length = count ∧ ds.all isDigit then
    some (ds.foldl (fun n c => n * 10 + (c.toNat - 48)) 0, cs.drop count)
  else none

/-- What follows a character. -/
def after? (c : Char) : List Char → Option (List Char)
  | d :: rest => if c = d then some rest else none
  | [] => none

/-- The number of days of a month. -/
def daysIn (year month : Nat) : Nat :=
  if month = 2 then
    if year % 4 = 0 ∧ (year % 100 ≠ 0 ∨ year % 400 = 0) then 29 else 28
  else if month = 4 ∨ month = 6 ∨ month = 9 ∨ month = 11 then 30
  else 31

/-- What follows a date. -/
def afterDate? (cs : List Char) : Option (List Char) := do
  let (year, cs) ← digits? 4 cs
  let (month, cs) ← digits? 2 (← after? '-' cs)
  let (day, cs) ← digits? 2 (← after? '-' cs)
  if 1 ≤ month ∧ month ≤ 12 ∧ 1 ≤ day ∧ day ≤ daysIn year month then some cs else none

/-- What follows an hour and a minute. -/
def afterMinute? (cs : List Char) : Option (List Char) := do
  let (hour, cs) ← digits? 2 cs
  let (minute, cs) ← digits? 2 (← after? ':' cs)
  if hour < 24 ∧ minute < 60 then some cs else none

/-- What follows a time of day; a minute may have a leap second. -/
def afterTime? (cs : List Char) : Option (List Char) := do
  let (second, cs) ← digits? 2 (← after? ':' (← afterMinute? cs))
  if second ≤ 60 then
    match cs with
    | '.' :: rest =>
      match rest.span isDigit with
      | ([], _) => none
      | (_, after) => some after
    | cs => some cs
  else none

/-- The rest of a moment behind its time is empty or the difference from universal time. -/
def isOffset : List Char → Bool
  | [] => true
  | [c] => c = 'Z' || c = 'z'
  | c :: rest => (c = '+' || c = '-') && afterMinute? rest = some []

/-- The run of characters writes a date, a time of day or both. -/
def isMoment (cs : List Char) : Bool :=
  match afterDate? cs with
  | some [] => true
  | some (c :: rest) =>
    (c = 'T' || c = 't' || c = ' ') && (afterTime? rest).any isOffset
  | none => afterTime? cs = some []

/-- The characters of truth values, numbers and moments. -/
def isScalar (c : Char) : Bool :=
  c.isAlphanum || c = '_' || c = '+' || c = '-' || c = '.' || c = ':'

/-- A run of characters, with the time of day that a space separates from a date. -/
def run (cs : List Char) : List Char × List Char :=
  let (first, rest) := cs.span isScalar
  match rest with
  | ' ' :: d :: more =>
    if afterDate? first = some [] ∧ isDigit d then
      let (second, rest) := (d :: more).span isScalar
      (first ++ ' ' :: second, rest)
    else (first, rest)
  | rest => (first, rest)

/-- A scalar other than a string, and what follows it. A moment stands as a table without entries:
no setting takes one, and a section that is one sets nothing. -/
def word? (cs : List Char) : Option (Value × List Char) :=
  let (word, rest) := run cs
  if word = ['t', 'r', 'u', 'e'] then some (.bool true, rest)
  else if word = ['f', 'a', 'l', 's', 'e'] then some (.bool false, rest)
  else if isMoment word then some (.table [], rest)
  else (number? word).map (·, rest)

end Collective.Toml
