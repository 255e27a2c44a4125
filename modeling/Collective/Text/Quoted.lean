/-!
# Quoted texts

A text between double quotes, in which a backslash starts an escape: a letter for one of a few
characters, or `u` and `U` with the four or eight hexadecimal digits of a character's number.
-/

namespace Collective.Text.Quoted

/-- The character may stand for itself between quotes and in comments: it is a tab or no control
character. -/
def isPlain (c : Char) : Bool := c = '\t' || (0x20 ≤ c.toNat && c.toNat ≠ 0x7F)

/-- The text up to the quote that ends it, escapes as they are written, and what follows. -/
def span? : List Char → Option (List Char × List Char)
  | [] => none
  | '"' :: rest => some ([], rest)
  | '\\' :: c :: rest => (span? rest).map fun (inside, after) => ('\\' :: c :: inside, after)
  | c :: rest => (span? rest).map fun (inside, after) => (c :: inside, after)

/-- The value of a hexadecimal digit. -/
def hexDigit? (c : Char) : Option Nat :=
  if '0' ≤ c ∧ c ≤ '9' then some (c.toNat - 48)
  else if 'a' ≤ c ∧ c ≤ 'f' then some (c.toNat - 87)
  else if 'A' ≤ c ∧ c ≤ 'F' then some (c.toNat - 55)
  else none

/-- The character whose number has these hexadecimal digits. -/
def character? (digits : List Char) : Option Char := do
  let values ← digits.mapM hexDigit?
  let code := values.foldl (fun n d => n * 16 + d) 0
  if code < 0xD800 ∨ (0xDFFF < code ∧ code < 0x110000) then some (Char.ofNat code) else none

/-- The character that a letter behind a backslash stands for. -/
def letter? (c : Char) : Option Char :=
  if c = 'b' then some '\x08'
  else if c = 't' then some '\t'
  else if c = 'n' then some '\n'
  else if c = 'f' then some '\x0c'
  else if c = 'r' then some '\r'
  else if c = '"' then some '"'
  else if c = '\\' then some '\\'
  else none

/-- The characters that a quoted text stands for; those that stand for themselves satisfy a
condition. -/
def unescape? (plain : Char → Bool) : List Char → Option (List Char)
  | [] => some []
  | '\\' :: 'u' :: a :: b :: c :: d :: rest => do
    let char ← character? [a, b, c, d]
    (unescape? plain rest).map (char :: ·)
  | '\\' :: 'U' :: a :: b :: c :: d :: e :: f :: g :: h :: rest => do
    let char ← character? [a, b, c, d, e, f, g, h]
    (unescape? plain rest).map (char :: ·)
  | '\\' :: c :: rest => do
    let char ← letter? c
    (unescape? plain rest).map (char :: ·)
  | c :: rest => if c ≠ '\\' ∧ plain c then (unescape? plain rest).map (c :: ·) else none

/-- The text that starts behind a quote, and what follows the quote that ends it. -/
def read? (cs : List Char) : Option (String × List Char) := do
  let (inside, after) ← span? cs
  let text ← unescape? isPlain inside
  return (String.ofList text, after)

end Collective.Text.Quoted
