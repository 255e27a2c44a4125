import Collective.Json.Basic

/-!
# Tokens of JSON texts

A text is cut into tokens by a machine that reads one byte at a time, so that a token ends where
the byte behind it says. `Token.print` writes tokens without blanks between them.
-/

namespace Collective.Json

/-- A token. -/
inductive Token where
  | openArray
  | closeArray
  | openObject
  | closeObject
  | colon
  | comma
  | null
  | bool (b : Bool)
  | number (n : Number)
  | string (pieces : List Piece)
  deriving DecidableEq, Repr

namespace Token

/-! ## Writing -/

/-- The symbol of a hexadecimal digit. -/
def hexDigit (n : Nat) : UInt8 := UInt8.ofNat (if n < 10 then 48 + n else 87 + n)

/-- The written form of a piece. -/
def printPiece : Piece → Bytes
  | .byte b =>
    if b = 34 then [92, 34]
    else if b = 92 then [92, 92]
    else match Piece.letter? b with
      | some letter => [92, letter]
      | none => [b]
  | .unit u =>
    let n := u.toNat
    [92, 117, hexDigit (n / 4096), hexDigit (n / 256 % 16), hexDigit (n / 16 % 16),
      hexDigit (n % 16)]

/-- The written form of a token. -/
def print : Token → Bytes
  | .openArray => [91]
  | .closeArray => [93]
  | .openObject => [123]
  | .closeObject => [125]
  | .colon => [58]
  | .comma => [44]
  | .null => "null".toUTF8.toList
  | .bool true => "true".toUTF8.toList
  | .bool false => "false".toUTF8.toList
  | .number n => n.print
  | .string pieces => 34 :: (pieces.flatMap printPiece ++ [34])

/-! ## Reading -/

/-- The number of a hexadecimal digit. -/
def hexValue? (b : UInt8) : Option Nat :=
  if 48 ≤ b ∧ b ≤ 57 then some (b.toNat - 48)
  else if 97 ≤ b ∧ b ≤ 102 then some (b.toNat - 87)
  else if 65 ≤ b ∧ b ≤ 70 then some (b.toNat - 55)
  else none

/-- A byte that may stand in a number. -/
def isNumeral (b : UInt8) : Bool :=
  (48 ≤ b && b ≤ 57) || b = 43 || b = 45 || b = 46 || b = 69 || b = 101

/-- A byte that may stand in a word. -/
def isLetter (b : UInt8) : Bool := 97 ≤ b && b ≤ 122

/-- Blanks between tokens. -/
def isSpace (b : UInt8) : Bool := b = 32 || b = 9 || b = 10 || b = 13

/-- The token that a word is. -/
def ofWord? (letters : Bytes) : Option Token :=
  if letters = print .null then some .null
  else if letters = print (.bool true) then some (.bool true)
  else if letters = print (.bool false) then some (.bool false)
  else none

/-- The token that a mark is. -/
def ofMark? (b : UInt8) : Option Token :=
  if b = 91 then some .openArray
  else if b = 93 then some .closeArray
  else if b = 123 then some .openObject
  else if b = 125 then some .closeObject
  else if b = 58 then some .colon
  else if b = 44 then some .comma
  else none

/-- What has been read of the current token; the latest byte or piece comes first. -/
inductive Scan where
  /-- Between tokens. -/
  | idle
  /-- In a word. -/
  | word (letters : Bytes)
  /-- In a number. -/
  | numeral (bytes : Bytes)
  /-- In a string. -/
  | text (pieces : List Piece)
  /-- In a string, behind a backslash. -/
  | escape (pieces : List Piece)
  /-- In a string, within a number of four digits of which `missing + 1` are to come. -/
  | code (pieces : List Piece) (missing : Nat) (value : Nat)

namespace Scan

/-- The next byte, between tokens: a complete token, or the start of one. -/
def start (b : UInt8) : Option (Scan × List Token) :=
  if isSpace b then some (.idle, [])
  else if b = 34 then some (.text [], [])
  else if isLetter b then some (.word [b], [])
  else if isNumeral b then some (.numeral [b], [])
  else (ofMark? b).map fun t => (.idle, [t])

/-- The token that ends here, followed by what the next byte starts. -/
def finishThen (token : Option Token) (b : UInt8) : Option (Scan × List Token) := do
  let token ← token
  let (next, tokens) ← start b
  some (next, token :: tokens)

/-- The piece that a letter behind a backslash stands for. -/
def escaped? (b : UInt8) : Option Piece :=
  if b = 34 ∨ b = 92 ∨ b = 47 then some (.byte b)
  else if b = 98 then some (.byte 8)
  else if b = 116 then some (.byte 9)
  else if b = 110 then some (.byte 10)
  else if b = 102 then some (.byte 12)
  else if b = 114 then some (.byte 13)
  else none

/-- One byte. -/
def step : Scan → UInt8 → Option (Scan × List Token)
  | .idle, b => start b
  | .word letters, b =>
    if isLetter b then some (.word (b :: letters), [])
    else finishThen (ofWord? letters.reverse) b
  | .numeral bytes, b =>
    if isNumeral b then some (.numeral (b :: bytes), [])
    else finishThen ((Number.parse? bytes.reverse).map .number) b
  | .text pieces, b =>
    if b = 34 then some (.idle, [.string pieces.reverse])
    else if b = 92 then some (.escape pieces, [])
    else if b < 0x20 then none
    else some (.text (.byte b :: pieces), [])
  | .escape pieces, b =>
    if b = 117 then some (.code pieces 3 0, [])
    else (escaped? b).map fun piece => (.text (piece :: pieces), [])
  | .code pieces missing value, b =>
    (hexValue? b).map fun digit =>
      match missing with
      | 0 => (.text (.unit (UInt16.ofNat (value * 16 + digit)) :: pieces), [])
      | missing + 1 => (.code pieces missing (value * 16 + digit), [])

/-- The end of the text. -/
def finish : Scan → Option (List Token)
  | .idle => some []
  | .word letters => (ofWord? letters.reverse).map ([·])
  | .numeral bytes => (Number.parse? bytes.reverse).map ([.number ·])
  | _ => none

/-- The tokens of a text from here on. -/
def run (scan : Scan) : Bytes → Option (List Token)
  | [] => scan.finish
  | b :: rest => do
    let (next, tokens) ← scan.step b
    let more ← next.run rest
    some (tokens ++ more)

end Scan

/-- The tokens of a text. -/
def scan? (bytes : Bytes) : Option (List Token) := Scan.run .idle bytes

end Token

end Collective.Json
