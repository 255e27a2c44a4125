import Collective.Text.Bytes

/-!
# UTF-8

`encode` writes a text and `decode` reads one, naming the first fault: the bytes at which no
character can be completed, or the unfinished character at the end. Overlong forms, surrogates and
numbers beyond the last character are faults.
-/

namespace Collective.Utf8

/-- Why bytes are no UTF-8 text. -/
inductive Fault where
  /-- The `length` bytes at `start` begin no character. -/
  | invalid (length start : Nat)
  /-- The text ends within the character at `start`. -/
  | incomplete (start : Nat)
  deriving DecidableEq, Repr

/-- The wording of a fault. -/
def Fault.message : Fault → String
  | .invalid length start => s!"invalid utf-8 sequence of {length} bytes from index {start}"
  | .incomplete start => s!"incomplete utf-8 byte sequence from index {start}"

/-- The bytes of a text. -/
def encode (text : String) : Bytes := text.toList.flatMap String.utf8EncodeChar

/-- A character of which some bytes have been read. -/
structure Unfinished where
  /-- The position of its first byte. -/
  start : Nat
  /-- How many of its bytes have been read. -/
  read : Nat
  /-- How many bytes follow the next one. -/
  later : Nat
  /-- The least value of the next byte. -/
  low : UInt8
  /-- The greatest value of the next byte. -/
  high : UInt8
  /-- The number that the bytes read so far stand for. -/
  code : Nat

/-- What a first byte of at least `0x80` promises, if it may start a character. -/
def Unfinished.ofLead? (start : Nat) (b : UInt8) : Option Unfinished :=
  if 0xC2 ≤ b ∧ b ≤ 0xDF then some ⟨start, 1, 0, 0x80, 0xBF, b.toNat % 32⟩
  else if b = 0xE0 then some ⟨start, 1, 1, 0xA0, 0xBF, 0⟩
  else if b = 0xED then some ⟨start, 1, 1, 0x80, 0x9F, 13⟩
  else if 0xE1 ≤ b ∧ b ≤ 0xEF then some ⟨start, 1, 1, 0x80, 0xBF, b.toNat % 16⟩
  else if b = 0xF0 then some ⟨start, 1, 2, 0x90, 0xBF, 0⟩
  else if 0xF1 ≤ b ∧ b ≤ 0xF3 then some ⟨start, 1, 2, 0x80, 0xBF, b.toNat % 8⟩
  else if b = 0xF4 then some ⟨start, 1, 2, 0x80, 0x8F, 4⟩
  else none

/-- Reads characters from position `index` on, after the bytes of an unfinished one if there is
one. -/
def decodeFrom (index : Nat) : Option Unfinished → Bytes → Except Fault (List Char)
  | none, [] => .ok []
  | some u, [] => .error (.incomplete u.start)
  | none, b :: rest =>
    if b < 0x80 then (decodeFrom (index + 1) none rest).map (Char.ofNat b.toNat :: ·)
    else match Unfinished.ofLead? index b with
      | none => .error (.invalid 1 index)
      | some u => decodeFrom (index + 1) (some u) rest
  | some u, b :: rest =>
    if u.low ≤ b ∧ b ≤ u.high then
      let code := u.code * 64 + b.toNat % 64
      match u.later with
      | 0 => (decodeFrom (index + 1) none rest).map (Char.ofNat code :: ·)
      | later + 1 =>
        decodeFrom (index + 1) (some ⟨u.start, u.read + 1, later, 0x80, 0xBF, code⟩) rest
    else .error (.invalid u.read u.start)

/-- The text that the bytes write. -/
def decode (bytes : Bytes) : Except Fault String :=
  (decodeFrom 0 none bytes).map String.ofList

/-- The text that the bytes write, if they write one. -/
def decode? (bytes : Bytes) : Option String := (decode bytes).toOption

end Collective.Utf8
