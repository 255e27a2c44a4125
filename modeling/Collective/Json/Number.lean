import Collective.Text.Bytes

/-!
# Numbers of JSON texts

A number is kept as it is written: sign, digits, and the digits of fraction and exponent if it has
them. It denotes an integer only without fraction and exponent, and minus zero denotes none.
As a double it is its leading digits, as many as fit 64 bits, multiplied or divided by a power
of ten. `Number.parse?` reads what `Number.print` writes and nothing else.
-/

namespace Collective.Json

/-- The exponent of a number. -/
structure Exponent where
  /-- The mark is a capital letter. -/
  capital : Bool
  /-- The sign, if one is written; `true` is minus. -/
  sign : Option Bool
  digits : List (Fin 10)
  deriving DecidableEq, Repr

/-- A number as it is written. -/
structure Number where
  negative : Bool
  whole : List (Fin 10)
  fraction : Option (List (Fin 10))
  exponent : Option Exponent
  deriving DecidableEq, Repr

namespace Number

/-- The digit that a byte writes. -/
def digit? (b : UInt8) : Option (Fin 10) :=
  if h : 48 ≤ b.toNat ∧ b.toNat < 58 then some ⟨b.toNat - 48, by omega⟩ else none

/-- The byte that writes a digit. -/
def digitByte (d : Fin 10) : UInt8 := UInt8.ofNat (48 + d.val)

/-- The digits at the start of a byte string, and what follows them. -/
def spanDigits : Bytes → List (Fin 10) × Bytes
  | [] => ([], [])
  | b :: rest =>
    match digit? b with
    | some d => let (ds, after) := spanDigits rest; (d :: ds, after)
    | none => ([], b :: rest)

/-- The number whose decimal digits these are. -/
def natOfDigits (ds : List (Fin 10)) : Nat := ds.foldl (fun n d => n * 10 + d.val) 0

/-- The decimal digits of a number; zero has one. -/
def digitsOfNat (n : Nat) : List (Fin 10) :=
  if h : n < 10 then [⟨n, h⟩]
  else digitsOfNat (n / 10) ++ [⟨n % 10, Nat.mod_lt _ (by omega)⟩]

/-! ## Text -/

def Exponent.print (e : Exponent) : Bytes :=
  (if e.capital then 69 else 101) ::
    ((match e.sign with
      | none => []
      | some true => [45]
      | some false => [43]) ++ e.digits.map digitByte)

/-- The text of a number. -/
def print (n : Number) : Bytes :=
  (if n.negative then [45] else []) ++ n.whole.map digitByte
    ++ (match n.fraction with
      | none => []
      | some ds => 46 :: ds.map digitByte)
    ++ (match n.exponent with
      | none => []
      | some e => Exponent.print e)

/-- Digits at least one of which is there, and nothing behind them. -/
def allDigits? (bytes : Bytes) : Option (List (Fin 10)) :=
  match spanDigits bytes with
  | (d :: ds, []) => some (d :: ds)
  | _ => none

/-- The exponent that makes up the rest of a number, which may be empty. -/
def parseExponent? : Bytes → Option (Option Exponent)
  | [] => some none
  | mark :: rest =>
    if mark = 101 ∨ mark = 69 then
      match rest with
      | 43 :: ds => (allDigits? ds).map fun ds => some ⟨mark == 69, some false, ds⟩
      | 45 :: ds => (allDigits? ds).map fun ds => some ⟨mark == 69, some true, ds⟩
      | ds => (allDigits? ds).map fun ds => some ⟨mark == 69, none, ds⟩
    else none

/-- The fraction and exponent that make up the rest of a number. -/
def parseTail? (negative : Bool) (whole : List (Fin 10)) : Bytes → Option Number
  | 46 :: rest =>
    match spanDigits rest with
    | (d :: ds, after) =>
      (parseExponent? after).map fun e => ⟨negative, whole, some (d :: ds), e⟩
    | ([], _) => none
  | rest => (parseExponent? rest).map fun e => ⟨negative, whole, none, e⟩

/-- The number that a text without sign writes. -/
def parseUnsigned? (negative : Bool) (bytes : Bytes) : Option Number :=
  match spanDigits bytes with
  | ([], _) => none
  | (d :: ds, rest) => if d.val = 0 ∧ ds ≠ [] then none else parseTail? negative (d :: ds) rest

/-- The number that a text writes. -/
def parse? : Bytes → Option Number
  | 45 :: rest => parseUnsigned? true rest
  | bytes => parseUnsigned? false bytes

/-! ## Integers -/

/-- The integer that a number denotes. -/
def toInt? (n : Number) : Option Int :=
  match n.fraction, n.exponent with
  | none, none =>
    let m := natOfDigits n.whole
    if n.negative then (if m = 0 then none else some (-(m : Int))) else some m
  | _, _ => none

/-- The written form of an integer. -/
def ofInt (i : Int) : Number := ⟨decide (i < 0), digitsOfNat i.natAbs, none, none⟩

/-! ## Doubles -/

/-- Digits taken into a significand of 64 bits: the significand, and the digits left when the next
one no longer fits. -/
def fill (significand : Nat) : List (Fin 10) → Nat × List (Fin 10)
  | [] => (significand, [])
  | d :: ds =>
    if significand * 10 + d.val < 2 ^ 64 then fill (significand * 10 + d.val) ds
    else (significand, d :: ds)

/-- A significand and a power of ten near the number: digits of the whole part that do not fit
raise the power, digits of the fraction that do not fit are dropped. -/
def scaled (n : Number) : Nat × Int :=
  let (significand, left) := fill 0 n.whole
  match n.fraction with
  | none => (significand, left.length)
  | some ds =>
    let (filled, dropped) := fill significand ds
    (filled, (left.length : Int) - (ds.length - dropped.length : Nat))

/-- A power of ten that a double can hold. -/
def pow10 (e : Nat) : Float := Float.ofScientific 1 false e

/-- A double divided by a power of ten, at most `10 ^ 308` at a time. -/
def shrink (x : Float) (e : Nat) : Float :=
  if h : 308 < e then
    if x == 0 then x else shrink (x / pow10 308) (e - 308)
  else x / pow10 e
termination_by e
decreasing_by omega

/-- A significand times a power of ten, unless a double cannot hold it. -/
def scale? (significand : Nat) (power : Int) : Option Float :=
  let x := (UInt64.ofNat significand).toFloat
  if power < 0 then some (shrink x power.natAbs)
  else if power ≤ 308 then
    let y := x * pow10 power.natAbs
    if y.isInf then none else some y
  else if significand = 0 then some x
  else none

/-- The power of ten that an exponent adds; beyond 31 bits it outweighs every digit. -/
def exponentPower (e : Exponent) : Int :=
  let m := natOfDigits e.digits
  if e.sign = some true then -(m : Int) else m

/-- The double near a number, unless it lies beyond the greatest one. -/
def toFloat? (n : Number) : Option Float :=
  let (significand, power) := n.scaled
  let magnitude : Option Float :=
    match n.exponent with
    | none => scale? significand power
    | some e =>
      if natOfDigits e.digits < 2 ^ 31 then
        scale? significand (max (-(2 ^ 31)) (min (2 ^ 31 - 1) (power + exponentPower e)))
      else if significand ≠ 0 ∧ e.sign ≠ some true then none
      else some 0
  magnitude.map fun x => if n.negative then -x else x

/-- The number is written as an integer whose digits fit 64 bits. -/
def isWord (n : Number) : Bool :=
  n.fraction.isNone && n.exponent.isNone && natOfDigits n.whole < 2 ^ 64

/-- The number can be held: as a word, or else as a double. -/
def isHeld (n : Number) : Bool := n.isWord || n.toFloat?.isSome

end Number

end Collective.Json
