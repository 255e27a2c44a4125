import Collective.Decimal.Binary

/-!
# The shortest decimal that reads back

Among the decimals that lie nearer to a magnitude than to any other number of its format, `shortest`
takes one with the fewest digits, and of these the nearest; a tie goes to the even digit. A decimal
halfway between two numbers counts as near to the one with the even significand.
-/

namespace Collective.Decimal

/-- The digit zero. -/
def zero : Fin 10 := 0

/-- A decimal `d.ddd × 10 ^ exponent` with the given digits. -/
structure Digits where
  digits : List (Fin 10)
  exponent : Int
  deriving DecidableEq, Repr

/-- The decimal digits of a number, without zeros at the end. -/
def significant (n : Nat) : List (Fin 10) :=
  let digits := (Nat.toDigits 10 n).map fun c => Fin.ofNat 10 (c.toNat - 48)
  (digits.reverse.dropWhile (· = zero)).reverse

/-- The exponent of the first digit of the positive fraction `num / den`. -/
def leadingExponent (num den : Nat) : Int :=
  if den ≤ num then ((Nat.toDigits 10 (num / den)).length : Int) - 1
  else
    let places := (Nat.toDigits 10 (den / num)).length
    if den ≤ num * 10 ^ (places - 1) then -((places : Int) - 1) else -(places : Int)

/-- A quotient with the numerator and denominator multiplied by powers of two and ten. -/
def scaleBy (base : Nat) (power : Int) (num den : Nat) : Nat × Nat :=
  if power < 0 then (num, den * base ^ power.natAbs) else (num * base ^ power.natAbs, den)

/-- The multiple `n * 10 ^ unit` that reads back as the magnitude and is nearest to it, if a
multiple of that unit does. -/
def onGrid (m : Magnitude) (unit : Int) : Option Nat :=
  -- quarters of the last place, over the unit
  let (num, den) := scaleBy 2 (m.exponent - 2) 1 1
  let (num, den) := scaleBy 10 (-unit) num den
  let value := 4 * m.significand * num
  let low := value - (if m.narrowBelow then 1 else 2) * num
  let high := value + 2 * num
  let reads (n : Nat) : Bool :=
    if m.significand % 2 = 0 then low ≤ n * den && n * den ≤ high
    else low < n * den && n * den < high
  let below := value / den
  let above := below + 1
  match reads below, reads above with
  | true, false => some below
  | false, true => some above
  | false, false => none
  | true, true =>
    let down := value - below * den
    let up := above * den - value
    if down < up then some below
    else if up < down then some above
    else if below % 2 = 0 then some below else some above

/-- The first grid with a multiple that reads back, from one digit up. -/
def search (m : Magnitude) (leading : Int) (digits : Nat) : Nat → Nat × Int
  | 0 => (0, 0)
  | more + 1 =>
    let unit := leading - (digits - 1 : Nat)
    match onGrid m unit with
    | some n => (n, unit)
    | none => search m leading (digits + 1) more

/-- The shortest decimal that reads back as a magnitude; seventeen digits are always enough. -/
def shortest (m : Magnitude) : Digits :=
  if m.significand = 0 then ⟨[zero], 0⟩
  else
    let (num, den) := scaleBy 2 m.exponent m.significand 1
    let (n, unit) := search m (leadingExponent num den) 1 17
    ⟨significant n, unit + ((Nat.toDigits 10 n).length - 1 : Nat)⟩

end Collective.Decimal
