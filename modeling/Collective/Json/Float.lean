import Collective.Json.Basic
import Collective.Decimal.Shortest

/-!
# Floating-point numbers in JSON

A finite number is written with the fewest digits that read back: positionally, with a point, while
the exponent of its first digit lies in the format's range, and else with one digit before the
point and a signed exponent. Infinities and NaNs are written `null`.
-/

namespace Collective.Json

open Decimal (Digits)

/-- The range of exponents in which a format writes positionally. -/
structure Positional where
  least : Int
  greatest : Int

/-- Doubles are written positionally from 0.00001 to below `10 ^ 16`. -/
def positional64 : Positional := ⟨-5, 15⟩

/-- Singles are written positionally from 0.000001 to below `10 ^ 13`. -/
def positional32 : Positional := ⟨-6, 12⟩

/-- Digits with a point behind the first `places` of them, zeros filling up either side. -/
def Number.ofDigits (range : Positional) (negative : Bool) (d : Digits) : Number :=
  if range.least ≤ d.exponent ∧ d.exponent ≤ range.greatest then
    if d.exponent < 0 then
      ⟨negative, [Decimal.zero],
        some (List.replicate (d.exponent.natAbs - 1) Decimal.zero ++ d.digits), none⟩
    else
      let places := d.exponent.toNat + 1
      let whole := d.digits.take places
      let rest := d.digits.drop places
      ⟨negative, whole ++ List.replicate (places - whole.length) Decimal.zero,
        some (if rest.isEmpty then [Decimal.zero] else rest), none⟩
  else
    let rest := d.digits.drop 1
    ⟨negative, d.digits.take 1, if rest.isEmpty then none else some rest,
      some ⟨false, some (decide (d.exponent < 0)), digitsOfNat d.exponent.natAbs⟩⟩

/-- A double. -/
def ofBinary64 (x : Binary64) : Json :=
  match x.magnitude? with
  | some m => .number (.ofDigits positional64 x.isNegative (Decimal.shortest m))
  | none => .null

/-- A single. -/
def ofBinary32 (x : Binary32) : Json :=
  match x.magnitude? with
  | some m => .number (.ofDigits positional32 x.isNegative (Decimal.shortest m))
  | none => .null

/-- The double near a number. -/
def binary64? (j : Json) : Option Binary64 := j.float?.map Binary64.ofFloat

/-- The single nearest to the double near a number. -/
def binary32? (j : Json) : Option Binary32 := j.float?.map Binary32.ofDouble

end Collective.Json
