import Collective.Text.Bytes

/-!
# Binary floating-point numbers

A number is its bits in the interchange format, so that two numbers are equal exactly when no
program can tell them apart, NaNs included. Arithmetic and comparison are those of the format.
`Magnitude` is the exact value of a finite number: a multiple of a power of two.
-/

namespace Collective

/-- A double-precision number. -/
structure Binary64 where
  bits : UInt64
  deriving DecidableEq, Repr

/-- A single-precision number. -/
structure Binary32 where
  bits : UInt32
  deriving DecidableEq, Repr

namespace Binary64

def toFloat (x : Binary64) : Float := Float.ofBits x.bits

def ofFloat (x : Float) : Binary64 := ⟨x.toBits⟩

def add (x y : Binary64) : Binary64 := ofFloat (x.toFloat + y.toFloat)

/-- The order of numbers; a NaN is neither below nor above anything. -/
def lt (x y : Binary64) : Bool := x.toFloat < y.toFloat

def isNaN (x : Binary64) : Bool := x.toFloat.isNaN

end Binary64

namespace Binary32

def toFloat (x : Binary32) : Float32 := Float32.ofBits x.bits

def ofFloat (x : Float32) : Binary32 := ⟨x.toBits⟩

def add (x y : Binary32) : Binary32 := ofFloat (x.toFloat + y.toFloat)

/-- The order of numbers; a NaN is neither below nor above anything. -/
def lt (x y : Binary32) : Bool := x.toFloat < y.toFloat

def isNaN (x : Binary32) : Bool := x.toFloat.isNaN

/-- A double rounded to the nearest number of single precision. -/
def ofDouble (x : Float) : Binary32 := ofFloat x.toFloat32

end Binary32

/-- The absolute value `significand * 2 ^ exponent` of a finite number, and whether the next
smaller number is only half as far away as the next greater one. -/
structure Magnitude where
  significand : Nat
  exponent : Int
  narrowBelow : Bool
  deriving DecidableEq, Repr

namespace Magnitude

/-- The magnitude that fields of an interchange format stand for: `mantissa` has `width` bits, and
the biased exponent counts from `least`, the exponent of the smallest numbers. -/
def ofFields (width : Nat) (least : Int) (biased mantissa : Nat) : Magnitude :=
  if biased = 0 then ⟨mantissa, least, false⟩
  else ⟨2 ^ width + mantissa, least + (biased - 1 : Nat), mantissa = 0 ∧ biased ≠ 1⟩

end Magnitude

/-- The magnitude of a double, unless it is infinite or NaN. -/
def Binary64.magnitude? (x : Binary64) : Option Magnitude :=
  let biased := x.bits.toNat / 2 ^ 52 % 2 ^ 11
  if biased = 2047 then none
  else some (.ofFields 52 (-1074) biased (x.bits.toNat % 2 ^ 52))

/-- The magnitude of a single, unless it is infinite or NaN. -/
def Binary32.magnitude? (x : Binary32) : Option Magnitude :=
  let biased := x.bits.toNat / 2 ^ 23 % 2 ^ 8
  if biased = 255 then none
  else some (.ofFields 23 (-149) biased (x.bits.toNat % 2 ^ 23))

/-- The sign bit of a double. -/
def Binary64.isNegative (x : Binary64) : Bool := 2 ^ 63 ≤ x.bits.toNat

/-- The sign bit of a single. -/
def Binary32.isNegative (x : Binary32) : Bool := 2 ^ 31 ≤ x.bits.toNat

end Collective
