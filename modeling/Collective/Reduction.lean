import Collective.Payload.Type

/-!
# Reductions

A reduction folds the values of a list, from the left, into one. Integer sums that leave their type
are an error; floating-point sums round at each step. A maximum or minimum stays with the earlier
value unless the later one compares strictly beyond it.
-/

namespace Collective

/-- Why there is no reduced value. -/
inductive ReductionError where
  /-- There are no values. -/
  | empty
  /-- A sum left its type. -/
  | overflow
  deriving DecidableEq, Repr

/-- The wording of a reduction error. -/
def ReductionError.message : ReductionError → String
  | .empty => "cannot reduce an empty sequence"
  | .overflow => "reduction overflowed its value type"

/-- The built-in reductions. -/
inductive Reduction where
  | sum
  | max
  | min
  deriving DecidableEq, Repr

namespace NumericType

/-- The sum of two numbers, unless it leaves their type. -/
def add? : (type : NumericType) → type.Carrier → type.Carrier → Option type.Carrier
  | .i32, x, y =>
    let sum := x.toInt + y.toInt
    if -(2 ^ 31) ≤ sum ∧ sum < 2 ^ 31 then some (Int32.ofInt sum) else none
  | .i64, x, y =>
    let sum := x.toInt + y.toInt
    if -(2 ^ 63) ≤ sum ∧ sum < 2 ^ 63 then some (Int64.ofInt sum) else none
  | .u32, x, y =>
    let sum := x.toNat + y.toNat
    if sum < 2 ^ 32 then some (UInt32.ofNat sum) else none
  | .u64, x, y =>
    let sum := x.toNat + y.toNat
    if sum < 2 ^ 64 then some (UInt64.ofNat sum) else none
  | .f32, x, y => some (x.add y)
  | .f64, x, y => some (x.add y)

/-- A number compares strictly below another. -/
def lt : (type : NumericType) → type.Carrier → type.Carrier → Bool
  | .i32, x, y => x < y
  | .i64, x, y => x < y
  | .u32, x, y => x < y
  | .u64, x, y => x < y
  | .f32, x, y => x.lt y
  | .f64, x, y => x.lt y

end NumericType

namespace Reduction

/-- Every reduction. -/
def all : List Reduction := [.sum, .max, .min]

/-- The name of a reduction. -/
def name : Reduction → String
  | .sum => "sum"
  | .max => "max"
  | .min => "min"

/-- The reduction with a name. -/
def ofName? (name : String) : Option Reduction := all.find? (·.name == name)

theorem ofName?_name (r : Reduction) : ofName? r.name = some r := by
  cases r <;> rfl

/-- One step: the value so far and the next one. -/
def combine (r : Reduction) (type : NumericType) (best next : type.Carrier) :
    Except ReductionError type.Carrier :=
  match r with
  | .sum =>
    match type.add? best next with
    | some total => .ok total
    | none => .error .overflow
  | .max => .ok (if type.lt best next then next else best)
  | .min => .ok (if type.lt next best then next else best)

/-- All values of a list in one. -/
def apply (r : Reduction) (type : NumericType) :
    List type.Carrier → Except ReductionError type.Carrier
  | [] => .error .empty
  | first :: rest => rest.foldlM (r.combine type) first

/-- A reduction that puts all values of a list together at once. -/
def joining (join : List α → α) (values : List α) : Except ReductionError α :=
  if values.isEmpty then .error .empty else .ok (join values)

end Reduction

end Collective
