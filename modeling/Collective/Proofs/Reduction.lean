import Collective.Reduction
import Mathlib.Algebra.BigOperators.Group.List.Basic
import Mathlib.Algebra.Ring.Int.Defs

/-!
# Exact reductions

Over integers a reduction that succeeds is exact: a sum is the sum of its values as integers, and a
maximum or minimum is one of them and bounds them all. This also holds where the values are results
of reductions themselves, so it does not matter how the values are cut into groups.
-/

namespace Collective

/-- The types of integers. -/
inductive IntegerType where
  | i32
  | i64
  | u32
  | u64
  deriving DecidableEq, Repr

namespace IntegerType

/-- The type among those of numbers. -/
@[reducible] def numeric : IntegerType → NumericType
  | .i32 => .i32
  | .i64 => .i64
  | .u32 => .u32
  | .u64 => .u64

/-- The integer that a value of the type stands for. -/
def toInt : (type : IntegerType) → type.numeric.Carrier → Int
  | .i32, x => x.toInt
  | .i64, x => x.toInt
  | .u32, x => x.toNat
  | .u64, x => x.toNat

variable {type : IntegerType} {x y z : type.numeric.Carrier}

/-- A sum that does not leave the type is exact. -/
theorem toInt_of_add? (h : type.numeric.add? x y = some z) :
    type.toInt z = type.toInt x + type.toInt y := by
  cases type with
  | i32 =>
    simp only [NumericType.add?] at h
    split at h
    · next hbounds =>
      obtain rfl := Option.some.inj h
      exact Int32.toInt_ofInt_of_le hbounds.1 hbounds.2
    · cases h
  | i64 =>
    simp only [NumericType.add?] at h
    split at h
    · next hbounds =>
      obtain rfl := Option.some.inj h
      exact Int64.toInt_ofInt_of_le hbounds.1 hbounds.2
    · cases h
  | u32 =>
    simp only [NumericType.add?] at h
    split at h
    · next hbound =>
      obtain rfl := Option.some.inj h
      exact congrArg Int.ofNat (UInt32.toNat_ofNat_of_lt' hbound)
    · cases h
  | u64 =>
    simp only [NumericType.add?] at h
    split at h
    · next hbound =>
      obtain rfl := Option.some.inj h
      exact congrArg Int.ofNat (UInt64.toNat_ofNat_of_lt' hbound)
    · cases h

theorem lt_iff : type.numeric.lt x y = true ↔ type.toInt x < type.toInt y := by
  cases type with
  | i32 => exact decide_eq_true_iff.trans Int32.lt_iff_toInt_lt
  | i64 => exact decide_eq_true_iff.trans Int64.lt_iff_toInt_lt
  | u32 => exact decide_eq_true_iff.trans (UInt32.lt_iff_toNat_lt.trans Int.ofNat_lt.symm)
  | u64 => exact decide_eq_true_iff.trans (UInt64.lt_iff_toNat_lt.trans Int.ofNat_lt.symm)

end IntegerType

namespace Reduction

/-- The integer to which a reduction brings some others. -/
def Yields : Reduction → List Int → Int → Prop
  | .sum, inputs, result => result = inputs.sum
  | .max, inputs, result => result ∈ inputs ∧ ∀ x ∈ inputs, x ≤ result
  | .min, inputs, result => result ∈ inputs ∧ ∀ x ∈ inputs, result ≤ x

variable {r : Reduction} {type : IntegerType} {inputs left right : List Int}

theorem yields_singleton (r : Reduction) (x : Int) : r.Yields [x] x := by
  cases r with
  | sum => exact (List.sum_singleton).symm
  | max => simp [Yields]
  | min => simp [Yields]

/-- The order of the inputs does not matter. -/
theorem Yields.perm {result : Int} {others : List Int} (h : r.Yields inputs result)
    (hperm : inputs.Perm others) : r.Yields others result := by
  cases r with
  | sum => exact h.trans hperm.sum_eq
  | max => exact ⟨hperm.mem_iff.1 h.1, fun x hx => h.2 x (hperm.mem_iff.2 hx)⟩
  | min => exact ⟨hperm.mem_iff.1 h.1, fun x hx => h.2 x (hperm.mem_iff.2 hx)⟩

/-- One step brings together what two values have come from. -/
theorem Yields.combine {x y z : type.numeric.Carrier} (hx : r.Yields left (type.toInt x))
    (hy : r.Yields right (type.toInt y)) (h : r.combine type.numeric x y = .ok z) :
    r.Yields (left ++ right) (type.toInt z) := by
  cases r with
  | sum =>
    cases hsum : type.numeric.add? x y with
    | none =>
      rw [Reduction.combine, hsum] at h
      cases h
    | some total =>
      rw [Reduction.combine, hsum] at h
      obtain rfl := Except.ok.inj h
      show type.toInt total = (left ++ right).sum
      rw [IntegerType.toInt_of_add? hsum, hx, hy, List.sum_append]
  | max =>
    obtain ⟨hxmem, hxle⟩ := hx
    obtain ⟨hymem, hyle⟩ := hy
    obtain rfl := Except.ok.inj h
    by_cases hlt : type.numeric.lt x y = true
    · rw [if_pos hlt]
      have hlt := IntegerType.lt_iff.1 hlt
      refine ⟨List.mem_append_right _ hymem, List.forall_mem_append.2 ⟨?_, hyle⟩⟩
      intro a ha
      exact Int.le_trans (hxle a ha) (Int.le_of_lt hlt)
    · rw [if_neg hlt]
      have hle := Int.not_lt.1 (mt IntegerType.lt_iff.2 hlt)
      refine ⟨List.mem_append_left _ hxmem, List.forall_mem_append.2 ⟨hxle, ?_⟩⟩
      intro a ha
      exact Int.le_trans (hyle a ha) hle
  | min =>
    obtain ⟨hxmem, hxle⟩ := hx
    obtain ⟨hymem, hyle⟩ := hy
    obtain rfl := Except.ok.inj h
    by_cases hlt : type.numeric.lt y x = true
    · rw [if_pos hlt]
      have hlt := IntegerType.lt_iff.1 hlt
      refine ⟨List.mem_append_right _ hymem, List.forall_mem_append.2 ⟨?_, hyle⟩⟩
      intro a ha
      exact Int.le_trans (Int.le_of_lt hlt) (hxle a ha)
    · rw [if_neg hlt]
      have hle := Int.not_lt.1 (mt IntegerType.lt_iff.2 hlt)
      refine ⟨List.mem_append_left _ hxmem, List.forall_mem_append.2 ⟨hxle, ?_⟩⟩
      intro a ha
      exact Int.le_trans hle (hyle a ha)

theorem Yields.foldlM {parts : List (List Int)} {values : List type.numeric.Carrier}
    (hparts : List.Forall₂ (fun part value => r.Yields part (type.toInt value)) parts values)
    {first result : type.numeric.Carrier} (hfirst : r.Yields left (type.toInt first))
    (h : values.foldlM (r.combine type.numeric) first = .ok result) :
    r.Yields (left ++ parts.flatten) (type.toInt result) := by
  induction hparts generalizing left first with
  | nil =>
    obtain rfl := Except.ok.inj h
    simpa using hfirst
  | @cons part value parts values hpart _ ih =>
    rw [List.foldlM_cons] at h
    cases hstep : r.combine type.numeric first value with
    | error e =>
      rw [hstep] at h
      cases h
    | ok next =>
      rw [hstep] at h
      rw [List.flatten_cons, ← List.append_assoc]
      exact ih (hfirst.combine hpart hstep) h

/-- A reduction that succeeds brings together what each of its values has come from. -/
theorem yields_of_apply {parts : List (List Int)} {values : List type.numeric.Carrier}
    {result : type.numeric.Carrier}
    (hparts : List.Forall₂ (fun part value => r.Yields part (type.toInt value)) parts values)
    (h : r.apply type.numeric values = .ok result) :
    r.Yields parts.flatten (type.toInt result) := by
  cases hparts with
  | nil => cases h
  | cons hfirst hrest =>
    rw [List.flatten_cons]
    exact Yields.foldlM hrest hfirst h

end Reduction

end Collective
