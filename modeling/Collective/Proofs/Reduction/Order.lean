import Collective.Proofs.Reduction
import Mathlib.Algebra.Order.BigOperators.Group.List

/-!
# The order of the values of a reduction

A maximum or minimum does not depend on the order of its values, and neither does a sum of unsigned
numbers. A sum of signed numbers can leave its type on the way in one order and stay inside it in
another one. It is out of range exactly if one of its running totals is, so the orders that succeed
all give the same sum.
-/

namespace Collective

namespace IntegerType

variable {type : IntegerType} {x y : type.numeric.Carrier}

/-- The integers for which a type has values. -/
def InRange : IntegerType → Int → Prop
  | .i32, n => -(2 ^ 31) ≤ n ∧ n < 2 ^ 31
  | .i64, n => -(2 ^ 63) ≤ n ∧ n < 2 ^ 63
  | .u32, n => 0 ≤ n ∧ n < 2 ^ 32
  | .u64, n => 0 ≤ n ∧ n < 2 ^ 64

instance : (type : IntegerType) → (n : Int) → Decidable (type.InRange n)
  | .i32, n => inferInstanceAs (Decidable (-(2 ^ 31) ≤ n ∧ n < 2 ^ 31))
  | .i64, n => inferInstanceAs (Decidable (-(2 ^ 63) ≤ n ∧ n < 2 ^ 63))
  | .u32, n => inferInstanceAs (Decidable (0 ≤ n ∧ n < 2 ^ 32))
  | .u64, n => inferInstanceAs (Decidable (0 ≤ n ∧ n < 2 ^ 64))

/-- A type with negative values. -/
def signed : IntegerType → Bool
  | .i32 | .i64 => true
  | .u32 | .u64 => false

theorem inRange_toInt (x : type.numeric.Carrier) : type.InRange (type.toInt x) := by
  cases type with
  | i32 => exact ⟨Int32.le_toInt x, Int32.toInt_lt x⟩
  | i64 => exact ⟨Int64.le_toInt x, Int64.toInt_lt x⟩
  | u32 => exact ⟨Int.natCast_nonneg _, Int.ofNat_lt.2 (UInt32.toNat_lt x)⟩
  | u64 => exact ⟨Int.natCast_nonneg _, Int.ofNat_lt.2 (UInt64.toNat_lt x)⟩

theorem toInt_inj : type.toInt x = type.toInt y ↔ x = y := by
  cases type with
  | i32 => exact Int32.toInt_inj
  | i64 => exact Int64.toInt_inj
  | u32 => exact Int.ofNat_inj.trans UInt32.toNat_inj
  | u64 => exact Int.ofNat_inj.trans UInt64.toNat_inj

theorem inRange_zero (type : IntegerType) : type.InRange 0 := by
  cases type <;> simp [InRange]

/-- There is a sum exactly if its type has a value for it. -/
theorem isSome_add?_iff :
    (type.numeric.add? x y).isSome ↔ type.InRange (type.toInt x + type.toInt y) := by
  cases type with
  | i32 => simp [NumericType.add?, InRange, toInt]
  | i64 => simp [NumericType.add?, InRange, toInt]
  | u32 =>
    simp only [NumericType.add?, InRange, toInt, Option.isSome_ite]
    omega
  | u64 =>
    simp only [NumericType.add?, InRange, toInt, Option.isSome_ite]
    omega

/-- Between zero and a value of an unsigned type there are only values of the type. -/
theorem InRange.of_le {n total : Int} (htype : type.signed = false) (h : type.InRange total)
    (hn : 0 ≤ n) (hle : n ≤ total) : type.InRange n := by
  cases type with
  | i32 => cases htype
  | i64 => cases htype
  | u32 => exact ⟨hn, Int.lt_of_le_of_lt hle h.2⟩
  | u64 => exact ⟨hn, Int.lt_of_le_of_lt hle h.2⟩

theorem InRange.nonneg {n : Int} (htype : type.signed = false) (h : type.InRange n) : 0 ≤ n := by
  cases type with
  | i32 => cases htype
  | i64 => cases htype
  | u32 => exact h.1
  | u64 => exact h.1

end IntegerType

namespace Reduction

variable {r : Reduction} {type : IntegerType} {values others : List type.numeric.Carrier}
  {first x y : type.numeric.Carrier}

/-! ## Results -/

theorem Yields.unique {inputs : List Int} {m n : Int} (hm : r.Yields inputs m)
    (hn : r.Yields inputs n) : m = n := by
  cases r with
  | sum => exact hm.trans hn.symm
  | max => exact Int.le_antisymm (hn.2 m hm.1) (hm.2 n hn.1)
  | min => exact Int.le_antisymm (hm.2 n hn.1) (hn.2 m hm.1)

/-- A reduction that succeeds is exact. -/
theorem yields_apply (h : r.apply type.numeric values = .ok x) :
    r.Yields (values.map type.toInt) (type.toInt x) := by
  have hparts : List.Forall₂ (fun part value => r.Yields part (type.toInt value))
      (values.map fun value => [type.toInt value]) values := by
    rw [List.forall₂_map_left_iff, List.forall₂_same]
    exact fun value _ => r.yields_singleton _
  have hyields := yields_of_apply hparts h
  rwa [← List.flatMap_def, ← List.map_eq_flatMap] at hyields

/-- Orders that succeed come to the same value. -/
theorem eq_of_perm (hperm : values.Perm others) (hx : r.apply type.numeric values = .ok x)
    (hy : r.apply type.numeric others = .ok y) : x = y := by
  have hyields := (yields_apply hx).perm (hperm.map type.toInt)
  exact IntegerType.toInt_inj.1 (hyields.unique (yields_apply hy))

/-! ## Failures -/

theorem combine_eq_error {e : ReductionError} (h : r.combine type.numeric x y = .error e) :
    r = .sum ∧ e = .overflow := by
  cases r with
  | sum =>
    rw [combine] at h
    split at h
    · cases h
    · exact ⟨rfl, (Except.error.inj h).symm⟩
  | max => cases h
  | min => cases h

theorem foldlM_combine_eq_error {e : ReductionError}
    (h : values.foldlM (r.combine type.numeric) first = .error e) : r = .sum ∧ e = .overflow := by
  induction values generalizing first with
  | nil => cases h
  | cons value rest ih =>
    rw [List.foldlM_cons] at h
    cases hstep : r.combine type.numeric first value with
    | error f =>
      rw [hstep] at h
      obtain rfl := Except.error.inj h
      exact combine_eq_error hstep
    | ok next =>
      rw [hstep] at h
      exact ih h

theorem apply_eq_error_empty_iff :
    r.apply type.numeric values = .error .empty ↔ values = [] := by
  cases values with
  | nil => simp [apply]
  | cons value rest =>
    refine ⟨fun h => ?_, nofun⟩
    cases (foldlM_combine_eq_error h).2

/-- Only sums overflow. -/
theorem eq_sum_of_overflow (h : r.apply type.numeric values = .error .overflow) : r = .sum := by
  cases values with
  | nil => cases h
  | cons value rest => exact (foldlM_combine_eq_error h).1

/-! ## Sums -/

/-- The sums of the prefixes of a list, in terms of those of its tail. -/
theorem forall_prefix_sum_cons {P : Int → Prop} {n : Int} {inputs : List Int} :
    (∀ part, part <+: n :: inputs → P part.sum) ↔
      P 0 ∧ ∀ part, part <+: inputs → P (n + part.sum) := by
  constructor
  · intro h
    refine ⟨h [] List.nil_prefix, fun part hpart => ?_⟩
    rw [← List.sum_cons]
    exact h _ ((List.prefix_cons_inj _).2 hpart)
  · rintro ⟨hzero, h⟩ part hpart
    rcases List.prefix_cons_iff.1 hpart with rfl | ⟨tail, rfl, htail⟩
    · exact hzero
    · rw [List.sum_cons]
      exact h tail htail

/-- A sum goes on as long as its running totals stay inside the type. -/
theorem isOk_foldlM_sum_iff :
    (∃ s, values.foldlM (sum.combine type.numeric) first = .ok s) ↔
      ∀ part, part <+: values.map type.toInt → type.InRange (type.toInt first + part.sum) := by
  induction values generalizing first with
  | nil =>
    refine ⟨fun _ part hpart => ?_, fun _ => ⟨first, rfl⟩⟩
    obtain rfl := List.prefix_nil.1 hpart
    simpa using IntegerType.inRange_toInt first
  | cons value rest ih =>
    have hfirst : type.InRange (type.toInt first + 0) := by
      simpa using IntegerType.inRange_toInt first
    rw [List.foldlM_cons, List.map_cons,
      forall_prefix_sum_cons (P := fun total => type.InRange (type.toInt first + total)),
      and_iff_right hfirst]
    cases hsum : type.numeric.add? first value with
    | none =>
      have hstep : sum.combine type.numeric first value = .error .overflow := by
        rw [combine, hsum]
      have hout : ¬ type.InRange (type.toInt first + type.toInt value) := by
        rw [← IntegerType.isSome_add?_iff, hsum]
        exact Bool.false_ne_true
      rw [hstep]
      refine ⟨?_, fun h => absurd ?_ hout⟩
      · rintro ⟨s, hs⟩
        cases hs
      · simpa using h [] List.nil_prefix
    | some total =>
      have hstep : sum.combine type.numeric first value = .ok total := by
        rw [combine, hsum]
      have htotal := IntegerType.toInt_of_add? hsum
      rw [hstep]
      refine ih.trans ?_
      simp only [htotal, Int.add_assoc]

theorem exists_apply_sum_iff :
    (∃ s, sum.apply type.numeric values = .ok s) ↔
      values ≠ [] ∧ ∀ part, part <+: values.map type.toInt → type.InRange part.sum := by
  cases values with
  | nil =>
    refine ⟨?_, fun h => absurd rfl h.1⟩
    rintro ⟨s, hs⟩
    cases hs
  | cons first rest =>
    rw [List.map_cons, forall_prefix_sum_cons, and_iff_right (IntegerType.inRange_zero type),
      and_iff_right (List.cons_ne_nil _ _)]
    exact isOk_foldlM_sum_iff

/-- A reduction succeeds or fails, and fails in one of two ways. -/
theorem apply_cases (r : Reduction) (values : List type.numeric.Carrier) :
    (∃ x, r.apply type.numeric values = .ok x) ∨ r.apply type.numeric values = .error .empty ∨
      r.apply type.numeric values = .error .overflow := by
  cases h : r.apply type.numeric values with
  | ok x => exact .inl ⟨x, rfl⟩
  | error e =>
    cases e with
    | empty => exact .inr (.inl rfl)
    | overflow => exact .inr (.inr rfl)

/-- A sum overflows exactly if one of its running totals is outside the type. -/
theorem apply_sum_eq_overflow_iff :
    sum.apply type.numeric values = .error .overflow ↔
      ∃ part, part <+: values.map type.toInt ∧ ¬ type.InRange part.sum := by
  constructor
  · intro h
    by_contra hnone
    have hin : ∀ part, part <+: values.map type.toInt → type.InRange part.sum :=
      fun part hpart => by_contra fun hout => hnone ⟨part, hpart, hout⟩
    have hne : values ≠ [] := by
      rintro rfl
      cases h
    obtain ⟨s, hs⟩ := exists_apply_sum_iff.2 ⟨hne, hin⟩
    cases h.symm.trans hs
  · rintro ⟨part, hpart, hout⟩
    rcases apply_cases sum values with ⟨x, hx⟩ | hempty | hover
    · exact absurd ((exists_apply_sum_iff.1 ⟨x, hx⟩).2 part hpart) hout
    · obtain rfl := apply_eq_error_empty_iff.1 hempty
      obtain rfl := List.prefix_nil.1 hpart
      exact absurd (IntegerType.inRange_zero type) hout
    · exact hover

theorem nonneg_of_mem_map (htype : type.signed = false) (values : List type.numeric.Carrier) :
    ∀ n ∈ values.map type.toInt, 0 ≤ n := by
  intro n hn
  obtain ⟨value, -, rfl⟩ := List.mem_map.1 hn
  exact (IntegerType.inRange_toInt value).nonneg htype

/-- A sum of unsigned numbers overflows exactly if the exact sum is outside the type. -/
theorem apply_sum_eq_overflow_iff_of_unsigned (htype : type.signed = false) :
    sum.apply type.numeric values = .error .overflow ↔
      ¬ type.InRange (values.map type.toInt).sum := by
  have hnonneg := nonneg_of_mem_map htype values
  refine apply_sum_eq_overflow_iff.trans ⟨?_, fun h => ⟨_, List.prefix_rfl, h⟩⟩
  rintro ⟨part, ⟨rest, hpart⟩, hout⟩ hin
  rw [← hpart] at hin hnonneg
  rw [List.sum_append] at hin
  have hleft : 0 ≤ part.sum := List.sum_nonneg fun n hn => hnonneg n (List.mem_append_left _ hn)
  have hright : 0 ≤ rest.sum := List.sum_nonneg fun n hn => hnonneg n (List.mem_append_right _ hn)
  exact hout (hin.of_le htype hleft (by omega))

/-- A reduction that does not overflow in one order does so in no other, unless it is a sum of
signed numbers. -/
theorem apply_eq_overflow_of_perm (hfree : r = .sum → type.signed = false)
    (hperm : values.Perm others) (h : r.apply type.numeric values = .error .overflow) :
    r.apply type.numeric others = .error .overflow := by
  obtain rfl := eq_sum_of_overflow h
  rw [apply_sum_eq_overflow_iff_of_unsigned (hfree rfl)] at h ⊢
  rwa [← (hperm.map type.toInt).sum_eq]

/-- Reductions do not depend on the order of their values, but for sums of signed numbers: such a
sum overflows in the orders in which some running total is outside the type. The orders that
succeed come to the same value. -/
theorem apply_perm (r : Reduction) (hperm : values.Perm others) :
    ((r = .sum → type.signed = false) →
      r.apply type.numeric values = r.apply type.numeric others) ∧
    (∀ x y, r.apply type.numeric values = .ok x → r.apply type.numeric others = .ok y → x = y) ∧
    (r.apply type.numeric values = .error .empty ↔
      r.apply type.numeric others = .error .empty) ∧
    (sum.apply type.numeric values = .error .overflow ↔
      ∃ part, part <+: values.map type.toInt ∧ ¬ type.InRange part.sum) := by
  refine ⟨fun hfree => ?_, fun x y => eq_of_perm hperm, ?_, apply_sum_eq_overflow_iff⟩
  · rcases apply_cases r values with ⟨x, hx⟩ | hempty | hover
    · rcases apply_cases r others with ⟨y, hy⟩ | hempty | hover
      · rw [hx, hy, eq_of_perm hperm hx hy]
      · obtain rfl := apply_eq_error_empty_iff.1 hempty
        rw [hperm.eq_nil]
      · cases hx.symm.trans (apply_eq_overflow_of_perm hfree hperm.symm hover)
    · obtain rfl := apply_eq_error_empty_iff.1 hempty
      rw [hperm.symm.eq_nil]
    · rw [hover, apply_eq_overflow_of_perm hfree hperm hover]
  · rw [apply_eq_error_empty_iff, apply_eq_error_empty_iff]
    exact ⟨fun h => (h ▸ hperm).symm.eq_nil, fun h => (h ▸ hperm).eq_nil⟩

/-- The greatest number, one more and one less: the sum has left the type on the way, and the
maximum is that of the other order. -/
theorem apply_perm_greatest :
    ([2147483647, 1, -1] : List Int32).Perm [2147483647, -1, 1] ∧
      (∃ part, part <+: List.map (IntegerType.toInt .i32) [2147483647, 1, -1] ∧
        ¬ IntegerType.InRange .i32 part.sum) ∧
      max.apply .i32 [2147483647, 1, -1] = max.apply .i32 [2147483647, -1, 1] := by
  have hperm : ([2147483647, 1, -1] : List Int32).Perm [2147483647, -1, 1] := by decide
  have hover : sum.apply .i32 [2147483647, 1, -1] = .error .overflow := by decide
  obtain ⟨hsame, -, -, htotals⟩ := @apply_perm .i32 _ _ .max hperm
  exact ⟨hperm, htotals.1 hover, hsame nofun⟩

/-- In one order the sum leaves the type on the way, in the other it does not. -/
theorem sum_depends_on_order :
    ¬ ∀ (r : Reduction) (type : IntegerType) (values others : List type.numeric.Carrier),
      values.Perm others → r.apply type.numeric values = r.apply type.numeric others := by
  intro h
  have hsame := h .sum .i32 [2147483647, 1, -1] [2147483647, -1, 1] (by decide)
  have hleft : sum.apply .i32 [2147483647, 1, -1] = .error .overflow := by decide
  have hright : sum.apply .i32 [2147483647, -1, 1] = .ok 2147483647 := by decide
  rw [hleft, hright] at hsame
  cases hsame

end Reduction

end Collective
