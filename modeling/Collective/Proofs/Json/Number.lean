import Collective.Json.Number

/-!
# Integers as JSON numbers

The written form of an integer is read back as it was written, and denotes the integer.
-/

namespace Collective.Json.Number

/-! ## Digits -/

theorem digit?_digitByte (d : Fin 10) : digit? (digitByte d) = some d := by
  revert d
  decide

theorem spanDigits_map_digitByte (ds : List (Fin 10)) :
    spanDigits (ds.map digitByte) = (ds, []) := by
  induction ds with
  | nil => rfl
  | cons d ds ih => rw [List.map_cons, spanDigits, digit?_digitByte, ih]

theorem natOfDigits_append_singleton (ds : List (Fin 10)) (d : Fin 10) :
    natOfDigits (ds ++ [d]) = natOfDigits ds * 10 + d.val := by
  rw [natOfDigits, List.foldl_append, ← natOfDigits]
  rfl

theorem natOfDigits_digitsOfNat (n : Nat) : natOfDigits (digitsOfNat n) = n := by
  fun_induction digitsOfNat n with
  | case1 n hsmall => exact Nat.zero_add n
  | case2 n hlarge ih =>
    rw [natOfDigits_append_singleton, ih]
    show n / 10 * 10 + n % 10 = n
    omega

theorem digitsOfNat_ne_nil (n : Nat) : digitsOfNat n ≠ [] := by
  rw [digitsOfNat]
  split <;> simp

/-- Only zero is written with a zero in front. -/
theorem digitsOfNat_leading {n : Nat} {d : Fin 10} {ds : List (Fin 10)}
    (h : digitsOfNat n = d :: ds) (hd : d.val = 0) : ds = [] := by
  fun_induction digitsOfNat n generalizing d ds with
  | case1 n hsmall => exact (List.cons.inj h).2.symm
  | case2 n hlarge ih =>
    obtain ⟨first, rest, hfirst⟩ := List.exists_cons_of_ne_nil (digitsOfNat_ne_nil (n / 10))
    rw [hfirst, List.cons_append] at h
    obtain ⟨rfl, -⟩ := List.cons.inj h
    obtain rfl := ih hfirst hd
    -- the digits before the last one would write zero
    have hzero := natOfDigits_digitsOfNat (n / 10)
    rw [hfirst] at hzero
    have hvalue : natOfDigits [first] = first.val := Nat.zero_add _
    omega

/-! ## Integers -/

theorem parseUnsigned?_print_digits (negative : Bool) (n : Nat) :
    parseUnsigned? negative ((digitsOfNat n).map digitByte) =
      some ⟨negative, digitsOfNat n, none, none⟩ := by
  obtain ⟨d, ds, hdigits⟩ := List.exists_cons_of_ne_nil (digitsOfNat_ne_nil n)
  rw [parseUnsigned?, spanDigits_map_digitByte, hdigits]
  dsimp only
  rw [if_neg]
  · rfl
  · rintro ⟨hd, hds⟩
    exact hds (digitsOfNat_leading hdigits hd)

/-- The written form of an integer is read as it is. -/
theorem parse?_print_ofInt (i : Int) : parse? (ofInt i).print = some (ofInt i) := by
  have hprint : (ofInt i).print =
      (if i < 0 then [45] else []) ++ (digitsOfNat i.natAbs).map digitByte := by
    simp [print, ofInt]
  rw [hprint]
  by_cases hneg : i < 0
  · rw [if_pos hneg, List.singleton_append, parse?, parseUnsigned?_print_digits, ofInt,
      decide_eq_true hneg]
  · obtain ⟨d, ds, hdigits⟩ := List.exists_cons_of_ne_nil (digitsOfNat_ne_nil i.natAbs)
    have hminus : ∀ d : Fin 10, digitByte d ≠ 45 := by decide
    have hread := parseUnsigned?_print_digits false i.natAbs
    rw [hdigits, List.map_cons] at hread
    rw [if_neg hneg, List.nil_append, hdigits, List.map_cons, parse?, hread, ofInt,
      decide_eq_false hneg, hdigits]
    intro rest heq
    exact hminus d (List.cons.inj heq).1

/-- The written form of an integer denotes it. -/
theorem toInt?_ofInt (i : Int) : (ofInt i).toInt? = some i := by
  have hvalue := natOfDigits_digitsOfNat i.natAbs
  by_cases hneg : i < 0
  · have hne : i.natAbs ≠ 0 := by omega
    simp only [toInt?, ofInt, hvalue, decide_eq_true hneg, if_true, if_neg hne]
    congr 1
    omega
  · simp only [toInt?, ofInt, hvalue, decide_eq_false hneg, Bool.false_eq_true, if_false]
    congr 1
    omega

end Collective.Json.Number
