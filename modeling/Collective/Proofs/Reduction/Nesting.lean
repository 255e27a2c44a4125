import Collective.Proofs.Answer
import Collective.Proofs.Reduction.Order

/-!
# Reductions of reductions

The values of a list may be reduced in groups, the results in groups again, and so on. A `Nesting`
is a list with such groups around its values, and `applyNested` reduces the groups from the inside
out. Its result is what the values bring together (`yields_applyNested`), so it cannot differ from
that of the list without groups. Only signed sums may overflow with groups and not without, or the
other way round; every other reduction of groups that are not empty is that of the list.
-/

namespace Collective

/-- The values of a list, in groups whose results stand in groups again. -/
inductive Nesting (α : Type) where
  /-- A value by itself. -/
  | value (x : α)
  /-- The results of the parts, put together. -/
  | group (parts : List (Nesting α))

namespace Nesting

variable {α : Type} {parts : List (Nesting α)}

mutual

/-- The values without the groups around them. -/
def flat : Nesting α → List α
  | .value x => [x]
  | .group parts => flatEach parts

/-- The values of parts that follow each other. -/
def flatEach : List (Nesting α) → List α
  | [] => []
  | part :: parts => part.flat ++ flatEach parts

end

mutual

/-- No group is empty. -/
def Filled : Nesting α → Prop
  | .value _ => True
  | .group parts => parts ≠ [] ∧ FilledEach parts

/-- In none of the parts is a group empty. -/
def FilledEach : List (Nesting α) → Prop
  | [] => True
  | part :: parts => part.Filled ∧ FilledEach parts

end

/-- What holds of a value, and of a group if it holds of the parts, holds of every nesting. -/
@[elab_as_elim]
theorem induct {P : Nesting α → Prop} (value : ∀ x, P (.value x))
    (group : ∀ parts, (∀ part ∈ parts, P part) → P (.group parts)) (t : Nesting α) : P t :=
  t.rec (motive_2 := fun parts => ∀ part ∈ parts, P part) value group nofun
    fun _ _ hpart hparts => List.forall_mem_cons.2 ⟨hpart, hparts⟩

theorem flat_group (parts : List (Nesting α)) : (group parts).flat = parts.flatMap flat := by
  rw [flat]
  induction parts with
  | nil => rfl
  | cons part parts ih => rw [flatEach, ih, List.flatMap_cons]

theorem filled_group : (group parts).Filled ↔ parts ≠ [] ∧ ∀ part ∈ parts, part.Filled := by
  have heach : FilledEach parts ↔ ∀ part ∈ parts, part.Filled := by
    induction parts with
    | nil => simp [FilledEach]
    | cons part parts ih => rw [FilledEach, ih, List.forall_mem_cons]
  rw [Filled, heach]

/-- There are values in groups that are not empty. -/
theorem flat_ne_nil {t : Nesting α} (h : t.Filled) : t.flat ≠ [] := by
  induction t using induct with
  | value x => exact List.cons_ne_nil x []
  | group parts ih =>
    obtain ⟨hne, hparts⟩ := filled_group.1 h
    obtain ⟨part, hpart⟩ := List.exists_mem_of_ne_nil parts hne
    rw [flat_group]
    intro hnil
    exact ih part hpart (hparts part hpart) (List.flatMap_eq_nil_iff.1 hnil part hpart)

end Nesting

namespace Reduction

mutual

/-- The groups reduced, from the inside out. -/
def applyNested (r : Reduction) (type : NumericType) :
    Nesting type.Carrier → Except ReductionError type.Carrier
  | .value x => .ok x
  | .group parts => do r.apply type (← applyEach r type parts)

/-- The results of parts that follow each other. -/
def applyEach (r : Reduction) (type : NumericType) :
    List (Nesting type.Carrier) → Except ReductionError (List type.Carrier)
  | [] => .ok []
  | part :: parts => do
    let x ← applyNested r type part
    let xs ← applyEach r type parts
    return x :: xs

end

theorem applyNested_group (r : Reduction) (type : NumericType)
    (parts : List (Nesting type.Carrier)) :
    r.applyNested type (.group parts) = parts.mapM (r.applyNested type) >>= r.apply type := by
  have heach : r.applyEach type parts = parts.mapM (r.applyNested type) := by
    induction parts with
    | nil => rfl
    | cons part parts ih =>
      rw [applyEach, ih, List.mapM_cons]
  rw [applyNested, heach]

variable {r : Reduction} {type : IntegerType} {t : Nesting type.numeric.Carrier}
  {x y : type.numeric.Carrier}

/-- The results of the parts of a group, and what they are put together to. -/
theorem exists_of_applyNested_group {parts : List (Nesting type.numeric.Carrier)}
    (h : r.applyNested type.numeric (.group parts) = .ok x) :
    ∃ xs, List.Forall₂ (fun part result => r.applyNested type.numeric part = .ok result) parts xs ∧
      r.apply type.numeric xs = .ok x := by
  rw [applyNested_group] at h
  obtain ⟨xs, hxs, hx⟩ := exists_of_bind_eq_ok h
  exact ⟨xs, forall₂_of_mapM_eq_ok hxs, hx⟩

/-- A group fails because one of its parts does, or because their results cannot be put together. -/
theorem applyNested_group_eq_error {parts : List (Nesting type.numeric.Carrier)}
    {e : ReductionError} (h : r.applyNested type.numeric (.group parts) = .error e) :
    (∃ part ∈ parts, r.applyNested type.numeric part = .error e) ∨
      ∃ xs, List.Forall₂ (fun part result => r.applyNested type.numeric part = .ok result)
        parts xs ∧ r.apply type.numeric xs = .error e := by
  rw [applyNested_group] at h
  cases hparts : parts.mapM (r.applyNested type.numeric) with
  | error first =>
    rw [hparts] at h
    obtain rfl := Except.error.inj h
    exact .inl (exists_of_mapM_eq_error hparts)
  | ok xs =>
    rw [hparts] at h
    exact .inr ⟨xs, forall₂_of_mapM_eq_ok hparts, h⟩

/-- A nested reduction that succeeds is exact. -/
theorem yields_applyNested (h : r.applyNested type.numeric t = .ok x) :
    r.Yields (t.flat.map type.toInt) (type.toInt x) := by
  induction t using Nesting.induct generalizing x with
  | value y =>
    obtain rfl := Except.ok.inj h
    exact r.yields_singleton _
  | group parts ih =>
    obtain ⟨xs, hxs, hx⟩ := exists_of_applyNested_group h
    have hparts := (List.forall₂_and_left parts xs).2 ⟨ih, hxs⟩
    have hyields := yields_of_apply (List.forall₂_map_left_iff.2
      (hparts.imp fun part result ⟨hpart, hresult⟩ => hpart hresult)) hx
    rwa [← List.flatMap_def, ← List.map_flatMap, ← Nesting.flat_group] at hyields

/-- Reductions of the same values, in groups or not, do not come to different results. -/
theorem eq_of_applyNested (hx : r.applyNested type.numeric t = .ok x)
    (hy : r.apply type.numeric t.flat = .ok y) : x = y :=
  IntegerType.toInt_inj.1 ((yields_applyNested hx).unique (yields_apply hy))

/-! ## Failures -/

/-- The exact sum of what the parts come to is that of their values. -/
theorem sum_results {parts : List (Nesting type.numeric.Carrier)} {xs : List type.numeric.Carrier}
    (h : List.Forall₂ (fun part result => sum.applyNested type.numeric part = .ok result)
      parts xs) :
    (xs.map type.toInt).sum = ((parts.flatMap Nesting.flat).map type.toInt).sum := by
  induction h with
  | nil => rfl
  | cons hpart _ ih =>
    have hexact := yields_applyNested hpart
    rw [Yields] at hexact
    rw [List.map_cons, List.sum_cons, ih, hexact, List.flatMap_cons, List.map_append,
      List.sum_append]

/-- Groups that are not empty fail only by overflow, and unsigned numbers only if their exact sum is
outside the type. -/
theorem overflow_of_applyNested {e : ReductionError} (hfilled : t.Filled)
    (h : r.applyNested type.numeric t = .error e) :
    r = .sum ∧ e = .overflow ∧
      (type.signed = false → ¬ type.InRange (t.flat.map type.toInt).sum) := by
  induction t using Nesting.induct with
  | value y => cases h
  | group parts ih =>
    obtain ⟨hne, hfilled⟩ := Nesting.filled_group.1 hfilled
    rw [Nesting.flat_group]
    rcases applyNested_group_eq_error h with ⟨part, hpart, herror⟩ | ⟨xs, hxs, herror⟩
    · obtain ⟨hsum, hover, hout⟩ := ih part hpart (hfilled part hpart) herror
      refine ⟨hsum, hover, fun htype hin => hout htype ?_⟩
      -- the sum of the part lies between zero and the whole sum
      have hpart : part.flat.Sublist (parts.flatMap Nesting.flat) :=
        List.flatMap_def .. ▸ List.sublist_flatten_of_mem (List.mem_map_of_mem hpart)
      exact hin.of_le htype (List.sum_nonneg (nonneg_of_mem_map htype _))
        ((hpart.map type.toInt).sum_le_sum (nonneg_of_mem_map htype _))
    · cases e with
      | empty =>
        obtain rfl := apply_eq_error_empty_iff.1 herror
        exact absurd (List.forall₂_nil_right_iff.1 hxs) hne
      | overflow =>
        obtain rfl := eq_sum_of_overflow herror
        refine ⟨rfl, rfl, fun htype => ?_⟩
        rw [← sum_results hxs]
        exact (apply_sum_eq_overflow_iff_of_unsigned htype).1 herror

/-- Groups make no difference, but for signed sums. -/
theorem applyNested_eq_apply (hfree : r = .sum → type.signed = false) (hfilled : t.Filled) :
    r.applyNested type.numeric t = r.apply type.numeric t.flat := by
  cases hnested : r.applyNested type.numeric t with
  | error e =>
    obtain ⟨rfl, rfl, hout⟩ := overflow_of_applyNested hfilled hnested
    have htype := hfree rfl
    exact ((apply_sum_eq_overflow_iff_of_unsigned htype).2 (hout htype)).symm
  | ok x =>
    rcases apply_cases r t.flat with ⟨y, hy⟩ | hempty | hover
    · rw [hy, eq_of_applyNested hnested hy]
    · exact absurd (apply_eq_error_empty_iff.1 hempty) (Nesting.flat_ne_nil hfilled)
    · obtain rfl := eq_sum_of_overflow hover
      have hout := (apply_sum_eq_overflow_iff_of_unsigned (hfree rfl)).1 hover
      have hexact := yields_applyNested hnested
      rw [Yields] at hexact
      rw [← hexact] at hout
      exact absurd (IntegerType.inRange_toInt x) hout

/-! ## Exactness -/

theorem Yields.mem_of_ne_sum {inputs : List Int} {n : Int} (h : r.Yields inputs n)
    (hr : r ≠ .sum) : n ∈ inputs := by
  cases r with
  | sum => exact absurd rfl hr
  | max => exact h.1
  | min => exact h.1

/-- A maximum or minimum of at least one value is found, and is one of the values. -/
theorem exists_apply_of_ne_sum (hr : r ≠ .sum) {values : List type.numeric.Carrier}
    (hne : values ≠ []) : ∃ x ∈ values, r.apply type.numeric values = .ok x ∧
      r.Yields (values.map type.toInt) (type.toInt x) := by
  rcases apply_cases r values with ⟨x, hx⟩ | hempty | hover
  · have hyields := yields_apply hx
    obtain ⟨v, hv, heq⟩ := List.mem_map.1 (hyields.mem_of_ne_sum hr)
    obtain rfl := IntegerType.toInt_inj.1 heq
    exact ⟨v, hv, hx, hyields⟩
  · exact absurd (apply_eq_error_empty_iff.1 hempty) hne
  · exact absurd (eq_sum_of_overflow hover) hr

/-- Reductions of integers are exact. There is none of no values. A sum is that of the integers,
and an overflow where this is outside the type; unsigned numbers overflow nowhere else. However the
values are put into groups, and the results into groups again, there is no other result, and no
failure either unless signed numbers are summed. A maximum or minimum is one of the values and
bounds them all. -/
theorem apply_exact (type : IntegerType) (values : List type.numeric.Carrier) :
    (∀ r : Reduction, r.apply type.numeric values = .error .empty ↔ values = []) ∧
    (∀ s, sum.apply type.numeric values = .ok s →
      type.toInt s = (values.map type.toInt).sum) ∧
    (¬ type.InRange (values.map type.toInt).sum →
      sum.apply type.numeric values = .error .overflow) ∧
    (type.signed = false → values ≠ [] → type.InRange (values.map type.toInt).sum →
      ∃ s, sum.apply type.numeric values = .ok s) ∧
    (∀ (r : Reduction) (t : Nesting type.numeric.Carrier), t.flat = values →
      (∀ x y, r.applyNested type.numeric t = .ok x → r.apply type.numeric values = .ok y →
        x = y) ∧
      ((r = .sum → type.signed = false) → t.Filled →
        r.applyNested type.numeric t = r.apply type.numeric values)) ∧
    (values ≠ [] →
      (∃ x ∈ values, max.apply type.numeric values = .ok x ∧
        ∀ v ∈ values, type.toInt v ≤ type.toInt x) ∧
      ∃ x ∈ values, min.apply type.numeric values = .ok x ∧
        ∀ v ∈ values, type.toInt x ≤ type.toInt v) := by
  refine ⟨fun r => apply_eq_error_empty_iff, fun s => yields_apply, fun hout => ?_,
    fun htype hne hin => ?_, ?_, fun hne => ⟨?_, ?_⟩⟩
  · exact apply_sum_eq_overflow_iff.2 ⟨_, List.prefix_rfl, hout⟩
  · rcases apply_cases sum values with hsum | hempty | hover
    · exact hsum
    · exact absurd (apply_eq_error_empty_iff.1 hempty) hne
    · exact absurd hin ((apply_sum_eq_overflow_iff_of_unsigned htype).1 hover)
  · rintro r t rfl
    exact ⟨fun x y => eq_of_applyNested, applyNested_eq_apply⟩
  · obtain ⟨x, hx, happly, -, hbound⟩ := exists_apply_of_ne_sum (r := .max) nofun hne
    exact ⟨x, hx, happly, fun v hv => hbound _ (List.mem_map_of_mem hv)⟩
  · obtain ⟨x, hx, happly, -, hbound⟩ := exists_apply_of_ne_sum (r := .min) nofun hne
    exact ⟨x, hx, happly, fun v hv => hbound _ (List.mem_map_of_mem hv)⟩

/-- The greatest signed number and one more; and unsigned, two numbers up to the greatest one, the
first of them in a group by itself. -/
theorem apply_exact_grouped :
    sum.apply .i32 [2147483647, 1] = .error .overflow ∧
      (∃ s, sum.apply .u32 [7, 4294967288] = .ok s ∧
        sum.applyNested .u32 (.group [.group [.value 7], .value 4294967288]) = .ok s ∧
        IntegerType.toInt .u32 s = 4294967295 ∧
        ∀ y, sum.apply .u32 [7, 4294967288] = .ok y → s = y) ∧
      (∃ x ∈ ([7, 4294967288] : List UInt32), max.apply .u32 [7, 4294967288] = .ok x) ∧
      ∃ x ∈ ([7, 4294967288] : List UInt32), min.apply .u32 [7, 4294967288] = .ok x := by
  obtain ⟨-, -, hover, -⟩ := apply_exact .i32 [2147483647, 1]
  obtain ⟨-, hexact, -, hin, hnested, hbounds⟩ := apply_exact .u32 [7, 4294967288]
  have hne : ([7, 4294967288] : List UInt32) ≠ [] := List.cons_ne_nil _ _
  obtain ⟨s, hs⟩ := hin rfl hne (by decide)
  obtain ⟨hsame, hgrouped⟩ := hnested .sum (.group [.group [.value 7], .value 4294967288]) rfl
  have hfilled : Nesting.Filled (.group [.group [.value (7 : UInt32)], .value 4294967288]) :=
    ⟨nofun, ⟨nofun, trivial, trivial⟩, trivial, trivial⟩
  have hvalue := (hgrouped (fun _ => rfl) hfilled).trans hs
  obtain ⟨⟨x, hx, hmax, -⟩, y, hy, hmin, -⟩ := hbounds hne
  exact ⟨hover (by decide), ⟨s, hs, hvalue, hexact s hs, fun y => hsame s y hvalue⟩,
    ⟨x, hx, hmax⟩, y, hy, hmin⟩

end Reduction

end Collective
