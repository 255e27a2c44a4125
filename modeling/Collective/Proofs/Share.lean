import Collective.Share
import Mathlib.Algebra.BigOperators.Group.List.Basic
import Mathlib.Algebra.GroupWithZero.Nat

/-!
# Nothing is lost by sharing

The shares of a list, one behind the other, are the list, whatever the number of shares and the
length of the list are. Cutting the lengths one after another off the list leaves nothing over, so
the shares have exactly these lengths (`map_length_cut`).
-/

namespace Collective.Share

variable {ε : Type} {parts : Nat} {elements : List ε}

/-- What is left behind some runs. -/
theorem rest_cut (ls : List Nat) (elements : List ε) :
    (cut ls elements).2 = elements.drop ls.sum := by
  induction ls generalizing elements with
  | nil => rfl
  | cons length ls ih => rw [cut, ih, List.drop_drop, List.sum_cons]

theorem sum_range (base remainder n : Nat) :
    ((List.range n).map fun i => base + if i < remainder then 1 else 0).sum =
      n * base + min n remainder := by
  induction n with
  | zero => simp
  | succ n ih =>
    rw [List.range_succ, List.map_append, List.sum_append, ih, List.map_singleton,
      List.sum_singleton, Nat.succ_mul]
    by_cases h : n < remainder
    · rw [if_pos h]
      omega
    · rw [if_neg h]
      omega

/-- The lengths of the shares add up to the number of elements. -/
theorem sum_lengths (h : 0 < parts) (total : Nat) : (lengths parts total).sum = total := by
  have hle : total % parts ≤ parts := Nat.le_of_lt (Nat.mod_lt total h)
  rw [lengths, sum_range, Nat.min_eq_right hle, Nat.div_add_mod]

@[simp] theorem length_shares (parts : Nat) (elements : List ε) :
    (shares parts elements).length = parts := by
  rw [shares, length_cut, length_lengths]

/-- The shares of a list are contiguous and leave nothing out. -/
theorem flatten_shares (h : 0 < parts) (elements : List ε) :
    (shares parts elements).flatten = elements := by
  have hcut := flatten_cut (lengths parts elements.length) elements
  rwa [rest_cut, sum_lengths h, List.drop_length, List.append_nil] at hcut

/-- Runs have the lengths asked for, where the list is long enough for all of them. -/
theorem map_length_cut (ls : List Nat) {elements : List ε} (h : ls.sum ≤ elements.length) :
    (cut ls elements).1.map List.length = ls := by
  induction ls generalizing elements with
  | nil => rfl
  | cons length ls ih =>
    rw [List.sum_cons] at h
    have hrest : ls.sum ≤ (elements.drop length).length := by
      rw [List.length_drop]
      omega
    rw [cut, List.map_cons, ih hrest, List.length_take_of_le (by omega)]

theorem map_length_shares (h : 0 < parts) (elements : List ε) :
    (shares parts elements).map List.length = lengths parts elements.length :=
  map_length_cut _ (Nat.le_of_eq (sum_lengths h _))

/-- A share holds elements of the list. -/
theorem mem_of_mem_shares {share : List ε} (hshare : share ∈ shares parts elements) {x : ε}
    (hx : x ∈ share) : x ∈ elements := by
  have hcut := flatten_cut (lengths parts elements.length) elements
  rw [← hcut]
  exact List.mem_append_left _ (List.mem_flatten.2 ⟨share, hshare, hx⟩)

/-- The first share and the others. -/
theorem headD_append_flatten_tail (parts : Nat) (elements : List ε) :
    (shares (parts + 1) elements).headD [] ++ (shares (parts + 1) elements).tail.flatten =
      elements := by
  have hall := flatten_shares (Nat.succ_pos parts) elements
  cases hshares : shares (parts + 1) elements with
  | nil =>
    have hlength := length_shares (parts + 1) elements
    rw [hshares] at hlength
    cases hlength
  | cons first rest =>
    rw [hshares, List.flatten_cons] at hall
    exact hall

/-- Shares do not get longer towards the end, and differ by at most one. -/
theorem pairwise_lengths (parts total : Nat) :
    (lengths parts total).Pairwise fun earlier later => later ≤ earlier ∧ earlier ≤ later + 1 := by
  rw [lengths, List.pairwise_map]
  refine List.pairwise_lt_range.imp fun {i j} hij => ?_
  -- where the later one is among the longer ones, so is the earlier one
  split <;> split <;> omega

/-- A list is shared out completely and in order: there are as many shares as asked for, one behind
the other they are the list, and nothing is left behind the last one. The shares up to the
remainder are longer by one. -/
theorem shares_exact (h : 0 < parts) (elements : List ε) :
    (shares parts elements).length = parts ∧
    (shares parts elements).flatten = elements ∧
    (cut (lengths parts elements.length) elements).2 = [] ∧
    (∀ {i : Nat} {share : List ε}, (shares parts elements)[i]? = some share →
      share.length =
        if i < elements.length % parts then elements.length / parts + 1
        else elements.length / parts) ∧
    ((shares parts elements).map List.length).Pairwise fun earlier later =>
      later ≤ earlier ∧ earlier ≤ later + 1 := by
  refine ⟨length_shares parts elements, flatten_shares h elements, ?_, ?_, ?_⟩
  · rw [rest_cut, sum_lengths h, List.drop_length]
  · intro i share hshare
    have hlength : (lengths parts elements.length)[i]? = some share.length := by
      rw [← map_length_shares h, List.getElem?_map, hshare, Option.map_some]
    obtain ⟨hi, hlength⟩ := List.getElem?_eq_some_iff.1 hlength
    rw [← hlength]
    simp only [lengths, List.getElem_map, List.getElem_range]
    split <;> rfl
  · rw [map_length_shares h]
    exact pairwise_lengths parts elements.length

/-- Two shares with an element, and two without one. -/
theorem shares_exact_few :
    0 < 4 ∧ shares 4 ["a", "b"] = [["a"], ["b"], [], []] ∧
      (shares 4 ["a", "b"]).flatten = ["a", "b"] ∧
      (cut (lengths 4 2) ["a", "b"]).2 = [] ∧ ([] : List String).length = 2 / 4 := by
  obtain ⟨-, hflatten, hrest, hlength, -⟩ := shares_exact (by decide : 0 < 4) ["a", "b"]
  have hlast : (shares 4 ["a", "b"])[3]? = some [] := by decide
  exact ⟨by decide, by decide, hflatten, hrest, hlength hlast⟩

end Collective.Share
