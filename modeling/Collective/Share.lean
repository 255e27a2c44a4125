/-!
# Contiguous shares

A list is cut into consecutive runs of given lengths. `shares parts` cuts it into `parts` runs whose
lengths differ by at most one, the earlier runs being the longer ones.
-/

namespace Collective.Share

/-- Consecutive runs of the given lengths, and what is left behind them. -/
def cut : List Nat → List ε → List (List ε) × List ε
  | [], elements => ([], elements)
  | length :: lengths, elements =>
    let (runs, rest) := cut lengths (elements.drop length)
    (elements.take length :: runs, rest)

/-- The lengths of `parts` shares of `total` elements. -/
def lengths (parts total : Nat) : List Nat :=
  (List.range parts).map fun i => total / parts + if i < total % parts then 1 else 0

/-- `parts` contiguous shares of a list. -/
def shares (parts : Nat) (elements : List ε) : List (List ε) :=
  (cut (lengths parts elements.length) elements).1

@[simp] theorem length_lengths (parts total : Nat) : (lengths parts total).length = parts := by
  simp [lengths]

@[simp] theorem length_cut (ls : List Nat) (elements : List ε) :
    (cut ls elements).1.length = ls.length := by
  induction ls generalizing elements with
  | nil => rfl
  | cons length ls ih => simp [cut, ih]

/-- Nothing is lost by cutting. -/
theorem flatten_cut (ls : List Nat) (elements : List ε) :
    (cut ls elements).1.flatten ++ (cut ls elements).2 = elements := by
  induction ls generalizing elements with
  | nil => rfl
  | cons length ls ih => simp [cut, ih]

end Collective.Share
