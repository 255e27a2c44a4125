import Collective.Proofs.Topology.Layout
import Mathlib.Algebra.Ring.GeomSum

/-!
# Levels of a heap

The levels of a heap fill up one after the other, from the root down, and each has room for
`fanOut` times as many tasks as the one above it. So the level of an index is the first one down to
which there is room for it, and the height of a tree depends only on how many tasks are placed.
-/

namespace Collective

namespace Heap

variable {fanOut h i j : Nat}

/-- The number of indices on the levels from the root down to one. -/
def capacity (fanOut h : Nat) : Nat := ∑ k ∈ Finset.range (h + 1), fanOut ^ k

@[simp] theorem capacity_zero (fanOut : Nat) : capacity fanOut 0 = 1 := by
  simp [capacity]

theorem capacity_succ (fanOut h : Nat) :
    capacity fanOut (h + 1) = fanOut * capacity fanOut h + 1 :=
  geom_sum_succ

theorem capacity_lt_succ (hpos : 0 < fanOut) (h : Nat) :
    capacity fanOut h < capacity fanOut (h + 1) := by
  have := Nat.le_mul_of_pos_left (capacity fanOut h) hpos
  rw [capacity_succ]
  omega

/-- The levels down to one hold the first indices, as many as there is room for. -/
theorem level_le_iff (hpos : 0 < fanOut) : level fanOut i ≤ h ↔ i < capacity fanOut h := by
  -- An index stands one level below that of its parent, and `capacity_succ` counts in the same way.
  induction h generalizing i with
  | zero =>
    by_cases hi : i = 0
    · simp [hi]
    · rw [level_of_ne_zero hi, capacity_zero]
      omega
  | succ h ih =>
    rw [capacity_succ]
    by_cases hi : i = 0
    · simp [hi]
    · rw [level_of_ne_zero hi, Nat.add_le_add_iff_right, ih, parentIndex,
        Nat.div_lt_iff_lt_mul hpos, Nat.mul_comm]
      omega

/-- The indices below `n` stand on the levels down to one exactly if there is room for `n`. -/
theorem forall_level_le_iff (hpos : 0 < fanOut) {n : Nat} :
    (∀ i < n, level fanOut i ≤ h) ↔ n ≤ capacity fanOut h := by
  simp only [level_le_iff hpos]
  constructor
  · intro hroom
    by_contra hfull
    have := hroom (capacity fanOut h) (by omega)
    omega
  · intro hroom i hi
    omega

theorem level_mono (hpos : 0 < fanOut) (hij : i ≤ j) : level fanOut i ≤ level fanOut j := by
  have hj : j < capacity fanOut (level fanOut j) := (level_le_iff hpos).1 (Nat.le_refl _)
  exact (level_le_iff hpos).2 (by omega)

/-- The next index stands on the same level or on the next one. -/
theorem level_succ_le (hpos : 0 < fanOut) (i : Nat) :
    level fanOut (i + 1) ≤ level fanOut i + 1 := by
  have hi : i < capacity fanOut (level fanOut i) := (level_le_iff hpos).1 (Nat.le_refl _)
  have hroom := capacity_lt_succ hpos (level fanOut i)
  exact (level_le_iff hpos).2 (by omega)

/-- The depths of the nodes of a heap are the levels of its indices. -/
theorem map_depth_nodes (fanOut : Nat) (order : List String) :
    (nodes fanOut order).map (·.depth) = (List.range order.length).map (level fanOut) := by
  apply List.ext_getElem
  · simp
  · intro i hi _
    simp [nodes]

end Heap

theorem foldl_max_le_iff {l : List Nat} {start bound : Nat} :
    l.foldl max start ≤ bound ↔ start ≤ bound ∧ ∀ n ∈ l, n ≤ bound := by
  induction l generalizing start with
  | nil => simp
  | cons n rest ih => simp [ih, and_assoc]

namespace Topology

variable {t : Topology}

/-- The depth of a task in the tree. -/
def depthOf (t : Topology) (task : String) : Option Nat := (t.node? task).map (·.depth)

namespace IsHeap

theorem depthOf_placed (h : t.IsHeap) {i : Nat} (hi : i < t.placed.length) :
    t.depthOf t.placed[i] = some (Heap.level t.fanOut i) := by
  rw [depthOf, h.node?_placed hi]
  rfl

/-- A tree with a root has a height, and it is the first one at which there is room for all placed
tasks. -/
theorem exists_depth (h : t.IsHeap) (hroot : t.spec.root ∈ t.members) :
    ∃ d, t.depth = some d ∧ ∀ bound, d ≤ bound ↔
      t.placed.length ≤ Heap.capacity t.fanOut bound := by
  have hplaced : t.isPlaced t.spec.root = true :=
    h.mem_placed_iff_isPlaced.1 (h.mem_placed.2 ⟨hroot, hroot⟩)
  refine ⟨_, if_pos hplaced, ?_⟩
  intro bound
  rw [h.nodes_eq, Heap.map_depth_nodes, ← h.placed_eq, foldl_max_le_iff,
    ← Heap.forall_level_le_iff t.fanOut_pos]
  simp

end IsHeap

end Topology

end Collective
