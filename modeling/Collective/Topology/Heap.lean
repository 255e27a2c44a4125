import Collective.Topology.Basic

/-!
# Heaps of tasks

A list of tasks is the level order of a tree in which every level is full but the last: the first
task is the root, and the children of the task at index `i` stand at the indices from
`i * fanOut + 1` up to `i * fanOut + fanOut`, as far as there are that many tasks. `IsHeap` says of
the tree of an operator that it is the heap of its members, the root first and the others in the
order in which they joined, that the set of its members is up to date, and that its frontier is the
parent of the task that was placed last.
-/

namespace Collective

namespace Heap

/-- The index of the parent of an index other than zero. -/
def parentIndex (fanOut i : Nat) : Nat := (i - 1) / fanOut

theorem parentIndex_lt {fanOut i : Nat} (h : i ≠ 0) : parentIndex fanOut i < i := by
  have := Nat.div_le_self (i - 1) fanOut
  rw [parentIndex]
  omega

/-- The number of steps from an index to the root. -/
def level (fanOut i : Nat) : Nat :=
  if _h : i = 0 then 0 else level fanOut (parentIndex fanOut i) + 1
termination_by i
decreasing_by exact parentIndex_lt _h

/-- The parent of the task at an index. -/
def parent (fanOut : Nat) (order : List String) (i : Nat) : Option String :=
  if i = 0 then none else order[parentIndex fanOut i]?

/-- The children of the task at an index. -/
def children (fanOut : Nat) (order : List String) (i : Nat) : List String :=
  (order.drop (i * fanOut + 1)).take fanOut

/-- The nodes of a heap. -/
def nodes (fanOut : Nat) (order : List String) : List Node :=
  order.zipIdx.map fun (task, i) =>
    ⟨task, parent fanOut order i, children fanOut order i, level fanOut i⟩

@[simp] theorem level_zero (fanOut : Nat) : level fanOut 0 = 0 := by
  simp [level]

theorem level_of_ne_zero {fanOut i : Nat} (h : i ≠ 0) :
    level fanOut i = level fanOut (parentIndex fanOut i) + 1 := by
  rw [level, dif_neg h]

@[simp] theorem length_nodes (fanOut : Nat) (order : List String) :
    (nodes fanOut order).length = order.length := by
  simp [nodes]

/-- The tasks of a heap stand in its order. -/
@[simp] theorem map_task_nodes (fanOut : Nat) (order : List String) :
    (nodes fanOut order).map (·.task) = order := by
  simp [nodes, List.map_map, Function.comp_def]

/-- No task has more children than it has room for. -/
theorem length_children_le (fanOut : Nat) (order : List String) (i : Nat) :
    (children fanOut order i).length ≤ fanOut := by
  rw [children, List.length_take]
  exact Nat.min_le_left ..

end Heap

namespace Topology

/-- The order in which the members have to be placed: nobody before the root has joined, and then
the root first. -/
def order (t : Topology) : List String :=
  if t.spec.root ∈ t.members then t.spec.root :: t.members.filter (· ≠ t.spec.root) else []

/-- The tree with the tasks of an order at their places. The search for room goes on where the last
task was placed. -/
def lay (t : Topology) (order : List String) : Topology :=
  { t with
    nodes := Heap.nodes t.fanOut order
    placement := order
    frontier := Heap.parentIndex t.fanOut (order.length - 1) }

/-- The tree is the heap of its members, each of whom is one once. -/
structure IsHeap (t : Topology) : Prop where
  nodup_members : t.members.Nodup
  known_eq : t.known = t.members.reverse
  nodes_eq : t.nodes = Heap.nodes t.fanOut t.order
  placed_eq : t.placed = t.order
  frontier_eq : t.frontier = Heap.parentIndex t.fanOut (t.order.length - 1)

/-- A tree that is laid out for its members, and knows them, is a heap. -/
theorem isHeap_lay {t : Topology} (hnodup : t.members.Nodup)
    (hknown : t.known = t.members.reverse) : (t.lay t.order).IsHeap :=
  ⟨hnodup, hknown, rfl, rfl, rfl⟩

/-- A tree with nothing in it is the heap of nobody. -/
theorem isHeap_of_cleared {t : Topology} (hmembers : t.members = []) (hknown : t.known = [])
    (hnodes : t.nodes = []) (hplacement : t.placement = []) (hfrontier : t.frontier = 0) :
    t.IsHeap := by
  have horder : t.order = [] := by simp [order, hmembers]
  exact ⟨by simp [hmembers], by simp [hknown, hmembers], by simp [hnodes, horder, Heap.nodes],
    hplacement.trans horder.symm, by simp [hfrontier, horder, Heap.parentIndex]⟩

theorem isHeap_of_new {name : String} {spec : OperatorSpec} {fanOut : Nat} {t : Topology}
    (h : new name spec fanOut = .ok t) : t.IsHeap := by
  rw [new] at h
  split at h
  · cases h
    exact isHeap_of_cleared rfl rfl rfl rfl rfl
  · cases h

namespace IsHeap

variable {t : Topology}

theorem lay_order (h : t.IsHeap) : t.lay t.order = t := by
  rw [lay, ← h.nodes_eq, ← h.frontier_eq, ← h.placed_eq]
  rfl

theorem mem_known (h : t.IsHeap) {task : String} : task ∈ t.known ↔ task ∈ t.members := by
  rw [h.known_eq, List.mem_reverse]

end IsHeap

end Topology

end Collective
