import Collective.Proofs.Topology.Recursion

/-!
# The pre-order of a tree

The pre-order of a tree lists a task and then the pre-orders of the subtrees of its children, one
after the other. It lists every member once.
-/

namespace Collective

namespace Topology

variable {t : Topology} {task : String} {ε : Type}

/-- A task and all tasks below it, in pre-order. -/
def below (t : Topology) : String → List String :=
  t.foldUp fun task subtrees => task :: subtrees.flatten

/-- The pre-order of the whole tree. -/
def preorder (t : Topology) : List String := t.below t.spec.root

namespace IsHeap

/-- Below a task come the subtrees of its children. -/
theorem below_eq (h : t.IsHeap) (hroot : t.spec.root ∈ t.members) (hmem : task ∈ t.members) :
    t.below task = task :: (t.childrenOf task).flatMap t.below := by
  rw [below, h.foldUp_eq hroot _ hmem, List.flatMap_def]

/-- The tasks below the next ones of the level order are those behind them: the tasks from index
`k` up to the last child of the task before it, with all below them, are the tasks from `k` on. -/
theorem perm_below_window (h : t.IsHeap) (hroot : t.spec.root ∈ t.members) {levels k : Nat}
    (hk : k + levels = t.placed.length) :
    (((t.placed.drop k).take (k * t.fanOut + 1 - k)).flatMap t.below).Perm (t.placed.drop k) := by
  induction levels generalizing k with
  | zero =>
    rw [List.drop_of_length_le (by omega)]
    simp
  | succ levels ih =>
    have hlt : k < t.placed.length := by omega
    have hle : k ≤ k * t.fanOut := Nat.le_mul_of_pos_right k t.fanOut_pos
    have hwidth : k * t.fanOut + 1 - k = (k * t.fanOut - k) + 1 := by omega
    -- the window of the next index is the rest of this one and the children of the task at `k`
    have hnext : (t.placed.drop (k + 1)).take ((k + 1) * t.fanOut + 1 - (k + 1)) =
        (t.placed.drop (k + 1)).take (k * t.fanOut - k) ++ t.childrenOf t.placed[k] := by
      have hsum : (k + 1) * t.fanOut + 1 - (k + 1) = (k * t.fanOut - k) + t.fanOut := by
        rw [Nat.succ_mul]
        omega
      have hstart : k + 1 + (k * t.fanOut - k) = k * t.fanOut + 1 := by omega
      rw [hsum, List.take_add, List.drop_drop, hstart, h.childrenOf_placed hlt, Heap.children]
    have hrest := ih (k := k + 1) (by omega)
    rw [hnext, List.flatMap_append] at hrest
    rw [List.drop_eq_getElem_cons hlt, hwidth, List.take_succ_cons, List.flatMap_cons,
      h.below_eq hroot (h.mem_placed.1 (List.getElem_mem hlt)).2, List.cons_append]
    apply List.Perm.cons
    exact List.perm_append_comm.trans hrest

/-- The pre-order of a tree lists every member once. -/
theorem perm_preorder (h : t.IsHeap) (hroot : t.spec.root ∈ t.members) :
    t.preorder.Perm t.placed := by
  obtain ⟨hzero, hfirst⟩ := h.root_index hroot
  have hall := h.perm_below_window hroot (k := 0) (Nat.zero_add _)
  rw [List.drop_zero, Nat.zero_mul, Nat.zero_add, Nat.sub_zero, List.take_one,
    List.head?_eq_getElem?, List.getElem?_eq_getElem hzero, hfirst] at hall
  simpa [preorder] using hall

/-- The tasks below the children of the root are the members other than the root. -/
theorem perm_below_root (h : t.IsHeap) (hroot : t.spec.root ∈ t.members) :
    ((t.childrenOf t.spec.root).flatMap t.below).Perm (t.members.filter (· ≠ t.spec.root)) := by
  have hall := h.perm_preorder hroot
  rw [preorder, h.below_eq hroot hroot, h.placed_of_root hroot] at hall
  exact List.Perm.cons_inv hall

/-- Behind the root come the tasks below its children. -/
theorem filter_preorder (h : t.IsHeap) (hroot : t.spec.root ∈ t.members) :
    t.preorder.filter (· ≠ t.spec.root) = (t.childrenOf t.spec.root).flatMap t.below := by
  rw [preorder, h.below_eq hroot hroot, List.filter_cons_of_neg (by simp), List.filter_eq_self]
  intro task hmem
  exact (List.mem_filter.1 ((h.perm_below_root hroot).mem_iff.1 hmem)).2

/-- If each task keeps the front of what it has and its children have the rest, then what is kept
below a task is, in pre-order, what the task has. -/
theorem flatMap_below (h : t.IsHeap) (hroot : t.spec.root ∈ t.members)
    {kept whole : String → List ε}
    (hsplit : ∀ task ∈ t.members, whole task = kept task ++ (t.childrenOf task).flatMap whole) :
    ∀ task ∈ t.members, (t.below task).flatMap kept = whole task := by
  apply h.induct_up hroot (P := fun task => (t.below task).flatMap kept = whole task)
  intro task hmem ih
  rw [h.below_eq hroot hmem, List.flatMap_cons, List.flatMap_assoc, hsplit task hmem]
  congr 1
  exact List.flatMap_congr ih

end IsHeap

end Topology

end Collective
