import Collective.Proofs.Topology.Kinship

/-!
# Recursion over a tree

A tree gives every task a value, either out of the values of its children, from the leaves up, or
out of the value of its parent, from the root down. Both recursions count levels, and there are
enough of them: in a heap every child stands behind its parent.
-/

namespace Collective

namespace Topology

variable {t : Topology} {task parent child : String} {β : Type}

/-- The value of a task out of those of its children, over so many levels. -/
def upward (t : Topology) (f : String → List β → β) : (levels : Nat) → String → β
  | 0, task => f task []
  | levels + 1, task => f task ((t.childrenOf task).map (t.upward f levels))

/-- The value of a task out of those of its children. -/
def foldUp (t : Topology) (f : String → List β → β) (task : String) : β :=
  t.upward f t.placed.length task

/-- The value of a task out of that of its parent, over so many levels. -/
def downward (t : Topology) (start : β) (f : String → β → String → β) :
    (levels : Nat) → String → β
  | 0, _ => start
  | levels + 1, task =>
    match t.parentOf task with
    | none => start
    | some parent => f parent (t.downward start f levels parent) task

/-- The value of a task out of that of its parent; the root has the first one. -/
def foldDown (t : Topology) (start : β) (f : String → β → String → β) (task : String) : β :=
  t.downward start f t.placed.length task

namespace IsHeap

/-- A child stands behind its parent. -/
theorem exists_index_of_child (h : t.IsHeap) {i : Nat} (hi : i < t.placed.length)
    (hchild : child ∈ t.childrenOf t.placed[i]) :
    ∃ j, ∃ hj : j < t.placed.length, i < j ∧ t.placed[j] = child := by
  rw [h.childrenOf_placed hi, Heap.children] at hchild
  obtain ⟨k, hk, rfl⟩ := List.getElem_of_mem hchild
  rw [List.length_take, List.length_drop] at hk
  have hle : i ≤ i * t.fanOut := Nat.le_mul_of_pos_right i t.fanOut_pos
  refine ⟨i * t.fanOut + 1 + k, by omega, by omega, ?_⟩
  rw [List.getElem_take, List.getElem_drop]

/-- A parent stands before its child. -/
theorem exists_index_of_parent (h : t.IsHeap) {j : Nat} (hj : j < t.placed.length)
    (hparent : t.parentOf t.placed[j] = some parent) :
    ∃ i, ∃ hi : i < t.placed.length, i < j ∧ t.placed[i] = parent := by
  rw [h.parentOf_placed hj, Heap.parent] at hparent
  split at hparent
  · cases hparent
  · next hindex =>
    obtain ⟨hi, rfl⟩ := List.getElem?_eq_some_iff.1 hparent
    exact ⟨_, hi, Heap.parentIndex_lt hindex, rfl⟩

/-- What holds of every member of whose children it holds, holds of all. -/
theorem induct_up (h : t.IsHeap) (hroot : t.spec.root ∈ t.members) {P : String → Prop}
    (hstep : ∀ task ∈ t.members, (∀ child ∈ t.childrenOf task, P child) → P task) :
    ∀ task ∈ t.members, P task := by
  have hindex : ∀ levels i (hi : i < t.placed.length), t.placed.length ≤ i + levels →
      P t.placed[i] := by
    intro levels
    induction levels with
    | zero =>
      intro i hi hle
      omega
    | succ levels ih =>
      intro i hi hle
      apply hstep _ (h.mem_placed.1 (List.getElem_mem hi)).2
      intro child hchild
      obtain ⟨j, hj, hlt, rfl⟩ := h.exists_index_of_child hi hchild
      exact ih j hj (by omega)
  intro task hmem
  obtain ⟨i, hi, rfl⟩ := h.exists_index hroot hmem
  exact hindex t.placed.length i hi (by omega)

/-- What holds of the root, and of the children of every member of which it holds, holds of all. -/
theorem induct_down (h : t.IsHeap) (hroot : t.spec.root ∈ t.members) {P : String → Prop}
    (hstart : P t.spec.root)
    (hstep : ∀ parent ∈ t.members, P parent → ∀ child ∈ t.childrenOf parent, P child) :
    ∀ task ∈ t.members, P task := by
  intro task hmem
  have hreach := h.reaches_root hroot hmem
  induction hreach using Relation.ReflTransGen.head_induction_on with
  | refl => exact hstart
  | @head child parent hup _ ih =>
    obtain ⟨hmember, hparent⟩ := hup
    exact hstep parent hmember (ih hmember) child
      ((h.mem_childrenOf_iff hroot hmember hmem).2 hparent)

/-- Levels below the last one add nothing. -/
theorem upward_eq (h : t.IsHeap) (f : String → List β → β) {i : Nat} (hi : i < t.placed.length)
    {m n : Nat} (hm : t.placed.length ≤ i + m) (hn : t.placed.length ≤ i + n) :
    t.upward f m t.placed[i] = t.upward f n t.placed[i] := by
  induction m generalizing i n with
  | zero => omega
  | succ m ih =>
    cases n with
    | zero => omega
    | succ n =>
      rw [upward, upward]
      congr 1
      apply List.map_congr_left
      intro child hchild
      obtain ⟨j, hj, hlt, rfl⟩ := h.exists_index_of_child hi hchild
      exact ih hj (by omega) (by omega)

theorem foldUp_eq (h : t.IsHeap) (hroot : t.spec.root ∈ t.members) (f : String → List β → β)
    (hmem : task ∈ t.members) :
    t.foldUp f task = f task ((t.childrenOf task).map (t.foldUp f)) := by
  obtain ⟨i, hi, rfl⟩ := h.exists_index hroot hmem
  rw [foldUp, h.upward_eq f hi (n := t.placed.length + 1) (by omega) (by omega), upward]
  rfl

/-- Levels above the root add nothing. -/
theorem downward_eq (h : t.IsHeap) (start : β) (f : String → β → String → β) {i : Nat}
    (hi : i < t.placed.length) {m n : Nat} (hm : i < m) (hn : i < n) :
    t.downward start f m t.placed[i] = t.downward start f n t.placed[i] := by
  induction m generalizing i n with
  | zero => omega
  | succ m ih =>
    cases n with
    | zero => omega
    | succ n =>
      rw [downward, downward]
      cases hparent : t.parentOf t.placed[i] with
      | none => rfl
      | some parent =>
        obtain ⟨j, hj, hlt, rfl⟩ := h.exists_index_of_parent hi hparent
        dsimp only
        rw [ih hj (n := n) (by omega) (by omega)]

theorem foldDown_root (h : t.IsHeap) (hroot : t.spec.root ∈ t.members) (start : β)
    (f : String → β → String → β) : t.foldDown start f t.spec.root = start := by
  have hparent : t.parentOf t.spec.root = none :=
    (h.parentOf_eq_none_iff hroot hroot).2 rfl
  rw [foldDown]
  cases t.placed.length with
  | zero => rfl
  | succ levels => rw [downward, hparent]

theorem foldDown_child (h : t.IsHeap) (hroot : t.spec.root ∈ t.members) (start : β)
    (f : String → β → String → β) (hmem : parent ∈ t.members)
    (hchild : child ∈ t.childrenOf parent) :
    t.foldDown start f child = f parent (t.foldDown start f parent) child := by
  have hmember := h.mem_of_mem_childrenOf hroot hmem hchild
  have hparent := h.parentOf_of_mem_childrenOf hroot hmem hchild
  obtain ⟨i, hi, rfl⟩ := h.exists_index hroot hmember
  rw [foldDown, h.downward_eq start f hi (n := t.placed.length + 1) hi (by omega), downward,
    hparent]
  rfl

end IsHeap

end Topology

end Collective
