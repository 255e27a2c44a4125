import Collective.Proofs.Topology.Layout
import Mathlib.Logic.Relation

/-!
# Parents and children in a heap

While the root is a member, the queries of a heap describe one rooted tree over the members: the
root alone has no parent, the lists of children are the inverse of the parents, and from every
member the parents lead to the root.
-/

namespace Collective

namespace Topology

variable {t : Topology} {task parent child : String}

/-- What a placed task is told about its place. -/
def seat (t : Topology) (task : String) : Place :=
  ⟨task, t.parentOf task, t.childrenOf task, t.spec.roleOf task⟩

theorem place_of_isPlaced (h : t.isPlaced task = true) : t.place task = .ok (t.seat task) := by
  obtain ⟨node, hnode⟩ := Option.isSome_iff_exists.1 h
  rw [place, hnode, seat, parentOf, childrenOf, hnode]
  rfl

theorem place_of_not_isPlaced (h : ¬ t.isPlaced task = true) :
    t.place task = .error (.unknown task) := by
  rw [place, Option.not_isSome_iff_eq_none.1 h]

namespace IsHeap

theorem exists_index (h : t.IsHeap) (hroot : t.spec.root ∈ t.members) (hmem : task ∈ t.members) :
    ∃ i, ∃ hi : i < t.placed.length, t.placed[i] = task :=
  List.getElem_of_mem (h.mem_placed.2 ⟨hroot, hmem⟩)

theorem root_index (h : t.IsHeap) (hroot : t.spec.root ∈ t.members) :
    ∃ hi : 0 < t.placed.length, t.placed[0] = t.spec.root := by
  have hplaced := h.placed_of_root hroot
  exact ⟨by simp [hplaced], by simp [hplaced]⟩

/-- The root is the one member without a parent. -/
theorem parentOf_eq_none_iff (h : t.IsHeap) (hroot : t.spec.root ∈ t.members)
    (hmem : task ∈ t.members) : t.parentOf task = none ↔ task = t.spec.root := by
  obtain ⟨hzero, hfirst⟩ := h.root_index hroot
  obtain ⟨i, hi, rfl⟩ := h.exists_index hroot hmem
  rw [← hfirst, h.nodup_placed.getElem_inj_iff, h.parentOf_placed hi, Heap.parent]
  by_cases hindex : i = 0
  · simp [hindex]
  · have hlt : Heap.parentIndex t.fanOut i < i := Heap.parentIndex_lt hindex
    rw [if_neg hindex, List.getElem?_eq_getElem (by omega)]
    simp [hindex]

/-- A placed task is a child of another exactly if that is its parent. -/
theorem mem_childrenOf_iff (h : t.IsHeap) (hroot : t.spec.root ∈ t.members)
    (hparent : parent ∈ t.members) (hchild : child ∈ t.members) :
    child ∈ t.childrenOf parent ↔ t.parentOf child = some parent := by
  obtain ⟨i, hi, rfl⟩ := h.exists_index hroot hparent
  obtain ⟨j, hj, rfl⟩ := h.exists_index hroot hchild
  have hwindow : t.placed[j] ∈ t.childrenOf t.placed[i] ↔
      i * t.fanOut + 1 ≤ j ∧ j < i * t.fanOut + 1 + t.fanOut := by
    rw [h.childrenOf_placed hi, Heap.children, List.mem_iff_getElem]
    constructor
    · rintro ⟨k, hk, he⟩
      rw [List.length_take, List.length_drop] at hk
      rw [List.getElem_take, List.getElem_drop, h.nodup_placed.getElem_inj_iff] at he
      omega
    · rintro ⟨hlow, hhigh⟩
      refine ⟨j - (i * t.fanOut + 1), ?_, ?_⟩
      · rw [List.length_take, List.length_drop]
        omega
      · rw [List.getElem_take, List.getElem_drop, h.nodup_placed.getElem_inj_iff]
        omega
  rw [hwindow, h.parentOf_placed hj, Heap.parent]
  by_cases hindex : j = 0
  · simp [hindex]
  · have hlt : Heap.parentIndex t.fanOut j < j := Heap.parentIndex_lt hindex
    have hquotient : (j - 1) / t.fanOut = i ↔
        i * t.fanOut ≤ j - 1 ∧ j - 1 < (i + 1) * t.fanOut := by
      rw [Nat.div_eq_iff t.fanOut_pos, Nat.succ_mul]
      have := t.fanOut_pos
      omega
    rw [if_neg hindex, List.getElem?_eq_getElem (by omega), Option.some_inj,
      h.nodup_placed.getElem_inj_iff, Heap.parentIndex, hquotient, Nat.succ_mul]
    omega

theorem mem_of_mem_childrenOf (h : t.IsHeap) (hroot : t.spec.root ∈ t.members)
    (hparent : parent ∈ t.members) (hchild : child ∈ t.childrenOf parent) :
    child ∈ t.members := by
  obtain ⟨i, hi, rfl⟩ := h.exists_index hroot hparent
  rw [h.childrenOf_placed hi] at hchild
  exact (h.mem_placed.1 (List.mem_of_mem_drop (List.mem_of_mem_take hchild))).2

theorem parentOf_of_mem_childrenOf (h : t.IsHeap) (hroot : t.spec.root ∈ t.members)
    (hparent : parent ∈ t.members) (hchild : child ∈ t.childrenOf parent) :
    t.parentOf child = some parent :=
  (h.mem_childrenOf_iff hroot hparent (h.mem_of_mem_childrenOf hroot hparent hchild)).1 hchild

theorem ne_root_of_parentOf (h : t.IsHeap) (hroot : t.spec.root ∈ t.members)
    (hparent : t.parentOf child = some parent) : child ≠ t.spec.root := by
  rintro rfl
  rw [(h.parentOf_eq_none_iff hroot hroot).2 rfl] at hparent
  cases hparent

theorem ne_root_of_mem_childrenOf (h : t.IsHeap) (hroot : t.spec.root ∈ t.members)
    (hparent : parent ∈ t.members) (hchild : child ∈ t.childrenOf parent) :
    child ≠ t.spec.root :=
  h.ne_root_of_parentOf hroot (h.parentOf_of_mem_childrenOf hroot hparent hchild)

theorem nodup_childrenOf (h : t.IsHeap) (hroot : t.spec.root ∈ t.members)
    (hparent : parent ∈ t.members) : (t.childrenOf parent).Nodup := by
  obtain ⟨i, hi, rfl⟩ := h.exists_index hroot hparent
  rw [h.childrenOf_placed hi]
  exact (h.nodup_placed.sublist (List.drop_sublist ..)).sublist (List.take_sublist ..)

theorem length_childrenOf_le (h : t.IsHeap) (hroot : t.spec.root ∈ t.members)
    (hparent : parent ∈ t.members) : (t.childrenOf parent).length ≤ t.fanOut := by
  obtain ⟨i, hi, rfl⟩ := h.exists_index hroot hparent
  rw [h.childrenOf_placed hi]
  exact Heap.length_children_le ..

/-- The parent of a member is a member. -/
theorem mem_of_parentOf (h : t.IsHeap) (hroot : t.spec.root ∈ t.members)
    (hchild : child ∈ t.members) (hparent : t.parentOf child = some parent) :
    parent ∈ t.members := by
  obtain ⟨j, hj, rfl⟩ := h.exists_index hroot hchild
  rw [h.parentOf_placed hj, Heap.parent] at hparent
  split at hparent
  · cases hparent
  · exact (h.mem_placed.1 (List.mem_of_getElem? hparent)).2

/-- From every member the parents lead to the root, through members alone. -/
theorem reaches_root (h : t.IsHeap) (hroot : t.spec.root ∈ t.members) (hmem : task ∈ t.members) :
    Relation.ReflTransGen (fun child parent => parent ∈ t.members ∧ t.parentOf child = some parent)
      task t.spec.root := by
  obtain ⟨hzero, hfirst⟩ := h.root_index hroot
  obtain ⟨i, hi, rfl⟩ := h.exists_index hroot hmem
  -- the index falls with every step towards the root
  induction i using Nat.strongRecOn with
  | ind i ih =>
    by_cases hindex : i = 0
    · subst hindex
      rw [hfirst]
    · have hlt : Heap.parentIndex t.fanOut i < i := Heap.parentIndex_lt hindex
      have hbound : Heap.parentIndex t.fanOut i < t.placed.length := by omega
      have hstep : t.parentOf t.placed[i] = some t.placed[Heap.parentIndex t.fanOut i] := by
        rw [h.parentOf_placed hi, Heap.parent, if_neg hindex, List.getElem?_eq_getElem hbound]
      have hparent := h.mem_of_parentOf hroot hmem hstep
      exact .head ⟨hparent, hstep⟩ (ih _ hlt hbound hparent)

end IsHeap

end Topology

end Collective
