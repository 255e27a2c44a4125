import Collective.Proofs.Topology.Change

/-!
# What the queries of a tree answer

The queries of a heap read off the level order: a placed task finds its parent and its children at
fixed indices, and the members are either all placed or all waiting. So whatever the order in which
tasks join, leave and are replaced, the tree of an operator is the heap of its join order.
-/

namespace Collective

namespace Topology

variable {t : Topology} {task : String}

namespace IsHeap

theorem mem_placed_iff_isPlaced (h : t.IsHeap) : task ∈ t.placed ↔ t.isPlaced task = true := by
  rw [isPlaced_iff, h.nodes_eq, Heap.map_task_nodes, h.placed_eq]

/-- The placed tasks are the members once the root is one of them. -/
theorem mem_placed (h : t.IsHeap) :
    task ∈ t.placed ↔ t.spec.root ∈ t.members ∧ task ∈ t.members := by
  rw [h.placed_eq, mem_order]

theorem nodup_placed (h : t.IsHeap) : t.placed.Nodup := by
  rw [h.placed_eq]
  exact nodup_order h.nodup_members

theorem placed_of_root (h : t.IsHeap) (hroot : t.spec.root ∈ t.members) :
    t.placed = t.spec.root :: t.members.filter (· ≠ t.spec.root) := by
  rw [h.placed_eq, order, if_pos hroot]

theorem placed_of_no_root (h : t.IsHeap) (hroot : t.spec.root ∉ t.members) : t.placed = [] := by
  rw [h.placed_eq, order, if_neg hroot]

/-- The node of a placed task, from its index in the level order. -/
theorem node?_placed (h : t.IsHeap) {i : Nat} (hi : i < t.placed.length) :
    t.node? t.placed[i] =
      some ⟨t.placed[i], Heap.parent t.fanOut t.placed i, Heap.children t.fanOut t.placed i,
        Heap.level t.fanOut i⟩ := by
  rw [node?, h.nodes_eq, ← h.placed_eq]
  exact Heap.find?_nodes h.nodup_placed hi

theorem parentOf_placed (h : t.IsHeap) {i : Nat} (hi : i < t.placed.length) :
    t.parentOf t.placed[i] = Heap.parent t.fanOut t.placed i := by
  rw [parentOf, h.node?_placed hi]
  rfl

theorem childrenOf_placed (h : t.IsHeap) {i : Nat} (hi : i < t.placed.length) :
    t.childrenOf t.placed[i] = Heap.children t.fanOut t.placed i := by
  rw [childrenOf, h.node?_placed hi]
  rfl

end IsHeap

/-! ## The layout of a tree -/

/-- What the queries answer while the root is a member. -/
structure Rooted (t : Topology) : Prop where
  parked_eq : t.parked = []
  /-- The root is placed first, and the others in the order in which they joined. -/
  placed_eq : t.placed = t.spec.root :: t.members.filter (· ≠ t.spec.root)
  parentOf_eq : ∀ i (hi : i < t.placed.length), 1 ≤ i →
    ∃ hparent : (i - 1) / t.fanOut < t.placed.length,
      t.parentOf t.placed[i] = some t.placed[(i - 1) / t.fanOut]
  /-- The children stand next to each other, as far as there are tasks. -/
  childrenOf_eq : ∀ i (hi : i < t.placed.length),
    t.childrenOf t.placed[i] = (t.placed.drop (i * t.fanOut + 1)).take t.fanOut

/-- What the queries answer while the root is no member. -/
structure Rootless (t : Topology) : Prop where
  placed_eq : t.placed = []
  isPlaced_eq : ∀ task, t.isPlaced task = false
  depth_eq : t.depth = none
  parked_eq : t.parked = t.members

theorem IsHeap.rooted (h : t.IsHeap) (hroot : t.spec.root ∈ t.members) : t.Rooted where
  parked_eq := by
    refine List.filter_eq_nil_iff.2 fun member hmember => ?_
    have hplaced := h.mem_placed_iff_isPlaced.1 (h.mem_placed.2 ⟨hroot, hmember⟩)
    simp [hplaced]
  placed_eq := h.placed_of_root hroot
  parentOf_eq i hi hpos := by
    have hlt : Heap.parentIndex t.fanOut i < i := Heap.parentIndex_lt (by omega)
    have hparent : Heap.parentIndex t.fanOut i < t.placed.length := by omega
    refine ⟨hparent, ?_⟩
    rw [h.parentOf_placed hi, Heap.parent, if_neg (by omega), List.getElem?_eq_getElem hparent]
    rfl
  childrenOf_eq i hi := h.childrenOf_placed hi

theorem IsHeap.isPlaced_of_no_root (h : t.IsHeap) (hroot : t.spec.root ∉ t.members) :
    t.isPlaced task = false := by
  rw [Bool.eq_false_iff, Ne, ← h.mem_placed_iff_isPlaced, h.placed_of_no_root hroot]
  exact List.not_mem_nil

theorem IsHeap.rootless (h : t.IsHeap) (hroot : t.spec.root ∉ t.members) : t.Rootless where
  placed_eq := h.placed_of_no_root hroot
  isPlaced_eq _ := h.isPlaced_of_no_root hroot
  depth_eq := by simp [depth, h.isPlaced_of_no_root hroot]
  parked_eq := List.filter_eq_self.2 fun member _ => by simp [h.isPlaced_of_no_root hroot]

/-- The tree of an operator is the heap of its join order, whatever its members did before: tasks
may have been refused, the root may have come first, late or never, or may have left and joined
again. -/
theorem after_layout (name : String) (spec : OperatorSpec) {fanOut : Nat} (hpos : 0 < fanOut)
    (history : List MemberChange) :
    ∃ start t, new name spec fanOut = .ok start ∧ start.after history = t ∧
      t.spec = spec ∧ t.fanOut = fanOut ∧ t.members.Nodup ∧
      (spec.root ∈ t.members → t.Rooted) ∧ (spec.root ∉ t.members → t.Rootless) := by
  have hnew := new_of_pos name spec hpos
  obtain ⟨members, hlaid⟩ := (isHeap_of_new hnew).relaid_after history
  have hspec : _ = spec := hlaid.spec_eq
  refine ⟨_, _, hnew, rfl, hspec, hlaid.fanOut_eq, hlaid.isHeap.nodup_members, ?_, ?_⟩
  · intro hroot
    exact hlaid.isHeap.rooted (by rwa [hspec])
  · intro hroot
    exact hlaid.isHeap.rootless (by rwa [hspec])

/-- The root joins late, a task is refused, and the root leaves and joins again. -/
theorem after_layout_rejoined_root : 0 < 2 ∧ ∃ start t,
    new "op" (.plain .broadcast "R") 2 = .ok start ∧
      start.after [.add "a", .add "b", .add "R", .add "a", .remove "R", .replace "b" "c",
        .add "R"] = t ∧
      t.spec = .plain .broadcast "R" ∧ t.fanOut = 2 ∧ t.members.Nodup ∧
      ("R" ∈ t.members → t.Rooted) ∧ ("R" ∉ t.members → t.Rootless) :=
  ⟨by decide, after_layout "op" (.plain .broadcast "R") (by decide) _⟩

end Topology

end Collective
