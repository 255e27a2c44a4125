import Collective.Proofs.Topology.Level
import Collective.Proofs.Topology.Preorder
import Mathlib.Algebra.Group.Action.Defs
import Mathlib.Algebra.Order.BigOperators.Group.List
import Mathlib.Order.Bounds.Defs

/-!
# The height of a tree

A tree in which no node has more than a given number of children has room for so many nodes on each
level. The tree of an operator fills its levels one after the other, so no tree with as many nodes
is lower, whatever the tasks did before.
-/

namespace Collective

/-- A tree without the tasks that stand in it. -/
inductive Shape where
  | node (children : List Shape)

namespace Shape

/-- The number of nodes. -/
def size : Shape → Nat
  | node children => (children.map size).sum + 1

/-- The greatest number of steps from the root to a node. -/
def height : Shape → Nat
  | node children => (children.map fun child => child.height + 1).foldl max 0

/-- No node has more children than it has room for. -/
inductive Within (fanOut : Nat) : Shape → Prop
  | node {children : List Shape} (length_le : children.length ≤ fanOut)
      (within : ∀ child ∈ children, Within fanOut child) : Within fanOut (.node children)

variable {children : List Shape} {s : Shape} {fanOut bound : Nat}

theorem height_le_iff :
    (node children).height ≤ bound ↔ ∀ child ∈ children, child.height + 1 ≤ bound := by
  rw [height, foldl_max_le_iff]
  simp

/-- A tree has no more nodes than there is room for on its levels. -/
theorem Within.size_le (h : s.Within fanOut) (hheight : s.height ≤ bound) :
    s.size ≤ Heap.capacity fanOut bound := by
  -- Every subtree has one level less, and there are at most `fanOut` of them.
  induction h generalizing bound with
  | @node children hlength _ ih =>
    rw [height_le_iff] at hheight
    rw [size]
    cases bound with
    | zero =>
      have hnil : children = [] :=
        List.eq_nil_iff_forall_not_mem.2 fun child hchild =>
          Nat.not_succ_le_zero _ (hheight child hchild)
      simp [hnil]
    | succ bound =>
      have hsubtrees : ∀ n ∈ children.map size, n ≤ Heap.capacity fanOut bound := by
        rw [List.forall_mem_map]
        intro child hchild
        exact ih child hchild (Nat.le_of_succ_le_succ (hheight child hchild))
      have hsum := List.sum_le_card_nsmul _ _ hsubtrees
      rw [List.length_map, smul_eq_mul] at hsum
      have hroom := Nat.mul_le_mul_right (Heap.capacity fanOut bound) hlength
      rw [Heap.capacity_succ]
      omega

end Shape

namespace Topology

variable {t : Topology} {task parent child : String} {d bound : Nat}

/-- The shape of what stands below a task. -/
def shapeBelow (t : Topology) : String → Shape := t.foldUp fun _ shapes => .node shapes

/-- The shape of the whole tree. -/
def shape (t : Topology) : Shape := t.shapeBelow t.spec.root

namespace IsHeap

/-- A child stands one level below its parent. -/
theorem depthOf_child (h : t.IsHeap) (hroot : t.spec.root ∈ t.members) (hmem : parent ∈ t.members)
    (hchild : child ∈ t.childrenOf parent) (hdepth : t.depthOf parent = some d) :
    t.depthOf child = some (d + 1) := by
  have hparent := h.parentOf_of_mem_childrenOf hroot hmem hchild
  obtain ⟨j, hj, rfl⟩ := h.exists_index hroot (h.mem_of_mem_childrenOf hroot hmem hchild)
  rw [h.parentOf_placed hj, Heap.parent] at hparent
  split at hparent
  · cases hparent
  · next hindex =>
    obtain ⟨hi, rfl⟩ := List.getElem?_eq_some_iff.1 hparent
    rw [h.depthOf_placed hi] at hdepth
    rw [h.depthOf_placed hj, Heap.level_of_ne_zero hindex, Option.some.inj hdepth]

variable (h : t.IsHeap) (hroot : t.spec.root ∈ t.members)

include h hroot

theorem shapeBelow_eq (hmem : task ∈ t.members) :
    t.shapeBelow task = .node ((t.childrenOf task).map t.shapeBelow) :=
  h.foldUp_eq hroot _ hmem

theorem size_shapeBelow : ∀ task ∈ t.members, (t.shapeBelow task).size = (t.below task).length := by
  apply h.induct_up hroot (P := fun task => (t.shapeBelow task).size = (t.below task).length)
  intro task hmem ih
  rw [h.shapeBelow_eq hroot hmem, h.below_eq hroot hmem, Shape.size, List.length_cons,
    List.length_flatMap, List.map_map]
  congr 2
  exact List.map_congr_left ih

theorem within_shapeBelow : ∀ task ∈ t.members, (t.shapeBelow task).Within t.fanOut := by
  apply h.induct_up hroot (P := fun task => (t.shapeBelow task).Within t.fanOut)
  intro task hmem ih
  rw [h.shapeBelow_eq hroot hmem]
  refine .node ?_ (List.forall_mem_map.2 ih)
  rw [List.length_map]
  exact h.length_childrenOf_le hroot hmem

/-- What stands below a task reaches down to the deepest level of a task there. -/
theorem height_shapeBelow_le_iff : ∀ task ∈ t.members, ∀ d, t.depthOf task = some d → ∀ bound,
    (t.shapeBelow task).height + d ≤ bound ↔
      ∀ other ∈ t.below task, ∀ e, t.depthOf other = some e → e ≤ bound := by
  -- From the leaves up. The depth is counted from the root, so it is carried along.
  refine h.induct_up hroot ?_
  intro task hmem ih d hdepth bound
  have hlower : ∀ child ∈ t.childrenOf task, t.depthOf child = some (d + 1) :=
    fun child hchild => h.depthOf_child hroot hmem hchild hdepth
  have hheight : (t.shapeBelow task).height + d ≤ bound ↔ d ≤ bound ∧
      ∀ child ∈ t.childrenOf task, (t.shapeBelow child).height + (d + 1) ≤ bound := by
    rw [h.shapeBelow_eq hroot hmem]
    constructor
    · intro hle
      have hchildren := Shape.height_le_iff.1 (Nat.le_sub_of_add_le hle)
      refine ⟨by omega, fun child hchild => ?_⟩
      have := hchildren _ (List.mem_map_of_mem hchild)
      omega
    · rintro ⟨hle, hchildren⟩
      rw [← Nat.le_sub_iff_add_le hle, Shape.height_le_iff, List.forall_mem_map]
      intro child hchild
      have := hchildren child hchild
      omega
  rw [hheight, h.below_eq hroot hmem, List.forall_mem_cons]
  refine and_congr ?_ ?_
  · rw [hdepth]
    simp
  · simp only [List.mem_flatMap]
    constructor
    · rintro hall other ⟨child, hchild, hother⟩
      exact (ih child hchild _ (hlower child hchild) bound).1 (hall child hchild) other hother
    · intro hall child hchild
      refine (ih child hchild _ (hlower child hchild) bound).2 fun other hother => ?_
      exact hall other ⟨child, hchild, hother⟩

/-- The shape of the tree has one node for each placed task, and the height of the tree. -/
theorem shape_spec : t.shape.size = t.placed.length ∧ t.depth = some t.shape.height := by
  have hperm := h.perm_preorder hroot
  obtain ⟨hzero, hfirst⟩ := h.root_index hroot
  have htop : t.depthOf t.spec.root = some 0 := by
    rw [← hfirst, h.depthOf_placed hzero, Heap.level_zero]
  obtain ⟨d, hdepth, hleast⟩ := h.exists_depth hroot
  constructor
  · exact (h.size_shapeBelow hroot _ hroot).trans hperm.length_eq
  · rw [hdepth, Option.some_inj]
    refine eq_of_forall_ge_iff fun bound => ?_
    rw [hleast, ← Heap.forall_level_le_iff t.fanOut_pos, shape, ← Nat.add_zero (Shape.height _),
      h.height_shapeBelow_le_iff hroot _ hroot _ htop]
    constructor
    · intro hlevels other hother e he
      obtain ⟨i, hi, rfl⟩ := List.getElem_of_mem (hperm.mem_iff.1 hother)
      rw [h.depthOf_placed hi] at he
      exact Option.some.inj he ▸ hlevels i hi
    · intro hdepths i hi
      exact hdepths _ (hperm.mem_iff.2 (List.getElem_mem hi)) _ (h.depthOf_placed hi)

end IsHeap

/-- Whatever the tasks did before, the height of a tree with placed tasks is the least one at which
there is room for all of them, and no tree with as many nodes and no more children for each is
lower. -/
theorem after_lowest (name : String) (spec : OperatorSpec) {fanOut : Nat} (hpos : 0 < fanOut)
    (history : List MemberChange) :
    ∃ start t, new name spec fanOut = .ok start ∧ start.after history = t ∧
      (1 ≤ t.placed.length → ∃ d, t.depth = some d ∧
        IsLeast {h | t.placed.length ≤ ∑ k ∈ Finset.range (h + 1), fanOut ^ k} d ∧
        t.shape.size = t.placed.length ∧ t.shape.height = d ∧ t.shape.Within fanOut ∧
        ∀ s : Shape, s.Within fanOut → s.size = t.placed.length → d ≤ s.height) := by
  have hnew := new_of_pos name spec hpos
  obtain ⟨members, hlaid⟩ := (isHeap_of_new hnew).relaid_after history
  have hfan : _ = fanOut := hlaid.fanOut_eq
  refine ⟨_, _, hnew, rfl, ?_⟩
  intro hplaced
  have hheap := hlaid.isHeap
  have hroot := (hheap.mem_placed.1 (List.getElem_mem hplaced)).1
  obtain ⟨d, hdepth, hleast⟩ := hheap.exists_depth hroot
  obtain ⟨hsize, hshape⟩ := hheap.shape_spec hroot
  have hwithin := hheap.within_shapeBelow hroot _ hroot
  rw [hfan] at hleast hwithin
  have hheight := Option.some.inj (hshape.symm.trans hdepth)
  refine ⟨d, hdepth, ⟨(hleast d).1 (Nat.le_refl d), fun bound => (hleast bound).2⟩, hsize, hheight,
    hwithin, ?_⟩
  intro s hs hnodes
  rw [hleast, ← hnodes]
  exact hs.size_le (Nat.le_refl _)

/-- A task is replaced while the root is away, and four tasks need two levels below the root. -/
theorem after_lowest_rejoined_root : 0 < 2 ∧ ∃ start t,
    new "op" (.plain .broadcast "R") 2 = .ok start ∧
      start.after [.add "a", .add "b", .add "R", .remove "R", .replace "b" "c", .add "d",
        .add "R"] = t ∧
      t.placed = ["R", "a", "c", "d"] ∧ t.depth = some 2 ∧
      IsLeast {h | t.placed.length ≤ ∑ k ∈ Finset.range (h + 1), 2 ^ k} 2 ∧
      t.shape.size = t.placed.length ∧ t.shape.height = 2 ∧ t.shape.Within 2 ∧
      ∀ s : Shape, s.Within 2 → s.size = t.placed.length → 2 ≤ s.height := by
  obtain ⟨start, t, hnew, hafter, hlowest⟩ := after_lowest "op" (.plain .broadcast "R")
    (show 0 < 2 by decide) [.add "a", .add "b", .add "R", .remove "R", .replace "b" "c", .add "d",
      .add "R"]
  obtain rfl := Except.ok.inj hnew
  have hplaced : t.placed = ["R", "a", "c", "d"] := by
    rw [← hafter]
    rfl
  have htwo : t.depth = some 2 := by
    rw [← hafter]
    rfl
  obtain ⟨d, hdepth, hlow⟩ := hlowest (by simp [hplaced])
  obtain rfl : 2 = d := Option.some.inj (htwo.symm.trans hdepth)
  exact ⟨by decide, _, t, hnew, hafter, hplaced, hdepth, hlow⟩

end Topology

end Collective
