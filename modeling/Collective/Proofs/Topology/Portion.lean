import Collective.Proofs.Share
import Collective.Proofs.Topology.Preorder

/-!
# A list handed out over a tree

The root of a tree shares a list among its children. Every other task keeps the first share of what
it is given and shares the rest among its own. What the tasks keep is, in pre-order, the list.
-/

namespace Collective

namespace Topology

variable {t : Topology} {task child : String} {ε : Type} {elements whole : List ε}

/-- What the children of a task are given of what the task has. -/
def portions (t : Topology) (task : String) (whole : List ε) : List (List ε) :=
  if task = t.spec.root then Share.shares (t.childrenOf task).length whole
  else (Share.shares ((t.childrenOf task).length + 1) whole).tail

/-- What a task is given of a list; the root has all of it. -/
def portion (t : Topology) (elements : List ε) : String → List ε :=
  t.foldDown elements fun parent whole child =>
    (t.portions parent whole).getD ((t.childrenOf parent).idxOf child) []

/-- What a task keeps of a list. -/
def kept (t : Topology) (elements : List ε) (task : String) : List ε :=
  if task = t.spec.root then []
  else (Share.shares ((t.childrenOf task).length + 1) (t.portion elements task)).headD []

theorem length_portions (t : Topology) (task : String) (whole : List ε) :
    (t.portions task whole).length = (t.childrenOf task).length := by
  rw [portions]
  split
  · exact Share.length_shares _ _
  · rw [List.length_tail, Share.length_shares, Nat.add_sub_cancel]

theorem mem_of_mem_portions {part : List ε} (hpart : part ∈ t.portions task whole) {x : ε}
    (hx : x ∈ part) : x ∈ whole := by
  rw [portions] at hpart
  split at hpart
  · exact Share.mem_of_mem_shares hpart hx
  · exact Share.mem_of_mem_shares (List.mem_of_mem_tail hpart) hx

namespace IsHeap

variable (h : t.IsHeap) (hroot : t.spec.root ∈ t.members)

include h hroot

theorem portion_root (elements : List ε) : t.portion elements t.spec.root = elements :=
  h.foldDown_root hroot _ _

/-- The children of a task are given its portions, in order. -/
theorem map_portion (hmem : task ∈ t.members) :
    (t.childrenOf task).map (t.portion elements) =
      t.portions task (t.portion elements task) := by
  apply List.ext_getElem
  · rw [List.length_map, length_portions]
  · intro i hi _
    rw [List.length_map] at hi
    have hchild : t.portion elements (t.childrenOf task)[i] =
        (t.portions task (t.portion elements task)).getD
          ((t.childrenOf task).idxOf (t.childrenOf task)[i]) [] :=
      h.foldDown_child hroot _ _ hmem (List.getElem_mem hi)
    rw [List.getElem_map, hchild, (h.nodup_childrenOf hroot hmem).idxOf_getElem,
      List.getD_eq_getElem?_getD, List.getElem?_eq_getElem, Option.getD_some]

/-- A task is given elements of the list. -/
theorem mem_of_mem_portion (elements : List ε) :
    ∀ task ∈ t.members, ∀ x ∈ t.portion elements task, x ∈ elements := by
  refine h.induct_down hroot ?_ ?_
  · intro x hx
    rwa [h.portion_root hroot] at hx
  · intro parent hmem ih child hchild x hx
    have hpart : t.portion elements child ∈ t.portions parent (t.portion elements parent) := by
      rw [← h.map_portion hroot hmem]
      exact List.mem_map_of_mem hchild
    exact ih x (mem_of_mem_portions hpart hx)

/-- The root has children if there is another task. -/
theorem childrenOf_root_ne_nil (hother : ∃ task ∈ t.members, task ≠ t.spec.root) :
    t.childrenOf t.spec.root ≠ [] := by
  intro hnil
  obtain ⟨task, hmem, hne⟩ := hother
  have hall := h.perm_below_root hroot
  rw [hnil, List.flatMap_nil] at hall
  have hothers := List.nil_perm.1 hall
  rw [List.filter_eq_nil_iff] at hothers
  exact hothers task hmem (decide_eq_true hne)

/-- A task keeps the front of what it is given, and its children are given the rest. -/
theorem portion_eq (hother : ∃ task ∈ t.members, task ≠ t.spec.root) (elements : List ε) :
    ∀ task ∈ t.members, t.portion elements task =
      t.kept elements task ++ (t.childrenOf task).flatMap (t.portion elements) := by
  intro task hmem
  rw [List.flatMap_def, h.map_portion hroot hmem, portions, kept]
  by_cases htask : task = t.spec.root
  · rw [if_pos htask, if_pos htask, List.nil_append]
    have hpos := List.length_pos_iff.2 (h.childrenOf_root_ne_nil hroot hother)
    rw [← htask] at hpos
    exact (Share.flatten_shares hpos _).symm
  · rw [if_neg htask, if_neg htask]
    exact (Share.headD_append_flatten_tail _ _).symm

/-- What the tasks other than the root keep is, in pre-order, the list. -/
theorem flatMap_kept (hother : ∃ task ∈ t.members, task ≠ t.spec.root) (elements : List ε) :
    (t.preorder.filter (· ≠ t.spec.root)).flatMap (t.kept elements) = elements := by
  have hall := h.flatMap_below hroot (h.portion_eq hroot hother elements) t.spec.root hroot
  have hkept : t.kept elements t.spec.root = [] := if_pos rfl
  rw [h.below_eq hroot hroot, List.flatMap_cons, hkept, List.nil_append, h.portion_root hroot]
    at hall
  rw [h.filter_preorder hroot, hall]

end IsHeap

end Topology

end Collective
