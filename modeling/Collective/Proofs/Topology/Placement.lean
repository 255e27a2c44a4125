import Collective.Topology.Heap
import Mathlib.Data.List.Nodup

/-!
# Placement in a heap

A task is placed under the earliest placed one that has room. The search for it starts at the
frontier, which is the parent of the task placed last: everyone before it is full, and the parent of
the next free index is not far behind. So a task that is placed is appended to the level order, and
one that joins finds the place that the heap of the members has for it, whether it waits for the
root, is the root that the waiting members follow, or comes later.
-/

namespace Collective

namespace Heap

variable {fanOut : Nat} {order : List String} {task : String}

theorem getElem_nodes {i : Nat} (h : i < (nodes fanOut order).length) (hi : i < order.length) :
    (nodes fanOut order)[i] =
      ⟨order[i], parent fanOut order i, children fanOut order i, level fanOut i⟩ := by
  simp [nodes]

theorem length_children (fanOut : Nat) (order : List String) (i : Nat) :
    (children fanOut order i).length = min fanOut (order.length - (i * fanOut + 1)) := by
  rw [children, List.length_take, List.length_drop]

/-- A node of a heap has room exactly from the parent of the next free index on. -/
theorem length_children_lt_iff (hpos : 0 < fanOut) (hne : order ≠ []) (i : Nat) :
    (children fanOut order i).length < fanOut ↔ parentIndex fanOut order.length ≤ i := by
  have hlength := List.length_pos_iff.2 hne
  rw [length_children, parentIndex, ← Nat.lt_succ_iff, Nat.div_lt_iff_lt_mul hpos,
    Nat.succ_mul]
  omega

/-- The parent of an index stays where it is while tasks are appended. -/
theorem parent_append {i : Nat} (h : i ≤ order.length) (rest : List String) :
    parent fanOut (order ++ rest) i = parent fanOut order i := by
  rw [parent, parent]
  split
  · rfl
  · next hzero =>
    have hlt : parentIndex fanOut i < i := parentIndex_lt hzero
    rw [List.getElem?_append_left (by omega)]

/-- An appended task becomes the last child of the parent of its index and of no other task. -/
theorem children_append (hpos : 0 < fanOut) (hne : order ≠ []) (i : Nat) :
    children fanOut (order ++ [task]) i =
      if i = parentIndex fanOut order.length then children fanOut order i ++ [task]
      else children fanOut order i := by
  have hlength := List.length_pos_iff.2 hne
  have hroom := length_children_lt_iff hpos hne i
  rw [length_children] at hroom
  have hstart : i * fanOut + 1 ≤ order.length ↔ i ≤ parentIndex fanOut order.length := by
    rw [parentIndex, Nat.le_div_iff_mul_le hpos]
    omega
  rw [children, children, List.drop_append, List.take_append, List.length_drop]
  split
  · -- the first task with room: what is left of its window begins with the new task
    have hle : i * fanOut + 1 ≤ order.length := hstart.2 (by omega)
    have hlt := hroom.2 (by omega)
    have hwhole : [task].take (fanOut - (order.length - (i * fanOut + 1))) = [task] := by
      apply List.take_of_length_le
      rw [List.length_singleton]
      omega
    rw [Nat.sub_eq_zero_of_le hle, List.drop_zero, hwhole]
  · next hother =>
    suffices h : ([task].drop (i * fanOut + 1 - order.length)).take
        (fanOut - (order.length - (i * fanOut + 1))) = [] by
      rw [h, List.append_nil]
    by_cases hle : i * fanOut + 1 ≤ order.length
    · have hfull : fanOut - (order.length - (i * fanOut + 1)) = 0 := by
        have := mt hroom.1
        omega
      rw [hfull, List.take_zero]
    · rw [List.drop_of_length_le (by rw [List.length_singleton]; omega), List.take_nil]

/-- The parent of an index comes no earlier than that of the index before it. -/
theorem parentIndex_pred_le (fanOut i : Nat) : parentIndex fanOut (i - 1) ≤ parentIndex fanOut i :=
  Nat.div_le_div_right (by omega)

/-- The node of a task in a heap, from its index in the level order. -/
theorem find?_nodes (hnodup : order.Nodup) {i : Nat} (hi : i < order.length) :
    (nodes fanOut order).find? (·.task = order[i]) =
      some ⟨order[i], parent fanOut order i, children fanOut order i, level fanOut i⟩ := by
  have hindex : i < (nodes fanOut order).length := by rwa [length_nodes]
  refine List.find?_eq_some_iff_getElem.2 ⟨decide_eq_true rfl, i, hindex, getElem_nodes _ hi, ?_⟩
  -- no earlier node has the task, since none stands twice in the order
  intro j hj
  rw [getElem_nodes _ (by omega), Bool.not_eq_true', decide_eq_false_iff_not,
    hnodup.getElem_inj_iff]
  omega

/-- A node for a new task is put behind the others. -/
theorem putNode_nodes {node : Node} {others : List Node} (hmap : others.map (·.task) = order)
    (hnew : node.task ∉ order) : Topology.putNode node others = others ++ [node] := by
  have hother : ¬ others.any (·.task = node.task) = true := by
    rw [List.any_eq_true]
    rintro ⟨other, hmem, htask⟩
    apply hnew
    rw [← hmap, ← of_decide_eq_true htask]
    exact List.mem_map_of_mem hmem
  rw [Topology.putNode, if_neg hother]

/-- A new task that becomes a child of the parent of the next free index is appended to the level
order. -/
theorem hangUnder_nodes (hpos : 0 < fanOut) (hnodup : order.Nodup) (hnew : task ∉ order)
    (hlt : parentIndex fanOut order.length < order.length) {parentNode : Node}
    (htask : parentNode.task = order[parentIndex fanOut order.length])
    (hdepth : parentNode.depth = level fanOut (parentIndex fanOut order.length)) :
    Topology.hangUnder parentNode task (nodes fanOut order) = nodes fanOut (order ++ [task]) := by
  have hne : order ≠ [] := by
    rintro rfl
    exact absurd hlt (Nat.not_lt_zero _)
  have hlength := List.length_pos_iff.2 hne
  have htasks : ((nodes fanOut order).map fun node =>
      if node.task = parentNode.task then { node with children := node.children ++ [task] }
      else node).map (·.task) = order := by
    rw [List.map_map]
    refine Eq.trans (List.map_congr_left fun node _ => ?_) (map_task_nodes fanOut order)
    rw [Function.comp_apply]
    split <;> rfl
  rw [Topology.hangUnder, putNode_nodes htasks hnew]
  apply List.ext_getElem
  · simp
  · intro i hi _
    simp only [List.length_append, List.length_map, length_nodes, List.length_singleton] at hi
    rw [getElem_nodes _ (by simpa using hi)]
    by_cases hold : i < order.length
    · rw [List.getElem_append_left (by simpa using hold), List.getElem_map,
        getElem_nodes _ hold, children_append hpos hne, parent_append (by omega)]
      simp only [htask, hnodup.getElem_inj_iff, List.getElem_append_left hold]
      split <;> rfl
    · obtain rfl : i = order.length := by omega
      have hchildren : children fanOut (order ++ [task]) order.length = [] := by
        refine List.take_eq_nil_iff.2 (.inr (List.drop_of_length_le ?_))
        have := Nat.le_mul_of_pos_right order.length hpos
        rw [List.length_append, List.length_singleton]
        omega
      have hparent : parent fanOut (order ++ [task]) order.length =
          some (order[parentIndex fanOut order.length]) := by
        rw [parent_append (Nat.le_refl _), parent, if_neg (by omega), List.getElem?_eq_getElem hlt]
      rw [List.getElem_append_right (by simp)]
      simp [hchildren, hparent, htask, hdepth, level_of_ne_zero, hne]

/-- The heap of a lone root. -/
theorem nodes_singleton (fanOut : Nat) (root : String) :
    nodes fanOut [root] = [⟨root, none, [], 0⟩] := by
  simp [nodes, parent, children]

end Heap

namespace Topology

variable {t u : Topology} {task : String}

theorem mem_order {member : String} :
    member ∈ t.order ↔ t.spec.root ∈ t.members ∧ member ∈ t.members := by
  rw [order]
  split
  · next hroot =>
    by_cases h : member = t.spec.root <;> simp_all
  · next hroot => simp [hroot]

theorem nodup_order (h : t.members.Nodup) : t.order.Nodup := by
  rw [order]
  split
  · exact List.nodup_cons.2 ⟨by simp, h.filter _⟩
  · exact List.nodup_nil

/-- Candidates without room are passed over. -/
theorem placeAmong_append (full later : List String)
    (hfull : ∀ candidate ∈ full,
      (t.node? candidate).filter (·.children.length < t.fanOut) = none) :
    t.placeAmong task (full ++ later) =
      placeAmong { t with frontier := t.frontier + full.length } task later := by
  induction full generalizing t with
  | nil => rfl
  | cons candidate rest ih =>
    rw [List.cons_append, placeAmong, hfull candidate List.mem_cons_self,
      List.length_cons, Nat.add_comm rest.length, ← Nat.add_assoc]
    exact ih fun other hother => hfull other (List.mem_cons_of_mem _ hother)

theorem placeAmong_of_room {candidate : String} {parent : Node} (later : List String)
    (hroom : (t.node? candidate).filter (·.children.length < t.fanOut) = some parent) :
    t.placeAmong task (candidate :: later) =
      { t with nodes := hangUnder parent task t.nodes, placement := t.placement ++ [task] } := by
  rw [placeAmong, hroom]

/-- The node of a task that is laid out, if it has room for another child. -/
theorem room_lay (t : Topology) {order : List String} (hnodup : order.Nodup) {i : Nat}
    (hi : i < order.length) :
    ((t.lay order).node? order[i]).filter (·.children.length < t.fanOut) =
      if Heap.parentIndex t.fanOut order.length ≤ i then
        some ⟨order[i], Heap.parent t.fanOut order i, Heap.children t.fanOut order i,
          Heap.level t.fanOut i⟩
      else none := by
  have hroom := Heap.length_children_lt_iff t.fanOut_pos
    (List.ne_nil_of_length_pos (Nat.zero_lt_of_lt hi)) i
  rw [node?, lay, Heap.find?_nodes hnodup hi, Option.filter_some]
  simp only [hroom, decide_eq_true_eq]

/-- A search that starts no later than at the parent of the next free index ends there, and a new
task is placed behind the others that are laid out. -/
theorem placeAmong_lay (t : Topology) {order : List String} (hne : order ≠ [])
    (hnodup : order.Nodup) (hnew : task ∉ order) {start : Nat}
    (hle : start ≤ Heap.parentIndex t.fanOut order.length) :
    placeAmong { t.lay order with frontier := start } task (order.drop start) =
      t.lay (order ++ [task]) := by
  have hlength := List.length_pos_iff.2 hne
  let found := Heap.parentIndex t.fanOut order.length
  have hlt : found < order.length := Heap.parentIndex_lt (by omega)
  have hsplit : order.drop start =
      (order.drop start).take (found - start) ++ order[found] :: order.drop (found + 1) := by
    have hrest : order.drop found = (order.drop start).drop (found - start) := by
      rw [List.drop_drop, Nat.add_sub_cancel' hle]
    rw [← List.drop_eq_getElem_cons hlt, hrest, List.take_append_drop]
  have hfull : ∀ candidate ∈ (order.drop start).take (found - start),
      ((t.lay order).node? candidate).filter (·.children.length < t.fanOut) = none := by
    intro candidate hmem
    obtain ⟨i, hi, rfl⟩ := List.getElem_of_mem hmem
    rw [List.length_take, List.length_drop] at hi
    rw [List.getElem_take, List.getElem_drop, t.room_lay hnodup, if_neg]
    omega
  have hpassed : start + ((order.drop start).take (found - start)).length = found := by
    rw [List.length_take, List.length_drop]
    omega
  have hroom := (t.room_lay hnodup hlt).trans (if_pos (Nat.le_refl _))
  calc placeAmong { t.lay order with frontier := start } task (order.drop start)
      = placeAmong { t.lay order with frontier := start } task
          ((order.drop start).take (found - start) ++ order[found] :: order.drop (found + 1)) := by
        rw [← hsplit]
    _ = placeAmong { t.lay order with frontier := found } task
          (order[found] :: order.drop (found + 1)) := by
        rw [placeAmong_append (t := { t.lay order with frontier := start }) _ _ hfull]
        exact congrArg (fun n => placeAmong { t.lay order with frontier := n } task _) hpassed
    _ = t.lay (order ++ [task]) := by
        rw [placeAmong_of_room (t := { t.lay order with frontier := found }) _ hroom, lay, lay,
          Heap.hangUnder_nodes t.fanOut_pos hnodup hnew hlt rfl rfl, List.length_append,
          List.length_singleton, Nat.add_sub_cancel]

/-- The frontier comes no later than the parent of the next free index. -/
theorem placeChild_lay (t : Topology) {order : List String} (hne : order ≠ [])
    (hnodup : order.Nodup) (hnew : task ∉ order) :
    (t.lay order).placeChild task = t.lay (order ++ [task]) :=
  t.placeAmong_lay hne hnodup hnew (Heap.parentIndex_pred_le ..)

/-- The frontier saves looking at tasks without room, and changes nothing else: a search of all
placed tasks ends in the same tree. -/
theorem IsHeap.placeChild_eq_placeAmong (h : t.IsHeap) (hroot : t.spec.root ∈ t.members)
    (hnew : task ∉ t.members) :
    t.placeChild task = placeAmong { t with frontier := 0 } task t.placed := by
  have hne : t.order ≠ [] := by simp [order, hroot]
  have hnodup := nodup_order h.nodup_members
  have hnotin : task ∉ t.order := mt (fun hin => (mem_order.1 hin).2) hnew
  have hfrontier := t.placeChild_lay hne hnodup hnotin
  have hall := t.placeAmong_lay hne hnodup hnotin (Nat.zero_le _)
  rw [h.lay_order] at hfrontier hall
  rw [hfrontier, ← hall, List.drop_zero, h.placed_eq]

/-- New tasks that are placed one after the other stand behind each other. -/
theorem foldl_placeChild_lay (t : Topology) {order : List String} (rest : List String)
    (hne : order ≠ []) (hnodup : (order ++ rest).Nodup) :
    rest.foldl placeChild (t.lay order) = t.lay (order ++ rest) := by
  induction rest generalizing order with
  | nil => simp
  | cons task rest ih =>
    rw [List.append_cons] at hnodup
    have hfront := hnodup.of_append_left
    have hnew : task ∉ order := by
      intro hmem
      exact (List.nodup_append.1 hfront).2.2 _ hmem _ (List.mem_singleton_self _) rfl
    rw [List.foldl_cons, t.placeChild_lay hne hfront.of_append_left hnew, ih (by simp) hnodup,
      ← List.append_cons]

/-- Without tasks there is nothing to lay out, and the root is put first. -/
theorem lay_root (t : Topology) (root : String) :
    { t.lay [] with nodes := putNode ⟨root, none, [], 0⟩ (t.lay []).nodes,
                    placement := (t.lay []).placement ++ [root] } = t.lay [root] := by
  rw [lay, lay, Heap.nodes_singleton]
  rfl

theorem isPlaced_iff : t.isPlaced task = true ↔ task ∈ t.nodes.map (·.task) := by
  rw [isPlaced, node?, List.find?_isSome, List.mem_map]
  simp only [decide_eq_true_eq]

/-- A root that joins is put first, and all who waited for it follow. -/
theorem IsHeap.settle_root (h : t.IsHeap) (hnew : u.spec.root ∉ t.members) (hspec : u.spec = t.spec)
    (hmembers : u.members = t.members ++ [u.spec.root]) (hlaid : u.lay t.order = u) :
    u.settle u.spec.root = u.lay u.order := by
  have hwaiting : u.members.filter (· ≠ u.spec.root) = t.members := by
    rw [hmembers, List.filter_append, List.filter_eq_self.2, List.filter_eq_nil_iff.2]
    · simp
    · simp
    · intro member hmember
      apply decide_eq_true
      rintro rfl
      exact hnew hmember
  have hempty : t.order = [] := by rw [order, if_neg (by rwa [← hspec])]
  have horder : u.order = u.spec.root :: t.members := by
    rw [order, hwaiting, if_pos (by simp [hmembers])]
  have hnodup : ([u.spec.root] ++ t.members).Nodup := List.nodup_cons.2 ⟨hnew, h.nodup_members⟩
  rw [hempty] at hlaid
  have hfirst := u.lay_root u.spec.root
  rw [hlaid] at hfirst
  rw [settle, if_pos rfl, hwaiting, hfirst, horder]
  exact u.foldl_placeChild_lay t.members (List.cons_ne_nil _ []) hnodup

/-- A new member finds its place in the heap: it waits while there is no root, a root is followed
by all who waited, and everyone else is appended. -/
theorem IsHeap.settle_eq (h : t.IsHeap) (hnew : task ∉ t.members) (hspec : u.spec = t.spec)
    (hmembers : u.members = t.members ++ [task]) (hlaid : u.lay t.order = u) :
    u.settle task = u.lay u.order := by
  by_cases hroot : task = u.spec.root
  · subst hroot
    exact h.settle_root hnew hspec hmembers hlaid
  · have hplaced : u.isPlaced u.spec.root = true ↔ t.spec.root ∈ t.members := by
      rw [isPlaced_iff, ← hlaid, lay, Heap.map_task_nodes, hspec, mem_order, and_self_iff]
    rw [settle, if_neg hroot]
    rw [hspec] at hroot
    by_cases hmem : t.spec.root ∈ t.members
    · have hsame : t.order = t.spec.root :: t.members.filter (· ≠ t.spec.root) := if_pos hmem
      have horder : u.order = t.order ++ [task] := by
        rw [order, hsame, hspec, hmembers, if_pos (by simp [hmem])]
        simp [List.filter_append, hroot]
      have hnotin : task ∉ t.order := mt (fun hin => (mem_order.1 hin).2) hnew
      have hchild : (u.lay t.order).placeChild task = u.lay (t.order ++ [task]) :=
        u.placeChild_lay (by simp [hsame]) (nodup_order h.nodup_members) hnotin
      rw [hlaid] at hchild
      rw [if_pos (hplaced.2 hmem), hchild, horder]
    · have horder : u.order = t.order := by
        rw [order, order, hspec, hmembers, if_neg hmem, if_neg (by simp [hmem, Ne.symm hroot])]
      rw [if_neg (mt hplaced.1 hmem), horder, hlaid]

end Topology

end Collective
