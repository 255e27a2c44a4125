import Collective.Proofs.Topology.Kinship
import Collective.Proofs.Topology.Level

/-!
# What a re-placement leaves in place

The task that failed is taken out of the level order, and its replacement goes to the end of it. So
the tasks in front of the failed one keep their places, but for children that stood behind it, and
each task behind it moves up by one index.
-/

namespace Collective

namespace Heap

variable {fanOut i : Nat} {order : List String}

/-- An index has no children where the order ends before the first of them. -/
theorem children_eq_nil (h : order.length ≤ i * fanOut + 1) : children fanOut order i = [] := by
  rw [children, List.drop_of_length_le h, List.take_nil]

/-- An index all of whose children are there keeps them while tasks are appended. -/
theorem children_append_of_full (h : i * fanOut + fanOut < order.length) (rest : List String) :
    children fanOut (order ++ rest) i = children fanOut order i := by
  have hroom : fanOut ≤ (order.drop (i * fanOut + 1)).length := by
    rw [List.length_drop]
    omega
  rw [children, children, List.drop_append_of_le_length (by omega),
    List.take_append_of_le_length hroom]

end Heap

namespace Topology

variable {t u : Topology} {failed replacement : String} {k : Nat}

/-- The level orders before and behind a re-placement of the task at an index. -/
structure Splits (t : Topology) (k : Nat) (failed replacement : String) (u : Topology)
    (early late : List String) : Prop where
  isHeap : t.IsHeap
  isHeap_behind : u.IsHeap
  fanOut_eq : u.fanOut = t.fanOut
  length_early : early.length = k
  placed_eq : t.placed = early ++ failed :: late
  /-- What stood behind the failed task moves up, and the replacement comes last. -/
  placed_behind : u.placed = early ++ (late ++ [replacement])

/-- What a tree keeps when the task at an index of its level order is replaced. -/
structure Spares (t : Topology) (k : Nat) (replacement : String) (u : Topology) : Prop where
  length_placed : u.placed.length = t.placed.length
  depth_eq : u.depth = t.depth
  last : u.placed.getLast? = some replacement
  leaf : u.childrenOf replacement = []
  /-- The tasks in front of the index keep their own, their parents and their depths. -/
  before : ∀ i task, i < k → t.placed[i]? = some task →
    u.placed[i]? = some task ∧ u.parentOf task = t.parentOf task ∧
      ∃ d, t.depthOf task = some d ∧ u.depthOf task = some d
  /-- They keep their children as well where all of these have their places in front. -/
  childrenOf_eq : ∀ i task, i * t.fanOut + t.fanOut < k → t.placed[i]? = some task →
    u.childrenOf task = t.childrenOf task
  /-- The tasks behind the index move up by one, some of them to the level above. -/
  behind : ∀ i task, k < i → t.placed[i]? = some task →
    u.placed[i - 1]? = some task ∧
      ∃ d, u.depthOf task = some d ∧ (t.depthOf task = some d ∨ t.depthOf task = some (d + 1))

/-- A replacement is placed behind all others, who stay in their order. -/
theorem IsHeap.placed_replace (h : t.IsHeap) (hroot : t.spec.root ∈ t.members)
    (hfailed : failed ≠ t.spec.root) (hnew : replacement ∉ t.members)
    (hlaid : t.Relaid ((MemberChange.replace failed replacement).apply t.members) u) :
    u.placed = t.placed.erase failed ++ [replacement] := by
  -- Both level orders have the root first, wherever it stands among the members.
  have hstays : u.spec.root ∈ u.members := by
    rw [hlaid.spec_eq, hlaid.members_eq]
    simp [MemberChange.apply, hroot, hfailed.symm]
  have hother : replacement ≠ t.spec.root := by
    rintro rfl
    exact hnew hroot
  rw [hlaid.isHeap.placed_of_root hstays, hlaid.spec_eq, hlaid.members_eq, MemberChange.apply,
    erase_eq_filter_ne h.nodup_placed, h.placed_of_root hroot,
    List.filter_cons_of_pos (by simpa using hfailed.symm), List.filter_append, List.filter_comm,
    List.filter_cons_of_pos (by simpa using hother), List.filter_nil, List.cons_append]

/-- A re-placement that succeeds splits the level order at the failed task. -/
theorem IsHeap.exists_splits (h : t.IsHeap) (hk : 1 ≤ k) (hfailed : t.placed[k]? = some failed)
    (hreplace : t.replace failed replacement = (.ok (), u)) :
    ∃ early late, t.Splits k failed replacement u early late := by
  obtain ⟨htaken, hlaid⟩ := h.taken_of_change (.replace failed replacement) hreplace
  obtain ⟨-, hnew⟩ := MemberChange.refusal?_replace_eq_none_iff.1 htaken
  obtain ⟨hlt, hindex⟩ := List.getElem?_eq_some_iff.1 hfailed
  have hroot := (h.mem_placed.1 (List.getElem_mem hlt)).1
  obtain ⟨hzero, hfirst⟩ := h.root_index hroot
  have hother : failed ≠ t.spec.root := by
    rw [← hindex, ← hfirst, ne_eq, h.nodup_placed.getElem_inj_iff]
    omega
  refine ⟨t.placed.take k, t.placed.drop (k + 1), h, hlaid.isHeap, hlaid.fanOut_eq, ?_, ?_, ?_⟩
  · rw [List.length_take]
    omega
  · rw [← hindex, ← List.drop_eq_getElem_cons hlt, List.take_append_drop]
  · rw [h.placed_replace hroot hother hnew hlaid, ← hindex, h.nodup_placed.erase_getElem,
      List.eraseIdx_eq_take_drop_succ, List.append_assoc]

namespace Splits

variable {early late : List String} {task : String} {i : Nat}

variable (h : t.Splits k failed replacement u early late)

include h

theorem length_placed : u.placed.length = t.placed.length := by
  simp [h.placed_eq, h.placed_behind]

theorem depth_eq : u.depth = t.depth := by
  have hfailed : failed ∈ t.placed := by simp [h.placed_eq]
  have hreplacement : replacement ∈ u.placed := by simp [h.placed_behind]
  obtain ⟨d, hdepth, hleast⟩ := h.isHeap.exists_depth (h.isHeap.mem_placed.1 hfailed).1
  obtain ⟨e, hdepth', hleast'⟩ :=
    h.isHeap_behind.exists_depth (h.isHeap_behind.mem_placed.1 hreplacement).1
  rw [hdepth, hdepth', Option.some_inj]
  refine eq_of_forall_ge_iff fun bound => ?_
  rw [hleast, hleast', h.length_placed, h.fanOut_eq]

/-- The replacement has no children: the level order ends with it. -/
theorem childrenOf_replacement : u.childrenOf replacement = [] := by
  have hlt : (early ++ late).length < u.placed.length := by simp [h.placed_behind]
  have hlast : u.placed[(early ++ late).length] = replacement := by simp [h.placed_behind]
  rw [← hlast, h.isHeap_behind.childrenOf_placed hlt]
  apply Heap.children_eq_nil
  have := Nat.le_mul_of_pos_right (early ++ late).length u.fanOut_pos
  rw [h.placed_behind, ← List.append_assoc, List.length_append, List.length_singleton]
  omega

theorem getElem?_front (hi : i < k) : u.placed[i]? = t.placed[i]? := by
  have hlt : i < early.length := by rwa [h.length_early]
  rw [h.placed_eq, h.placed_behind, List.getElem?_append_left hlt, List.getElem?_append_left hlt]

theorem getElem?_behind (hi : k ≤ i) (htask : t.placed[i + 1]? = some task) :
    u.placed[i]? = some task := by
  have hlength := h.length_early
  have hindex : i + 1 - early.length = i - early.length + 1 := by omega
  rw [h.placed_eq, List.getElem?_append_right (by omega), hindex, List.getElem?_cons_succ] at htask
  obtain ⟨hlt, -⟩ := List.getElem?_eq_some_iff.1 htask
  rw [h.placed_behind, List.getElem?_append_right (by omega), List.getElem?_append_left hlt, htask]

/-- A task in front of the failed one keeps its parent and its depth, and its children if the last
place for them is in front as well. -/
theorem front (hi : i < k) (htask : t.placed[i]? = some task) :
    u.parentOf task = t.parentOf task ∧
      (∃ d, t.depthOf task = some d ∧ u.depthOf task = some d) ∧
      (i * t.fanOut + t.fanOut < k → u.childrenOf task = t.childrenOf task) := by
  have hlength := h.length_early
  have hsame := (h.getElem?_front hi).trans htask
  obtain ⟨hlt, rfl⟩ := List.getElem?_eq_some_iff.1 htask
  obtain ⟨hlt', heq⟩ := List.getElem?_eq_some_iff.1 hsame
  refine ⟨?_, ⟨_, h.isHeap.depthOf_placed hlt, ?_⟩, ?_⟩
  · rw [h.isHeap.parentOf_placed hlt, ← heq, h.isHeap_behind.parentOf_placed hlt', h.fanOut_eq,
      h.placed_eq, h.placed_behind, Heap.parent_append (by omega), Heap.parent_append (by omega)]
  · rw [← heq, h.isHeap_behind.depthOf_placed hlt', h.fanOut_eq]
  · intro hfull
    rw [← hlength] at hfull
    rw [h.isHeap.childrenOf_placed hlt, ← heq, h.isHeap_behind.childrenOf_placed hlt', h.fanOut_eq,
      h.placed_eq, h.placed_behind, Heap.children_append_of_full hfull,
      Heap.children_append_of_full hfull]

/-- A task behind the failed one keeps its depth, or gets to the level above. -/
theorem depthOf_behind (hi : k ≤ i) (htask : t.placed[i + 1]? = some task) :
    ∃ d, u.depthOf task = some d ∧ (t.depthOf task = some d ∨ t.depthOf task = some (d + 1)) := by
  have hnext := h.getElem?_behind hi htask
  obtain ⟨hlt, rfl⟩ := List.getElem?_eq_some_iff.1 htask
  obtain ⟨hlt', heq⟩ := List.getElem?_eq_some_iff.1 hnext
  have hmono := Heap.level_mono t.fanOut_pos (Nat.le_add_right i 1)
  have hstep := Heap.level_succ_le t.fanOut_pos i
  refine ⟨Heap.level t.fanOut i, ?_, ?_⟩
  · rw [← heq, h.isHeap_behind.depthOf_placed hlt', h.fanOut_eq]
  · rw [h.isHeap.depthOf_placed hlt, Option.some_inj, Option.some_inj]
    omega

theorem spares : t.Spares k replacement u where
  length_placed := h.length_placed
  depth_eq := h.depth_eq
  last := by rw [h.placed_behind, ← List.append_assoc, List.getLast?_concat]
  leaf := h.childrenOf_replacement
  before i task hi htask := by
    obtain ⟨hparent, hdepth, -⟩ := h.front hi htask
    exact ⟨(h.getElem?_front hi).trans htask, hparent, hdepth⟩
  childrenOf_eq i task hfull htask := by
    have hle : i ≤ i * t.fanOut := Nat.le_mul_of_pos_right i t.fanOut_pos
    obtain ⟨-, -, hchildren⟩ := h.front (by omega) htask
    exact hchildren hfull
  behind i task hi htask := by
    cases i with
    | zero => cases hi
    | succ i =>
      have hle := Nat.le_of_lt_succ hi
      exact ⟨h.getElem?_behind hle htask, h.depthOf_behind hle htask⟩

end Splits

/-- A re-placement is confined to the tasks behind the one that failed, whatever the tasks did
before: those in front keep their places, the others move up by one, and the replacement becomes
the last leaf of a tree of the same height. -/
theorem replace_spares {name : String} {spec : OperatorSpec} {fanOut : Nat} {start : Topology}
    (hnew : new name spec fanOut = .ok start) (history : List MemberChange) (hk : 1 ≤ k)
    (hfailed : (start.after history).placed[k]? = some failed)
    (hreplace : (start.after history).replace failed replacement = (.ok (), u)) :
    (start.after history).Spares k replacement u := by
  obtain ⟨members, hlaid⟩ := (isHeap_of_new hnew).relaid_after history
  obtain ⟨early, late, hsplits⟩ := hlaid.isHeap.exists_splits hk hfailed hreplace
  exact hsplits.spares

namespace Straddle

/-- The root joins behind two of the tasks. -/
def history : List MemberChange :=
  [.add "a", .add "b", .add "R", .add "c", .add "d", .add "e", .add "f"]

/-- The second child of a task fails: the task keeps the first one, and the root keeps both. -/
theorem replace_spares_straddling : ∃ start u, new "op" (.plain .broadcast "R") 2 = .ok start ∧
    1 ≤ 4 ∧ (start.after history).placed[4]? = some "d" ∧
    (start.after history).replace "d" "x" = (.ok (), u) ∧
    u.placed = ["R", "a", "b", "c", "e", "f", "x"] ∧ u.childrenOf "a" = ["c", "e"] ∧
    (start.after history).Spares 4 "x" u := by
  have hnew : new "op" (.plain .broadcast "R") 2 =
      .ok ⟨"op", .plain .broadcast "R", 2, by decide, [], [], [], [], 0⟩ := rfl
  exact ⟨_, _, hnew, by decide, rfl, rfl, rfl, rfl,
    replace_spares hnew history (by decide) rfl rfl⟩

end Straddle

end Topology

end Collective
