import Collective.Proofs.Group.Agreement

/-!
# Places within an epoch

As long as nobody is re-placed, members are only added, at the end of their order, and the level
order of every tree grows at its end as well. So a task that has a place keeps its parent and its
children, and may get more of these. Since the epoch counts the re-placements, two bundles of a task
with the same epoch differ only by children that were appended and by operators that were added.
-/

namespace Collective

/-- A place with the same parent and role, and perhaps more children behind those that it had. -/
structure Place.GrowsTo (early late : Place) : Prop where
  task_eq : late.task = early.task
  parent_eq : late.parent = early.parent
  role_eq : late.role = early.role
  children_prefix : early.children <+: late.children

/-- A bundle with the operators of another one, in which the task's places may have grown, and
perhaps with more operators. -/
structure Bundle.GrowsTo (early late : Bundle) : Prop where
  group_eq : late.group = early.group
  task_eq : late.task = early.task
  operator_grows : ∀ operator view, early.operator operator = .ok view →
    ∃ place, late.operator operator = .ok ⟨view.spec, place⟩ ∧ view.place.GrowsTo place

/-! ## Trees -/

/-- The children of an index come first among its children in a longer order. -/
theorem Heap.children_prefix (fanOut : Nat) (order rest : List String) (i : Nat) :
    children fanOut order i <+: children fanOut (order ++ rest) i := by
  rw [children, children, List.drop_append, List.take_append]
  exact List.prefix_append ..

namespace Topology

variable {t u : Topology} {task : String}

/-- The level order of a heap with more members goes on where the old one ends. -/
theorem IsHeap.placed_prefix (ht : t.IsHeap) (hu : u.IsHeap) (hspec : u.spec = t.spec)
    (hmembers : t.members <+: u.members) (hroot : t.spec.root ∈ t.members) :
    t.placed <+: u.placed := by
  have hroot' : u.spec.root ∈ u.members := by
    rw [hspec]
    exact hmembers.subset hroot
  rw [ht.placed_of_root hroot, hu.placed_of_root hroot', hspec]
  exact (List.prefix_cons_inj _).2 (hmembers.filter _)

/-- In a heap with more members a placed task keeps its place, which may grow. -/
theorem IsHeap.seat_growsTo (ht : t.IsHeap) (hu : u.IsHeap) (hspec : u.spec = t.spec)
    (hfan : u.fanOut = t.fanOut) (hmembers : t.members <+: u.members)
    (hroot : t.spec.root ∈ t.members) (hmem : task ∈ t.members) :
    (t.seat task).GrowsTo (u.seat task) := by
  obtain ⟨rest, hplaced⟩ := ht.placed_prefix hu hspec hmembers hroot
  obtain ⟨i, hi, rfl⟩ := ht.exists_index hroot hmem
  have hlater : i < u.placed.length := by
    rw [← hplaced, List.length_append]
    omega
  have hsame : t.placed[i] = u.placed[i] := by
    simp only [← hplaced, List.getElem_append_left hi]
  constructor
  · rfl
  · show u.parentOf t.placed[i] = t.parentOf t.placed[i]
    rw [ht.parentOf_placed hi, hsame, hu.parentOf_placed hlater, hfan, ← hplaced,
      Heap.parent_append (Nat.le_of_lt hi)]
  · show u.spec.roleOf _ = t.spec.roleOf _
    rw [hspec]
  · show t.childrenOf t.placed[i] <+: u.childrenOf t.placed[i]
    rw [ht.childrenOf_placed hi, hsame, hu.childrenOf_placed hlater, hfan, ← hplaced]
    exact Heap.children_prefix ..

end Topology

/-! ## Changes that re-place nobody -/

namespace Coordinator

variable {c d : Coordinator} {task : String}

/-- What changes leave behind that re-place nobody: everything that was there, and perhaps more. -/
structure Extends (c d : Coordinator) : Prop where
  group_eq : d.group = c.group
  fanOut_eq : d.fanOut = c.fanOut
  members_prefix : c.members <+: d.members
  spec?_eq : ∀ operator spec, c.spec? operator = some spec → d.spec? operator = some spec

theorem Extends.refl (c : Coordinator) : c.Extends c :=
  ⟨rfl, rfl, List.prefix_rfl, fun _ _ h => h⟩

theorem Extends.trans {e : Coordinator} (h : c.Extends d) (hd : d.Extends e) : c.Extends e where
  group_eq := hd.group_eq.trans h.group_eq
  fanOut_eq := hd.fanOut_eq.trans h.fanOut_eq
  members_prefix := h.members_prefix.trans hd.members_prefix
  spec?_eq operator spec hspec := hd.spec?_eq operator spec (h.spec?_eq operator spec hspec)

/-- An operator that is not refused has not been defined before. -/
theorem spec?_of_refusal_eq_none {name : String} {spec : OperatorSpec}
    (h : c.refusal? (.operator name spec) = none) : c.spec? name = none := by
  rw [refusal?] at h
  split at h
  · cases h
  · next hnew =>
    rw [Table.contains, Bool.not_eq_true, Option.isSome_eq_false_iff,
      Option.isNone_iff_eq_none] at hnew
    rw [spec?, topology?, hnew]
    rfl

/-- A change that a coordinator takes without re-placing anybody extends it. -/
theorem Took.extends {change : Change} (h : c.Took change d) (htaken : c.refusal? change = none)
    (hkeeps : ¬ change.replaces = true) : c.Extends d := by
  refine ⟨h.group_eq, h.fanOut_eq, ?_, ?_⟩
  · rw [h.members_eq]
    cases change with
    | operator name spec => exact List.prefix_rfl
    | member change =>
      cases change with
      | add task => exact List.prefix_append ..
      | replace failed replacement => exact absurd rfl hkeeps
      | remove task => exact absurd rfl hkeeps
  · intro operator spec hspec
    rw [h.spec?_eq]
    cases change with
    | operator name new =>
      show (if name = operator then some new else c.spec? operator) = some spec
      rw [if_neg, hspec]
      rintro rfl
      rw [spec?_of_refusal_eq_none htaken] at hspec
      cases hspec
    | member change => exact hspec

/-- A change extends a group, unless it succeeds and re-places tasks. -/
theorem InStep.extends_change (h : c.InStep) {change : Change}
    (hkeeps : ¬ (change.replaces = true ∧ (c.change change).1 = .ok ())) :
    c.Extends (c.change change).2 := by
  cases hrefusal : c.refusal? change with
  | some e =>
    rw [change_of_refusal hrefusal]
    exact .refl c
  | none =>
    obtain ⟨d, hchange, htook⟩ := h.took hrefusal
    rw [hchange] at hkeeps ⊢
    exact htook.extends hrefusal fun hreplaces => hkeeps ⟨hreplaces, rfl⟩

/-- A history extends a group if it re-places nobody. -/
theorem InStep.extends_after (h : c.InStep) {history : List Change}
    (hkeeps : c.replacements history = 0) : c.Extends (c.after history) := by
  induction history generalizing c with
  | nil => exact .refl c
  | cons change rest ih =>
    obtain ⟨hfirst, hrest⟩ := Nat.add_eq_zero_iff.1 hkeeps
    have hchange : ¬ (change.replaces = true ∧ (c.change change).1 = .ok ()) := by
      intro hreplaces
      rw [if_pos hreplaces] at hfirst
      cases hfirst
    exact (h.extends_change hchange).trans (ih (h.change change) hrest)

theorem after_append (c : Coordinator) (early late : List Change) :
    c.after (early ++ late) = (c.after early).after late := by
  simp [after]

/-- The re-placements of a history are those of its parts. -/
theorem replacements_append (c : Coordinator) (early late : List Change) :
    c.replacements (early ++ late) =
      c.replacements early + (c.after early).replacements late := by
  induction early generalizing c with
  | nil => exact (Nat.zero_add _).symm
  | cons change rest ih =>
    rw [List.cons_append, replacements, replacements, ih, after_cons, Nat.add_assoc]

/-! ## Bundles of one epoch -/

/-- The tree of an operator in a group that has been extended. -/
theorem Extends.exists_topology (h : c.Extends d) {operator : String} {t : Topology}
    (ht : c.topology? operator = some t) :
    ∃ u, d.topology? operator = some u ∧ u.spec = t.spec := by
  have hspec : c.spec? operator = some t.spec := by
    rw [spec?, ht]
    rfl
  exact Option.map_eq_some_iff.1 (h.spec?_eq operator t.spec hspec)

/-- A task that gets a bundle is a member, and no operator waits. -/
theorem InStep.waiting_of_bundle (h : c.InStep) {b : Bundle} (hb : c.bundle task = .ok b) :
    task ∈ c.members ∧ c.waiting = [] := by
  have hmem : task ∈ c.members := by
    by_contra hmem
    rw [bundle_of_not_mem hmem] at hb
    cases hb
  refine ⟨hmem, ?_⟩
  by_contra hwaiting
  rw [h.bundle_of_waiting hwaiting hmem] at hb
  cases hb

/-- The bundles of a task before and behind changes that re-place nobody. -/
theorem Extends.bundle_growsTo (h : c.Extends d) (hc : c.InStep) (hd : d.InStep)
    {early late : Bundle} (hearly : c.bundle task = .ok early) (hlate : d.bundle task = .ok late) :
    early.GrowsTo late := by
  obtain ⟨hmem, hwaiting⟩ := hc.waiting_of_bundle hearly
  obtain ⟨hmem', hwaiting'⟩ := hd.waiting_of_bundle hlate
  rw [hc.bundle_eq hwaiting hmem] at hearly
  rw [hd.bundle_eq hwaiting' hmem'] at hlate
  obtain rfl := Except.ok.inj hearly
  obtain rfl := Except.ok.inj hlate
  refine ⟨h.group_eq, rfl, ?_⟩
  intro operator view hview
  rw [Bundle.operator, Table.get?_mapValues] at hview
  cases ht : c.topologies.get? operator with
  | none =>
    rw [ht] at hview
    cases hview
  | some t =>
    rw [ht] at hview
    obtain rfl := Except.ok.inj hview
    obtain ⟨u, hu, hspec⟩ := h.exists_topology ht
    have hentry := Table.mem_of_get? ht
    obtain ⟨hheap, _, hfan, hmembers⟩ := hc.heap hentry
    obtain ⟨hheap', _, hfan', hmembers'⟩ := hd.heap (Table.mem_of_get? hu)
    refine ⟨u.seat task, ?_, ?_⟩
    · rw [topology?] at hu
      rw [Bundle.operator, Table.get?_mapValues, hu]
      exact congrArg (fun spec => Except.ok (OperatorView.mk spec (u.seat task))) hspec
    · apply hheap.seat_growsTo hheap' hspec
      · rw [hfan', hfan, h.fanOut_eq]
      · rw [hmembers, hmembers']
        exact h.members_prefix
      · exact hc.waiting_eq_nil_iff.1 hwaiting operator t hentry
      · rwa [hmembers]

/-- Two moments of a history have the same epoch only if nobody has been re-placed between them,
as long as the epochs have not come round. -/
theorem replacements_eq_zero_of_epoch_eq {group : String} {fanOut : Nat} {start : Coordinator}
    (hnew : new group fanOut = .ok start) {early late : List Change}
    (hfew : start.replacements (early ++ late) < 2 ^ 64)
    (hepoch : (start.after early).epoch = (start.after (early ++ late)).epoch) :
    (start.after early).replacements late = 0 := by
  obtain ⟨hstart, _, hzero⟩ := inStep_of_new hnew
  obtain ⟨_, _, hearly⟩ := hstart.after early
  obtain ⟨_, _, hlate⟩ := hstart.after (early ++ late)
  rw [hearly, hlate, hzero, UInt64.zero_add, UInt64.zero_add] at hepoch
  have hcount := congrArg UInt64.toNat hepoch
  rw [replacements_append] at hfew hcount
  rw [UInt64.toNat_ofNat', UInt64.toNat_ofNat', Nat.mod_eq_of_lt hfew,
    Nat.mod_eq_of_lt (by omega)] at hcount
  omega

/-- Within an epoch the place of a task is stable: of two bundles that a task gets with one epoch,
the later one has all operators of the earlier one, with the same description, parent and role, and
with the same children followed by new ones. -/
theorem place_stable {group : String} {fanOut : Nat} {start : Coordinator}
    (hnew : new group fanOut = .ok start) {before between : List Change}
    (hfew : start.replacements (before ++ between) < 2 ^ 64) {task : String} {early late : Bundle}
    (hearly : (start.after before).bundle task = .ok early)
    (hlate : (start.after (before ++ between)).bundle task = .ok late)
    (hepoch : early.epoch = late.epoch) : early.GrowsTo late := by
  obtain ⟨hstart, _, _⟩ := inStep_of_new hnew
  obtain ⟨hstep, _, _⟩ := hstart.after before
  obtain ⟨hstep', _, _⟩ := hstart.after (before ++ between)
  have hsame : (start.after before).epoch = (start.after (before ++ between)).epoch := by
    rw [← (fields_of_bundle hearly).2.2, ← (fields_of_bundle hlate).2.2, hepoch]
  have hkept := hstep.extends_after (replacements_eq_zero_of_epoch_eq hnew hfew hsame)
  rw [← after_append] at hkept
  exact hkept.bundle_growsTo hstep hstep' hearly hlate

namespace Growth

/-- The root joins late and a task is replaced. -/
def before : List Change := [.operator "model" (.plain .broadcast "R"), .member (.add "A"),
  .member (.add "R"), .member (.replace "A" "B")]

/-- A task joins, an operator is added and a task that is no member is removed. -/
def between : List Change := [.member (.add "C"), .operator "sum" (.plain (.reduce .sum) "C"),
  .member (.remove "A")]

/-- A child is appended to the root, and an operator is added. -/
theorem place_stable_new_child : ∃ start early late, new "g" 2 = .ok start ∧
    start.replacements (before ++ between) < 2 ^ 64 ∧
    (start.after before).bundle "R" = .ok early ∧
    (start.after (before ++ between)).bundle "R" = .ok late ∧
    early.epoch = late.epoch ∧ early ≠ late ∧ early.GrowsTo late := by
  have hnew : new "g" 2 = .ok ⟨"g", 2, 0, [], .empty⟩ := rfl
  have hfew : replacements ⟨"g", 2, 0, [], .empty⟩ (before ++ between) < 2 ^ 64 := by decide
  have hearly : (after ⟨"g", 2, 0, [], .empty⟩ before).bundle "R" = .ok ⟨"g", "R", 1,
      ⟨[("model", ⟨.plain .broadcast "R", ⟨"R", none, ["B"], .sender⟩⟩)], by decide⟩⟩ := rfl
  have hlate : (after ⟨"g", 2, 0, [], .empty⟩ (before ++ between)).bundle "R" =
      .ok ⟨"g", "R", 1, ⟨[("model", ⟨.plain .broadcast "R", ⟨"R", none, ["B", "C"], .sender⟩⟩),
        ("sum", ⟨.plain (.reduce .sum) "C", ⟨"R", some "C", [], .sender⟩⟩)], by decide⟩⟩ := rfl
  exact ⟨_, _, _, hnew, hfew, hearly, hlate, rfl, by decide,
    place_stable hnew hfew hearly hlate rfl⟩

end Growth

end Coordinator

end Collective
