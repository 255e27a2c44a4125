import Collective.Proofs.Answer
import Collective.Proofs.Group.Lockstep
import Collective.Proofs.Table
import Collective.Proofs.Topology.Kinship

/-!
# The bundles of a group agree

A coordinator has bundles for all members or for none: while some operator waits for its root,
every member is refused. Bundles handed out from one state fit together. They share the group, the
epoch and the descriptions, and for every operator the places in them are the places of one rooted
tree; so two tasks always agree on whether they are neighbours.
-/

namespace Collective

/-- Places that are those of one rooted tree over the members of an operator. -/
structure Place.OneTree (members : List String) (fanOut : Nat) (spec : OperatorSpec)
    (place : String → Place) : Prop where
  root_mem : spec.root ∈ members
  parent_eq_none_iff : ∀ task ∈ members, (place task).parent = none ↔ task = spec.root
  mem_children_iff : ∀ parent ∈ members, ∀ child ∈ members,
    child ∈ (place parent).children ↔ (place child).parent = some parent
  parent_mem : ∀ child ∈ members, ∀ parent, (place child).parent = some parent → parent ∈ members
  children_subset : ∀ parent ∈ members, (place parent).children ⊆ members
  nodup_children : ∀ parent ∈ members, (place parent).children.Nodup
  length_children_le : ∀ parent ∈ members, (place parent).children.length ≤ fanOut
  /-- From every member the parents lead to the root, through members alone. -/
  reaches_root : ∀ task ∈ members, Relation.ReflTransGen
    (fun child parent => parent ∈ members ∧ (place child).parent = some parent) task spec.root
  role_eq_iff : ∀ task ∈ members,
    (place task).role = spec.roleOf spec.root ↔ (place task).parent = none

/-- The descriptions of a bundle's operators. -/
def Bundle.specs (b : Bundle) : Table String OperatorSpec :=
  b.operators.mapValues fun _ view => view.spec

/-- Bundles of the members of a group that fit together. -/
structure Bundle.Agree (members : List String) (fanOut : Nat) (bundle : String → Bundle) :
    Prop where
  group_eq : ∀ t ∈ members, ∀ u ∈ members, (bundle t).group = (bundle u).group
  epoch_eq : ∀ t ∈ members, ∀ u ∈ members, (bundle t).epoch = (bundle u).epoch
  specs_eq : ∀ t ∈ members, ∀ u ∈ members, (bundle t).specs = (bundle u).specs
  oneTree : ∀ t ∈ members, ∀ operator spec, (bundle t).specs.get? operator = some spec →
    ∃ place, (∀ u ∈ members, (bundle u).operator operator = .ok ⟨spec, place u⟩) ∧
      Place.OneTree members fanOut spec place
  neighbors_subset : ∀ t ∈ members, (bundle t).neighbors ⊆ members
  mem_neighbors_iff : ∀ t ∈ members, ∀ u ∈ members,
    u ∈ (bundle t).neighbors ↔ t ∈ (bundle u).neighbors

/-- The root alone has the role of the root. -/
theorem OperatorSpec.roleOf_eq_iff (spec : OperatorSpec) (task : String) :
    spec.roleOf task = spec.roleOf spec.root ↔ task = spec.root := by
  by_cases h : task = spec.root
  · simp [h]
  · cases hkind : spec.kind <;> simp [roleOf, hkind, h]

/-- The places that a heap gives to its members are those of one tree. -/
theorem Topology.IsHeap.oneTree {t : Topology} (h : t.IsHeap) (hroot : t.spec.root ∈ t.members) :
    Place.OneTree t.members t.fanOut t.spec t.seat where
  root_mem := hroot
  parent_eq_none_iff _ hmem := h.parentOf_eq_none_iff hroot hmem
  mem_children_iff _ hparent _ hchild := h.mem_childrenOf_iff hroot hparent hchild
  parent_mem _ hchild _ hparent := h.mem_of_parentOf hroot hchild hparent
  children_subset _ hparent _ hchild := h.mem_of_mem_childrenOf hroot hparent hchild
  nodup_children _ hparent := h.nodup_childrenOf hroot hparent
  length_children_le _ hparent := h.length_childrenOf_le hroot hparent
  reaches_root _ hmem := h.reaches_root hroot hmem
  role_eq_iff task hmem :=
    (t.spec.roleOf_eq_iff task).trans (h.parentOf_eq_none_iff hroot hmem).symm

/-- Neighbourhood in one tree is mutual. -/
theorem Place.OneTree.mem_neighbors_comm {members : List String} {fanOut : Nat}
    {spec : OperatorSpec} {place : String → Place} (h : OneTree members fanOut spec place)
    {t u : String} (ht : t ∈ members) (hu : u ∈ members) :
    u ∈ (place t).neighbors ↔ t ∈ (place u).neighbors := by
  simp only [neighbors, List.mem_append, Option.mem_toList]
  rw [h.mem_children_iff t ht u hu, h.mem_children_iff u hu t ht, or_comm]

theorem Place.OneTree.neighbors_subset {members : List String} {fanOut : Nat}
    {spec : OperatorSpec} {place : String → Place} (h : OneTree members fanOut spec place)
    {t : String} (ht : t ∈ members) : (place t).neighbors ⊆ members := by
  intro u hu
  rw [neighbors, List.mem_append, Option.mem_toList] at hu
  rcases hu with hparent | hchild
  · exact h.parent_mem t ht u hparent
  · exact h.children_subset t ht hchild

/-! ## Handing out bundles -/

namespace Coordinator

variable {c : Coordinator} {task : String}

/-- No operator waits exactly when the root of each is a member. -/
theorem InStep.waiting_eq_nil_iff (h : c.InStep) :
    c.waiting = [] ↔
      ∀ operator t, (operator, t) ∈ c.topologies.entries → t.spec.root ∈ t.members := by
  rw [waiting, List.map_eq_nil_iff, List.filter_eq_nil_iff]
  constructor
  · intro hwaiting operator t ht
    have hplaced : t.isPlaced t.spec.root = true := by simpa using hwaiting (operator, t) ht
    exact ((h.heap ht).1.mem_placed.1 ((h.heap ht).1.mem_placed_iff_isPlaced.2 hplaced)).1
  · rintro hroot ⟨operator, t⟩ ht
    have hmem := hroot operator t ht
    simp [(h.heap ht).1.mem_placed_iff_isPlaced.1 ((h.heap ht).1.mem_placed.2 ⟨hmem, hmem⟩)]

/-- The place of a member in a tree, which there is once the root is a member too. -/
theorem InStep.place_eq (h : c.InStep) {operator : String} {t : Topology}
    (ht : (operator, t) ∈ c.topologies.entries) (hmem : task ∈ c.members) :
    t.place task =
      if t.spec.root ∈ t.members then .ok (t.seat task) else .error (.unknown task) := by
  obtain ⟨hheap, _, _, hmembers⟩ := h.heap ht
  have hplaced : t.isPlaced task = true ↔ t.spec.root ∈ t.members := by
    rw [← hheap.mem_placed_iff_isPlaced, hheap.mem_placed, hmembers, and_iff_left hmem]
  split
  · next hroot => exact Topology.place_of_isPlaced (hplaced.2 hroot)
  · next hroot => exact Topology.place_of_not_isPlaced (mt hplaced.1 hroot)

/-- The bundle of a member while no operator waits. -/
theorem InStep.bundle_eq (h : c.InStep) (hwaiting : c.waiting = []) (hmem : task ∈ c.members) :
    c.bundle task = .ok ⟨c.group, task, c.epoch,
      c.topologies.mapValues fun _ t => ⟨t.spec, t.seat task⟩⟩ := by
  rw [bundle, if_neg (by simpa using hmem),
    Table.makeEach_eq_ok (f := fun t => OperatorView.mk t.spec (t.seat task))]
  · rfl
  · rintro ⟨operator, t⟩ ht
    have hroot := h.waiting_eq_nil_iff.1 hwaiting operator t ht
    simp only [h.place_eq ht hmem, if_pos hroot]
    rfl

/-- No member gets a bundle while some operator waits. -/
theorem InStep.bundle_of_waiting (h : c.InStep) (hwaiting : c.waiting ≠ [])
    (hmem : task ∈ c.members) : c.bundle task = .error (.unknown task) := by
  rw [bundle, if_neg (by simpa using hmem), Table.makeEach_eq_error (e := .unknown task)]
  · rfl
  · rintro ⟨operator, t⟩ ht
    simp only [h.place_eq ht hmem]
    split
    · exact .inr ⟨_, rfl⟩
    · exact .inl rfl
  · rw [ne_eq, h.waiting_eq_nil_iff] at hwaiting
    push Not at hwaiting
    obtain ⟨operator, t, ht, hroot⟩ := hwaiting
    refine ⟨(operator, t), ht, ?_⟩
    simp only [h.place_eq ht hmem, if_neg hroot]
    rfl

/-- A bundle names its group, its task and the epoch. -/
theorem fields_of_bundle {b : Bundle} (h : c.bundle task = .ok b) :
    b.group = c.group ∧ b.task = task ∧ b.epoch = c.epoch := by
  rw [bundle] at h
  split at h
  · cases h
  · obtain ⟨views, _, hviews⟩ := exists_of_bind_eq_ok h
    obtain rfl := Except.ok.inj hviews
    exact ⟨rfl, rfl, rfl⟩

theorem bundle_of_not_mem (h : task ∉ c.members) : c.bundle task = .error (.unknown task) := by
  rw [bundle, if_pos h]

/-- While no operator waits, every tree has all members in it. -/
theorem InStep.oneTree (h : c.InStep) (hwaiting : c.waiting = []) {operator : String}
    {t : Topology} (ht : (operator, t) ∈ c.topologies.entries) :
    Place.OneTree c.members c.fanOut t.spec t.seat := by
  obtain ⟨hheap, _, hfan, hmembers⟩ := h.heap ht
  have hone := hheap.oneTree (h.waiting_eq_nil_iff.1 hwaiting operator t ht)
  rwa [hmembers, hfan] at hone

/-- The bundles of one state fit together. -/
theorem InStep.agree (h : c.InStep) (hwaiting : c.waiting = []) {bundle : String → Bundle}
    (hbundle : ∀ t ∈ c.members, c.bundle t = .ok (bundle t)) :
    Bundle.Agree c.members c.fanOut bundle := by
  have heq : ∀ t ∈ c.members, bundle t = ⟨c.group, t, c.epoch,
      c.topologies.mapValues fun _ u => ⟨u.spec, u.seat t⟩⟩ := by
    intro t ht
    apply Except.ok.inj
    rw [← hbundle t ht, h.bundle_eq hwaiting ht]
  have hspecs : ∀ t ∈ c.members, (bundle t).specs = c.topologies.mapValues fun _ u => u.spec := by
    intro t ht
    rw [heq t ht]
    simp [Bundle.specs, Table.mapValues]
  have hneighbors : ∀ v w : String, v ∈ c.members →
      (w ∈ (bundle v).neighbors ↔
        ∃ operator tree, (operator, tree) ∈ c.topologies.entries ∧
          w ∈ (tree.seat v).neighbors) := by
    intro v w hv
    rw [heq v hv]
    simp [Bundle.neighbors, Table.values, Table.mapValues]
  have hmutual : ∀ v w : String, v ∈ c.members → w ∈ c.members →
      w ∈ (bundle v).neighbors → v ∈ (bundle w).neighbors := by
    intro v w hv hw hmem
    obtain ⟨operator, tree, hentry, hmem⟩ := (hneighbors v w hv).1 hmem
    exact (hneighbors w v hw).2 ⟨operator, tree, hentry,
      ((h.oneTree hwaiting hentry).mem_neighbors_comm hv hw).1 hmem⟩
  constructor
  · intro t ht u hu
    rw [heq t ht, heq u hu]
  · intro t ht u hu
    rw [heq t ht, heq u hu]
  · intro t ht u hu
    rw [hspecs t ht, hspecs u hu]
  · intro t ht operator spec hspec
    rw [hspecs t ht, Table.get?_mapValues] at hspec
    obtain ⟨tree, hget, rfl⟩ := Option.map_eq_some_iff.1 hspec
    refine ⟨tree.seat, ?_, h.oneTree hwaiting (Table.mem_of_get? hget)⟩
    intro u hu
    rw [heq u hu, Bundle.operator, Table.get?_mapValues, hget]
    rfl
  · intro t ht u hu
    obtain ⟨operator, tree, hentry, hmem⟩ := (hneighbors t u ht).1 hu
    exact (h.oneTree hwaiting hentry).neighbors_subset ht hmem
  · exact fun t ht u hu => ⟨hmutual t u ht hu, hmutual u t hu ht⟩

end Coordinator

end Collective
