import Collective.Proofs.Group.Rounds
import Collective.Proofs.Reduction
import Collective.Proofs.Topology.Preorder

/-!
# Partial results in a tree

Each task of a tree folds its own value with what its children have passed on, and passes on the
result; where the fold fails or the task gives up it passes on nothing, and goes on with its next
value. So what a task passes on is counted by its calls that have not failed: `Contribution` says
which call of each task has had a part in a result at the root. Where no call has failed these all
have the same number, and an integer at the root is the reduction of one value of every other task.
-/

namespace Collective

section Partials

variable {α : Type} {fold : List α → Except ReductionError α} {values : String → List α}
  {paces : String → Pace} {calls : String → Nat} {t : Topology} {task : String} {n : Nat}

/-- What a task passes on in a call, if it has a value for it, its children offer theirs and the
fold succeeds. -/
def passes (fold : List α → Except ReductionError α) (own : List α)
    (offered : Nat → Option (List α)) (m : Nat) : Option α :=
  own[m]?.bind fun value =>
    (offered m).bind fun others => (fold (value :: others)).toOption

/-- What a task passes on in its first calls, each with the number of its call. -/
def passedOn (fold : List α → Except ReductionError α) (own : List α)
    (offered : Nat → Option (List α)) (n : Nat) : List (Nat × α) :=
  (List.range n).filterMap fun m => (passes fold own offered m).map (m, ·)

/-- What every task of a tree passes on in so many calls of each. -/
def Topology.partials (t : Topology) (fold : List α → Except ReductionError α)
    (values : String → List α) (paces : String → Pace) (calls : String → Nat) :
    String → List (Nat × α) :=
  t.foldUp fun task given =>
    passedOn fold (values task)
      (fun m => ((t.childrenOf task).zip given).mapM fun (child, entries) =>
        (paces task).offer (fun _ => entries.map Prod.snd) m child)
      (calls task)

/-- The values that the children of a task offer for one of its calls. -/
def Topology.offered (t : Topology) (fold : List α → Except ReductionError α)
    (values : String → List α) (paces : String → Pace) (calls : String → Nat) (task : String)
    (m : Nat) : Option (List α) :=
  (t.childrenOf task).mapM
    ((paces task).offer (fun child => (t.partials fold values paces calls child).map Prod.snd) m)

/-- What can be made of some values by folding, again and again. -/
inductive Made (fold : List α → Except ReductionError α) (given : α → Prop) : α → Prop
  | given {value : α} : given value → Made fold given value
  | fold {others : List α} {result : α} :
    (∀ value ∈ others, Made fold given value) → fold others = .ok result → Made fold given result

theorem passes_eq_some_iff {own : List α} {offered : Nat → Option (List α)} {m : Nat}
    {result : α} :
    passes fold own offered m = some result ↔ ∃ value others, own[m]? = some value ∧
      offered m = some others ∧ fold (value :: others) = .ok result := by
  rw [passes]
  constructor
  · intro h
    obtain ⟨value, hvalue, h⟩ := Option.bind_eq_some_iff.1 h
    obtain ⟨others, hothers, h⟩ := Option.bind_eq_some_iff.1 h
    refine ⟨value, others, hvalue, hothers, ?_⟩
    cases hfold : fold (value :: others) with
    | error e =>
      rw [hfold] at h
      cases h
    | ok total =>
      rw [hfold] at h
      exact congrArg _ (Option.some.inj h)
  · rintro ⟨value, others, hvalue, hothers, hfold⟩
    rw [hvalue, Option.bind_some, hothers, Option.bind_some, hfold]
    rfl

theorem mem_passedOn_iff {own : List α} {offered : Nat → Option (List α)} {m : Nat}
    {result : α} :
    (m, result) ∈ passedOn fold own offered n ↔
      m < n ∧ passes fold own offered m = some result := by
  rw [passedOn, List.mem_filterMap]
  constructor
  · rintro ⟨k, hk, h⟩
    obtain ⟨other, hother, h⟩ := Option.map_eq_some_iff.1 h
    obtain ⟨rfl, rfl⟩ := Prod.mk.inj h
    exact ⟨List.mem_range.1 hk, hother⟩
  · rintro ⟨hlt, h⟩
    exact ⟨m, List.mem_range.2 hlt, by rw [h, Option.map_some]⟩

/-- How a value at the root of a tree has come about: the number of the call by which each task has
had a part in it, and what the task has passed on. A child has had its part by one of its calls that
have not failed; which of them it is, the number of its parent's call says where the parent has been
patient until then. -/
structure Topology.Contribution (t : Topology) (fold : List α → Except ReductionError α)
    (values : String → List α) (passing : String → List Nat) (patient : String → Nat → Prop)
    (turn : String → Nat) (result : String → α) : Prop where
  turn_mem : ∀ task ∈ t.members, ∀ child ∈ t.childrenOf task, turn child ∈ passing child
  turn_child : ∀ task ∈ t.members, ∀ child ∈ t.childrenOf task, patient task (turn task) →
    (passing child)[turn task]? = some (turn child)
  result_root : fold ((t.childrenOf t.spec.root).map result) = .ok (result t.spec.root)
  result_task : ∀ task ∈ t.members, task ≠ t.spec.root → ∃ value,
    (values task)[turn task]? = some value ∧
      fold (value :: (t.childrenOf task).map result) = .ok (result task)

namespace Topology

/-- The number of the call by which each task has had a part in a value at the root, and what the
task has passed on then. -/
def part (t : Topology) (fold : List α → Except ReductionError α) (values : String → List α)
    (paces : String → Pace) (calls : String → Nat) (n : Nat) (total : α) : String → Nat × α :=
  t.foldDown (n, total) fun task above child =>
    ((paces task).offer (t.partials fold values paces calls) above.1 child).getD (0, total)

theorem Contribution.mono {passing more : String → List Nat} {patient calm : String → Nat → Prop}
    {turn : String → Nat} {result : String → α}
    (h : t.Contribution fold values passing patient turn result)
    (hmore : ∀ task ∈ t.members, ∀ child ∈ t.childrenOf task, passing child <+: more child)
    (hcalm : ∀ task ∈ t.members, ∀ m, calm task m → patient task m) :
    t.Contribution fold values more calm turn result := by
  refine ⟨?_, ?_, h.result_root, h.result_task⟩
  · intro task hmem child hchild
    exact (hmore task hmem child hchild).subset (h.turn_mem task hmem child hchild)
  · intro task hmem child hchild hpatient
    obtain ⟨rest, hrest⟩ := hmore task hmem child hchild
    have hturn := h.turn_child task hmem child hchild (hcalm task hmem _ hpatient)
    rw [← hrest, List.getElem?_append_left (List.getElem?_eq_some_iff.1 hturn).1, hturn]

namespace IsHeap

theorem partials_eq (h : t.IsHeap) (hroot : t.spec.root ∈ t.members) (hmem : task ∈ t.members) :
    t.partials fold values paces calls task =
      passedOn fold (values task) (t.offered fold values paces calls task) (calls task) := by
  rw [partials, h.foldUp_eq hroot _ hmem, ← partials, ← List.map_prod_left_eq_zip]
  congr 1
  funext m
  rw [List.mapM_map]
  rfl

/-- What a task passes on comes of its own value and those that its children offer. -/
theorem of_mem_partials (h : t.IsHeap) (hroot : t.spec.root ∈ t.members)
    (hmem : task ∈ t.members) {m : Nat} {result : α}
    (hresult : (m, result) ∈ t.partials fold values paces calls task) :
    m < calls task ∧ ∃ value others, (values task)[m]? = some value ∧
      t.offered fold values paces calls task m = some others ∧
      fold (value :: others) = .ok result := by
  rw [h.partials_eq hroot hmem] at hresult
  obtain ⟨hlt, hresult⟩ := mem_passedOn_iff.1 hresult
  exact ⟨hlt, passes_eq_some_iff.1 hresult⟩

/-- What a task passes on is made of the values of all tasks. -/
theorem made_partials (h : t.IsHeap) (hroot : t.spec.root ∈ t.members) :
    ∀ task ∈ t.members, ∀ result ∈ (t.partials fold values paces calls task).map Prod.snd,
      Made fold (fun value => ∃ task, value ∈ values task) result := by
  refine h.induct_up hroot ?_
  intro task hmem ih result hresult
  obtain ⟨⟨m, other⟩, hpartial, rfl⟩ := List.mem_map.1 hresult
  obtain ⟨-, value, others, hvalue, hothers, hfold⟩ := h.of_mem_partials hroot hmem hpartial
  refine .fold ?_ hfold
  intro one hone
  rcases List.mem_cons.1 hone with rfl | hone
  · exact .given ⟨task, List.mem_of_getElem? hvalue⟩
  · obtain ⟨child, hchild, hoffer⟩ := exists_of_mem_mapM hothers hone
    exact ih child hchild one (Pace.mem_of_offer hoffer)

/-- A child has had its part in what its parent has folded by what it has offered for that. -/
theorem part_child (h : t.IsHeap) (hroot : t.spec.root ∈ t.members) (hmem : task ∈ t.members)
    {total : α} {others : List α}
    (hothers : t.offered fold values paces calls task
      (t.part fold values paces calls n total task).1 = some others) {child : String}
    (hchild : child ∈ t.childrenOf task) :
    (paces task).offer (t.partials fold values paces calls)
      (t.part fold values paces calls n total task).1 child =
        some (t.part fold values paces calls n total child) := by
  obtain ⟨result, hresult⟩ := exists_of_mapM_eq_some hothers hchild
  rw [Pace.offer_map, Option.map_eq_some_iff] at hresult
  obtain ⟨entry, hentry, -⟩ := hresult
  have hpart : t.part fold values paces calls n total child =
      ((paces task).offer (t.partials fold values paces calls)
        (t.part fold values paces calls n total task).1 child).getD (0, total) :=
    h.foldDown_child hroot _ _ hmem hchild
  rw [hpart, hentry]
  rfl

/-- Every task has had its part by a call that has not failed. -/
theorem offered_part (h : t.IsHeap) (hroot : t.spec.root ∈ t.members) {others : List α} {total : α}
    (hothers : t.offered fold values paces calls t.spec.root n = some others)
    (htotal : fold others = .ok total) :
    ∀ task ∈ t.members, ∃ front others,
      t.offered fold values paces calls task (t.part fold values paces calls n total task).1 =
          some others ∧
        fold (front ++ others) = .ok (t.part fold values paces calls n total task).2 ∧
        (task = t.spec.root → front = []) ∧
        (task ≠ t.spec.root → ∃ value, front = [value] ∧
          (values task)[(t.part fold values paces calls n total task).1]? = some value) := by
  refine h.induct_down hroot ?_ ?_
  · have hpart : t.part fold values paces calls n total t.spec.root = (n, total) :=
      h.foldDown_root hroot _ _
    rw [hpart]
    exact ⟨[], others, hothers, htotal, fun _ => rfl, fun hne => absurd rfl hne⟩
  · rintro parent hmem ⟨-, offers, hoffers, -⟩ child hchild
    have hentry := Pace.mem_of_offer (h.part_child hroot hmem hoffers hchild)
    have hmember := h.mem_of_mem_childrenOf hroot hmem hchild
    obtain ⟨-, value, own, hvalue, hown, hfold⟩ := h.of_mem_partials hroot hmember hentry
    have hne := h.ne_root_of_mem_childrenOf hroot hmem hchild
    exact ⟨[value], own, hown, hfold, fun heq => absurd heq hne, fun _ => ⟨value, rfl, hvalue⟩⟩

/-- What the children of the root offer has come about by a contribution of every task. -/
theorem contribution_part (h : t.IsHeap) (hroot : t.spec.root ∈ t.members) {others : List α}
    {total : α} (hothers : t.offered fold values paces calls t.spec.root n = some others)
    (htotal : fold others = .ok total) :
    t.Contribution fold values
      (fun task => (t.partials fold values paces calls task).map Prod.fst)
      (fun task m => ∀ k < m, (paces task).quits k = false)
      (fun task => (t.part fold values paces calls n total task).1)
      (fun task => (t.part fold values paces calls n total task).2) := by
  have hall := h.offered_part hroot hothers htotal
  have hmap : ∀ task ∈ t.members, ∀ others,
      t.offered fold values paces calls task (t.part fold values paces calls n total task).1 =
        some others →
        others = (t.childrenOf task).map fun child =>
          (t.part fold values paces calls n total child).2 := by
    intro task hmem others hothers
    apply Option.some.inj
    rw [← hothers]
    apply mapM_eq_some
    intro child hchild
    rw [Pace.offer_map, h.part_child hroot hmem hothers hchild]
    rfl
  refine ⟨?_, ?_, ?_, ?_⟩
  · intro task hmem child hchild
    obtain ⟨-, offers, hoffers, -⟩ := hall task hmem
    exact List.mem_map_of_mem (Pace.mem_of_offer (h.part_child hroot hmem hoffers hchild))
  · intro task hmem child hchild hpatient
    obtain ⟨-, offers, hoffers, -⟩ := hall task hmem
    have hentry := Pace.getElem?_of_offer (h.part_child hroot hmem hoffers hchild) hpatient
    rw [List.getElem?_map, hentry]
    rfl
  · obtain ⟨front, offers, hoffers, hfold, hfront, -⟩ := hall t.spec.root hroot
    rw [← hmap _ hroot offers hoffers, ← hfold, hfront rfl, List.nil_append]
  · intro task hmem hne
    obtain ⟨front, offers, hoffers, hfold, -, hfront⟩ := hall task hmem
    obtain ⟨value, rfl, hvalue⟩ := hfront hne
    refine ⟨value, hvalue, ?_⟩
    rw [← hmap _ hmem offers hoffers]
    exact hfold

end IsHeap

/-- A task has had its part by its call with the number of the root's, if no call up to that number
has failed. -/
theorem Contribution.turn_eq {passing : String → List Nat} {patient : String → Nat → Prop}
    {turn : String → Nat} {result : String → α}
    (h : t.Contribution fold values passing patient turn result) (hheap : t.IsHeap)
    (hroot : t.spec.root ∈ t.members)
    (hpatient : ∀ task ∈ t.members, patient task (turn t.spec.root))
    (hpassing : ∀ task ∈ t.members, task ≠ t.spec.root → ∀ m,
      (passing task)[turn t.spec.root]? = some m → m = turn t.spec.root) :
    ∀ task ∈ t.members, turn task = turn t.spec.root := by
  refine hheap.induct_down hroot rfl ?_
  intro parent hmem ih child hchild
  have hmember := hheap.mem_of_mem_childrenOf hroot hmem hchild
  have hne := hheap.ne_root_of_mem_childrenOf hroot hmem hchild
  have hcalm : patient parent (turn parent) := by
    rw [ih]
    exact hpatient parent hmem
  have hturn := h.turn_child parent hmem child hchild hcalm
  rw [ih] at hturn
  exact hpassing child hmember hne _ hturn

end Topology

end Partials

/-! ## Integers -/

/-- An integer at the root is the reduction of the values by which every task has had its part. -/
theorem Topology.Contribution.yields {type : IntegerType} {function : Reduction}
    {values : String → List type.numeric.Carrier} {t : Topology} {passing : String → List Nat}
    {patient : String → Nat → Prop} {turn : String → Nat} {result : String → type.numeric.Carrier}
    (h : t.Contribution (function.apply type.numeric) values passing patient turn result)
    (hheap : t.IsHeap) (hroot : t.spec.root ∈ t.members) :
    ∃ inputs : String → type.numeric.Carrier,
      (∀ task ∈ t.members, task ≠ t.spec.root →
        (values task)[turn task]? = some (inputs task)) ∧
      function.Yields ((t.members.filter (· ≠ t.spec.root)).map fun task =>
        type.toInt (inputs task)) (type.toInt (result t.spec.root)) := by
  obtain ⟨inputs, hinputs⟩ : ∃ inputs : String → type.numeric.Carrier,
      ∀ task ∈ t.members, task ≠ t.spec.root →
        (values task)[turn task]? = some (inputs task) := by
    refine ⟨fun task => ((values task)[turn task]?).getD (result t.spec.root), ?_⟩
    intro task hmem hne
    obtain ⟨value, hvalue, -⟩ := h.result_task task hmem hne
    dsimp only
    rw [hvalue]
    rfl
  -- what the children of a task have passed on comes of the values below them
  have hchildren : ∀ task ∈ t.members, (∀ child ∈ t.childrenOf task, child ≠ t.spec.root →
      function.Yields ((t.below child).map fun task => type.toInt (inputs task))
        (type.toInt (result child))) →
      List.Forall₂ (fun part value => function.Yields part (type.toInt value))
        ((t.childrenOf task).map fun child =>
          (t.below child).map fun task => type.toInt (inputs task))
        ((t.childrenOf task).map result) := by
    intro task hmem hall
    rw [List.forall₂_map_left_iff, List.forall₂_map_right_iff, List.forall₂_same]
    intro child hchild
    exact hall child hchild (hheap.ne_root_of_mem_childrenOf hroot hmem hchild)
  have hbelow : ∀ task ∈ t.members, task ≠ t.spec.root →
      function.Yields ((t.below task).map fun task => type.toInt (inputs task))
        (type.toInt (result task)) := by
    refine hheap.induct_up hroot ?_
    intro task hmem ih hne
    obtain ⟨value, hvalue, hfold⟩ := h.result_task task hmem hne
    rw [hinputs task hmem hne] at hvalue
    obtain rfl := Option.some.inj hvalue
    have hown := function.yields_singleton (type.toInt (inputs task))
    have hyields := Reduction.yields_of_apply (.cons hown (hchildren task hmem ih)) hfold
    rw [hheap.below_eq hroot hmem, List.map_cons, List.map_flatMap, List.flatMap_def]
    exact hyields
  refine ⟨inputs, hinputs, ?_⟩
  have hall := hchildren t.spec.root hroot fun child hchild hne =>
    hbelow child (hheap.mem_of_mem_childrenOf hroot hroot hchild) hne
  have hyields := Reduction.yields_of_apply hall h.result_root
  rw [← List.flatMap_def, ← List.map_flatMap] at hyields
  exact hyields.perm ((hheap.perm_below_root hroot).map _)

end Collective
