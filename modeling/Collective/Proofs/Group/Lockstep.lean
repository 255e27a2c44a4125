import Collective.Group.Change
import Collective.Proofs.Table
import Collective.Proofs.Topology.Change

/-!
# The trees of a group stay in step

Every operator's tree is at every moment the one that a new tree becomes when the members join it in
order. So no tree can refuse a change that the others take: what the coordinator finds in its own
list of members decides for all of them. A change is made everywhere or nowhere, and the epoch
counts the ones that re-placed tasks.
-/

namespace Collective

/-- A new tree of an operator becomes `t` when members join it one after the other. -/
def Topology.Grown (name : String) (spec : OperatorSpec) (fanOut : Nat) (members : List String)
    (t : Topology) : Prop :=
  ∃ start, new name spec fanOut = .ok start ∧ start.addAll members = (.ok (), t)

namespace Topology

variable {name : String} {spec : OperatorSpec} {fanOut : Nat} {members : List String} {t : Topology}

/-- Members that all differ make a tree grow, and what it grows to is a heap. -/
theorem exists_grown (name : String) (spec : OperatorSpec) (hpos : 0 < fanOut)
    (hnodup : members.Nodup) :
    ∃ t, Grown name spec fanOut members t ∧ t.IsHeap ∧ t.name = name ∧ t.spec = spec ∧
      t.fanOut = fanOut ∧ t.members = members := by
  have hnew := new_of_pos name spec hpos
  obtain ⟨t, hall, ht⟩ := (isHeap_of_new hnew).addAll_eq (show ([] ++ members).Nodup from hnodup)
  exact ⟨t, ⟨_, hnew, hall⟩, ht.isHeap, ht.name_eq, ht.spec_eq, ht.fanOut_eq, ht.members_eq⟩

/-- The trees that grow from members are the heaps over them. -/
theorem grown_iff (hpos : 0 < fanOut) (hnodup : members.Nodup) :
    Grown name spec fanOut members t ↔
      t.IsHeap ∧ t.name = name ∧ t.spec = spec ∧ t.fanOut = fanOut ∧ t.members = members := by
  obtain ⟨u, hu, hheap, hname, hspec, hfan, hmembers⟩ := exists_grown name spec hpos hnodup
  constructor
  · rintro ⟨start, hstart, hall⟩
    obtain ⟨start', hstart', hall'⟩ := hu
    obtain rfl : start = start' := Except.ok.inj (hstart.symm.trans hstart')
    obtain rfl : t = u := congrArg Prod.snd (hall.symm.trans hall')
    exact ⟨hheap, hname, hspec, hfan, hmembers⟩
  · rintro ⟨hheap', hname', hspec', hfan', hmembers'⟩
    have hsame : u.Relaid members t :=
      ⟨hheap', hname'.trans hname.symm, hspec'.trans hspec.symm, hfan'.trans hfan.symm, hmembers'⟩
    have hself : u.Relaid members u := ⟨hheap, rfl, rfl, rfl, hmembers⟩
    obtain rfl := hsame.unique hself
    exact hu

end Topology

namespace Coordinator

variable {c : Coordinator}

/-! ## Refusals and effects -/

/-- Why a coordinator does not take a change. -/
def refusal? (c : Coordinator) : Change → Option MembershipError
  | .operator name _ =>
    if c.topologies.contains name then some (.duplicateOperator name) else none
  | .member change => change.refusal? c.members

/-- The description of an operator that is defined. -/
def spec? (c : Coordinator) (operator : String) : Option OperatorSpec :=
  (c.topology? operator).map (·.spec)

/-- A change re-places tasks. -/
def Change.replaces : Change → Bool
  | .member (.replace _ _) | .member (.remove _) => true
  | _ => false

/-- The members behind a change that is taken. -/
def Change.members (members : List String) : Change → List String
  | .operator _ _ => members
  | .member change => change.apply members

/-- The description of an operator behind a change that is taken. -/
def Change.spec? (specs : String → Option OperatorSpec) : Change → String → Option OperatorSpec
  | .operator name spec => fun operator => if name = operator then some spec else specs operator
  | .member _ => specs

/-- Every tree is the one that a new tree of its operator becomes when the members join it. -/
structure InStep (c : Coordinator) : Prop where
  fanOut_pos : 0 < c.fanOut
  nodup_members : c.members.Nodup
  grown : ∀ operator t, (operator, t) ∈ c.topologies.entries →
    Topology.Grown operator t.spec c.fanOut c.members t

/-- What a change does to a coordinator that takes it. -/
structure Took (c : Coordinator) (change : Change) (d : Coordinator) : Prop where
  group_eq : d.group = c.group
  fanOut_eq : d.fanOut = c.fanOut
  members_eq : d.members = change.members c.members
  epoch_eq : d.epoch = c.epoch + if change.replaces then 1 else 0
  spec?_eq : d.spec? = change.spec? c.spec?
  inStep : d.InStep

/-- The number of changes in a history that succeed and re-place tasks. -/
def replacements (c : Coordinator) : List Change → Nat
  | [] => 0
  | change :: rest =>
    (if change.replaces ∧ (c.change change).1 = .ok () then 1 else 0) +
      (c.change change).2.replacements rest

/-! ## One change -/

theorem InStep.heap (h : c.InStep) {operator : String} {t : Topology}
    (ht : (operator, t) ∈ c.topologies.entries) :
    t.IsHeap ∧ t.name = operator ∧ t.fanOut = c.fanOut ∧ t.members = c.members := by
  obtain ⟨hheap, hname, _, hfan, hmembers⟩ :=
    (Topology.grown_iff h.fanOut_pos h.nodup_members).1 (h.grown _ _ ht)
  exact ⟨hheap, hname, hfan, hmembers⟩

/-- A change that the trees take is made in all of them. -/
theorem InStep.changeEach_member (h : c.InStep) {change : MemberChange}
    (htaken : change.refusal? c.members = none) :
    c.topologies.changeEach (·.change change) =
      (.ok (), c.topologies.mapValues fun _ t => (t.change change).2) := by
  apply Table.changeEach_eq
  rintro ⟨operator, t⟩ ht
  obtain ⟨hheap, _, _, hmembers⟩ := h.heap ht
  obtain ⟨u, hu, _⟩ := hheap.change_eq (by rwa [hmembers])
  rw [hu]

/-- What a change of the members comes to. -/
theorem InStep.changeMember_eq (h : c.InStep) {change : MemberChange}
    (htaken : change.refusal? c.members = none) :
    c.changeMember change = (.ok (), { c with
      members := change.apply c.members
      epoch := c.epoch + if (Change.member change).replaces then 1 else 0
      topologies := c.topologies.mapValues fun _ t => (t.change change).2 }) := by
  have heach := h.changeEach_member htaken
  cases change with
  | add task =>
    have hnew := MemberChange.refusal?_add_eq_none_iff.1 htaken
    rw [changeMember, add, if_neg hnew, changeAll]
    simp only [Topology.change] at heach
    rw [heach]
    simp [Change.replaces, MemberChange.apply, Table.mapValues, Topology.change]
  | replace failed replacement =>
    obtain ⟨hfailed, hreplacement⟩ := MemberChange.refusal?_replace_eq_none_iff.1 htaken
    rw [changeMember, replace, if_neg (not_not_intro hfailed), if_neg hreplacement, changeAll]
    simp only [Topology.change] at heach
    rw [heach]
    rfl
  | remove task =>
    have hmem := MemberChange.refusal?_remove_eq_none_iff.1 htaken
    rw [changeMember, remove, if_neg (not_not_intro hmem), changeAll]
    simp only [Topology.change] at heach
    rw [heach]
    rfl

/-- A change that is refused leaves the coordinator as it was. -/
theorem change_of_refusal {change : Change} {e : MembershipError}
    (h : c.refusal? change = some e) : c.change change = (.error e, c) := by
  cases change with
  | operator name spec =>
    simp only [refusal?] at h
    split at h
    · next hdefined =>
      rw [change, addOperator, if_pos hdefined, Option.some.inj h]
    · cases h
  | member change =>
    cases change <;> simp only [refusal?, MemberChange.refusal?] at h <;>
      simp only [Coordinator.change, changeMember, add, replace, remove] <;> grind

/-- A change of the members that is not refused is made in the list of members and in every tree. -/
theorem InStep.took_member (h : c.InStep) {change : MemberChange}
    (htaken : change.refusal? c.members = none) :
    ∃ d, c.changeMember change = (.ok (), d) ∧ c.Took (.member change) d := by
  refine ⟨_, h.changeMember_eq htaken, rfl, rfl, rfl, rfl, ?_, h.fanOut_pos, ?_, ?_⟩
  · funext operator
    simp only [spec?, topology?, Table.get?_mapValues, Option.map_map, Change.spec?]
    cases ht : c.topologies.get? operator with
    | none => rfl
    | some t =>
      obtain ⟨hheap, _, _, _⟩ := h.heap (Table.mem_of_get? ht)
      obtain ⟨_, hrelaid⟩ := hheap.relaid_change change
      simp [hrelaid.spec_eq]
  · exact MemberChange.nodup_apply h.nodup_members htaken
  · intro operator u hu
    obtain ⟨⟨name, t⟩, ht, he⟩ := List.mem_map.1 hu
    obtain ⟨rfl, rfl⟩ := Prod.mk.inj he
    obtain ⟨hheap, hname, hfan, hmembers⟩ := h.heap ht
    obtain ⟨v, hv, hrelaid⟩ := hheap.change_eq (by rwa [hmembers])
    show Topology.Grown name (t.change change).2.spec c.fanOut _ (t.change change).2
    have hnew := hrelaid.members_eq
    rw [hmembers] at hnew
    rw [Topology.grown_iff h.fanOut_pos (MemberChange.nodup_apply h.nodup_members htaken), hv]
    exact ⟨hrelaid.isHeap, hrelaid.name_eq.trans hname, rfl, hrelaid.fanOut_eq.trans hfan, hnew⟩

/-- A new operator gets the tree that the members make. -/
theorem InStep.took_operator (h : c.InStep) {name : String} (spec : OperatorSpec)
    (hnew : ¬ c.topologies.contains name = true) :
    ∃ d, c.addOperator name spec = (.ok (), d) ∧ c.Took (.operator name spec) d := by
  obtain ⟨t, ⟨start, hstart, hall⟩, hheap, hname, hspec, hfan, hmembers⟩ :=
    Topology.exists_grown name spec h.fanOut_pos h.nodup_members
  refine ⟨{ c with topologies := c.topologies.insert name t }, ?_, rfl, rfl, rfl, ?_, ?_,
    h.fanOut_pos, h.nodup_members, ?_⟩
  · rw [addOperator, if_neg hnew, hstart]
    simp only [hall]
  · simp [Change.replaces]
  · funext operator
    simp only [spec?, topology?, Table.get?_insert, Change.spec?]
    split <;> simp [hspec]
  · intro operator u hu
    rcases Table.mem_insert hu with he | hold
    · obtain ⟨rfl, rfl⟩ := Prod.mk.inj he
      rw [hspec]
      exact ⟨start, hstart, hall⟩
    · exact h.grown operator u hold

/-- A change that is not refused is taken as a whole. -/
theorem InStep.took (h : c.InStep) {change : Change} (htaken : c.refusal? change = none) :
    ∃ d, c.change change = (.ok (), d) ∧ c.Took change d := by
  cases change with
  | operator name spec =>
    apply h.took_operator spec
    intro hdefined
    simp [refusal?, hdefined] at htaken
  | member change => exact h.took_member htaken

/-- Trees that are in step stay so, whether a change is taken or not. -/
theorem InStep.change (h : c.InStep) (change : Change) : (c.change change).2.InStep := by
  cases hrefusal : c.refusal? change with
  | some e => rwa [change_of_refusal hrefusal]
  | none =>
    obtain ⟨d, hchange, htook⟩ := h.took hrefusal
    rw [hchange]
    exact htook.inStep

/-! ## Histories -/

theorem InStep.fanOut_change (h : c.InStep) (change : Change) :
    (c.change change).2.fanOut = c.fanOut := by
  cases hrefusal : c.refusal? change with
  | some e => rw [change_of_refusal hrefusal]
  | none =>
    obtain ⟨d, hchange, htook⟩ := h.took hrefusal
    rw [hchange, htook.fanOut_eq]

/-- One change counts for the epoch exactly if it succeeds and re-places tasks. -/
theorem InStep.epoch_change (h : c.InStep) (change : Change) :
    (c.change change).2.epoch =
      c.epoch + UInt64.ofNat (if change.replaces ∧ (c.change change).1 = .ok () then 1 else 0) := by
  cases hrefusal : c.refusal? change with
  | some e => simp [change_of_refusal hrefusal]
  | none =>
    obtain ⟨d, hchange, htook⟩ := h.took hrefusal
    rw [hchange, htook.epoch_eq]
    by_cases hreplaces : change.replaces = true <;> simp [hreplaces]

/-- What a history leaves. -/
theorem InStep.after (h : c.InStep) (history : List Change) :
    (c.after history).InStep ∧ (c.after history).fanOut = c.fanOut ∧
      (c.after history).epoch = c.epoch + UInt64.ofNat (c.replacements history) := by
  induction history generalizing c with
  | nil => exact ⟨h, rfl, by simp [replacements]⟩
  | cons change rest ih =>
    obtain ⟨hstep, hfan, hepoch⟩ := ih (h.change change)
    refine ⟨hstep, hfan.trans (h.fanOut_change change), ?_⟩
    rw [after_cons, hepoch, h.epoch_change, replacements, UInt64.ofNat_add, UInt64.add_assoc]

theorem new_of_pos (group : String) {fanOut : Nat} (hpos : 0 < fanOut) :
    new group fanOut = .ok ⟨group, fanOut, 0, [], .empty⟩ :=
  if_neg (by omega)

/-- A coordinator without members and operators is in step. -/
theorem inStep_of_new {group : String} {fanOut : Nat} (hnew : new group fanOut = .ok c) :
    c.InStep ∧ c.fanOut = fanOut ∧ c.epoch = 0 := by
  rw [new] at hnew
  split at hnew
  · cases hnew
  · next hzero =>
    cases hnew
    refine ⟨⟨Nat.pos_of_ne_zero hzero, List.nodup_nil, ?_⟩, rfl, rfl⟩
    intro operator t ht
    cases ht

theorem Reachable.inStep {group : String} {fanOut : Nat} (h : Reachable group fanOut c) :
    c.InStep ∧ c.fanOut = fanOut := by
  obtain ⟨start, history, hnew, rfl⟩ := h
  obtain ⟨hstart, hfan, _⟩ := inStep_of_new hnew
  obtain ⟨hstep, hfan', _⟩ := hstart.after history
  exact ⟨hstep, hfan'.trans hfan⟩

/-- Whatever changes a group has seen, every tree is the one that the members make in a new tree of
its operator. A change is refused with the trees, the members and the epoch left as they were, or it
is made in all of them; and the epoch, a number of 64 bits, counts the changes that re-placed
tasks. -/
theorem after_lockstep (group : String) {fanOut : Nat} (hpos : 0 < fanOut)
    (history : List Change) :
    ∃ start c, new group fanOut = .ok start ∧ start.after history = c ∧
      (∀ operator t, c.topology? operator = some t →
        Topology.Grown operator t.spec fanOut c.members t) ∧
      (∀ change e, c.refusal? change = some e → c.change change = (.error e, c)) ∧
      (∀ change, c.refusal? change = none →
        ∃ d, c.change change = (.ok (), d) ∧ c.Took change d) ∧
      c.epoch.toNat = start.replacements history % 2 ^ 64 := by
  have hnew := new_of_pos group hpos
  obtain ⟨hstart, hfan, hzero⟩ := inStep_of_new hnew
  obtain ⟨hstep, hfan', hepoch⟩ := hstart.after history
  refine ⟨_, _, hnew, rfl, ?_, ?_, ?_, ?_⟩
  · intro operator t ht
    have hgrown := hstep.grown operator t (Table.mem_of_get? ht)
    rwa [hfan'.trans hfan] at hgrown
  · intro change e
    exact change_of_refusal
  · intro change
    exact hstep.took
  · rw [hepoch, hzero, UInt64.zero_add, UInt64.toNat_ofNat']

/-- Operators are defined before, between and after the tasks and a replacement, and some changes
are refused. -/
theorem after_lockstep_late_operator : 0 < 3 ∧ ∃ start c,
    new "g" 3 = .ok start ∧
      start.after [.operator "model" (.plain .broadcast "R"), .member (.add "R"),
        .member (.add "A"), .operator "sum" (.plain (.reduce .sum) "B"), .member (.add "A"),
        .member (.replace "A" "B"), .member (.remove "X"),
        .operator "shards" (.plain .scatter "R")] = c ∧
      (∀ operator t, c.topology? operator = some t →
        Topology.Grown operator t.spec 3 c.members t) ∧
      (∀ change e, c.refusal? change = some e → c.change change = (.error e, c)) ∧
      (∀ change, c.refusal? change = none →
        ∃ d, c.change change = (.ok (), d) ∧ c.Took change d) ∧
      c.epoch.toNat = start.replacements [.operator "model" (.plain .broadcast "R"),
        .member (.add "R"), .member (.add "A"), .operator "sum" (.plain (.reduce .sum) "B"),
        .member (.add "A"), .member (.replace "A" "B"), .member (.remove "X"),
        .operator "shards" (.plain .scatter "R")] % 2 ^ 64 :=
  ⟨by decide, after_lockstep "g" (by decide) _⟩

end Coordinator

end Collective
