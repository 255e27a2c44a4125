import Collective.Proofs.Topology.Placement
import Collective.Topology.Change

/-!
# What a change of the members does to a tree

A change is refused for a reason that shows in the list of members, with which the set of members
agrees, and then the tree stays as it is; every other change succeeds and leaves the heap of the new
members. So every tree that a history of changes leaves is a heap, and it is the one that the
members make who join a new tree in their order.
-/

namespace Collective

namespace MemberChange

/-- Why a group with the given members does not take a change. -/
def refusal? (members : List String) : MemberChange → Option MembershipError
  | .add task => if task ∈ members then some (.duplicate task) else none
  | .replace failed replacement =>
    if failed ∉ members then some (.unknown failed)
    else if replacement ∈ members then some (.duplicate replacement)
    else none
  | .remove task => if task ∉ members then some (.unknown task) else none

/-- The members behind a change that a group has taken. -/
def apply (members : List String) : MemberChange → List String
  | .add task => members ++ [task]
  | .replace failed replacement => members.filter (· ≠ failed) ++ [replacement]
  | .remove task => members.filter (· ≠ task)

variable {members : List String} {task failed replacement : String}

theorem refusal?_add_eq_none_iff : (add task).refusal? members = none ↔ task ∉ members := by
  simp [refusal?]

theorem refusal?_replace_eq_none_iff :
    (replace failed replacement).refusal? members = none ↔
      failed ∈ members ∧ replacement ∉ members := by
  by_cases hfailed : failed ∈ members <;> simp [refusal?, hfailed]

theorem refusal?_remove_eq_none_iff : (remove task).refusal? members = none ↔ task ∈ members := by
  simp [refusal?]

/-- No member comes twice behind a change that is taken. -/
theorem nodup_apply {change : MemberChange} (hnodup : members.Nodup)
    (htaken : change.refusal? members = none) : (change.apply members).Nodup := by
  have happend : ∀ {kept : List String} {task : String}, kept.Nodup → task ∉ kept →
      (kept ++ [task]).Nodup := by
    intro kept task hkept htask
    rw [List.nodup_append_comm]
    exact List.nodup_cons.2 ⟨htask, hkept⟩
  cases change with
  | add task => exact happend hnodup (refusal?_add_eq_none_iff.1 htaken)
  | replace failed replacement =>
    obtain ⟨_, hreplacement⟩ := refusal?_replace_eq_none_iff.1 htaken
    apply happend (hnodup.filter _)
    intro h
    exact hreplacement (List.mem_of_mem_filter h)
  | remove task => exact hnodup.filter _

end MemberChange

namespace Topology

variable {t u v : Topology}

/-- A tree is the heap of another one's operator over members in join order. -/
structure Relaid (t : Topology) (members : List String) (u : Topology) : Prop where
  isHeap : u.IsHeap
  name_eq : u.name = t.name
  spec_eq : u.spec = t.spec
  fanOut_eq : u.fanOut = t.fanOut
  members_eq : u.members = members

namespace Relaid

theorem refl (h : t.IsHeap) : t.Relaid t.members t := ⟨h, rfl, rfl, rfl, rfl⟩

theorem trans {early late : List String} (h : t.Relaid early u) (hu : u.Relaid late v) :
    t.Relaid late v :=
  ⟨hu.isHeap, hu.name_eq.trans h.name_eq, hu.spec_eq.trans h.spec_eq,
    hu.fanOut_eq.trans h.fanOut_eq, hu.members_eq⟩

/-- There is one heap of an operator over a join order. -/
theorem unique {members : List String} (hu : t.Relaid members u) (hv : t.Relaid members v) :
    u = v := by
  have hname := hu.name_eq.trans hv.name_eq.symm
  have hspec := hu.spec_eq.trans hv.spec_eq.symm
  have hfan := hu.fanOut_eq.trans hv.fanOut_eq.symm
  have hmembers := hu.members_eq.trans hv.members_eq.symm
  have horder : u.order = v.order := by rw [order, order, hspec, hmembers]
  have hknown : u.known = v.known := by
    rw [hu.isHeap.known_eq, hv.isHeap.known_eq, hmembers]
  rw [← hu.isHeap.lay_order, ← hv.isHeap.lay_order, horder]
  cases u
  cases v
  simp_all [lay]

end Relaid

theorem new_of_pos (name : String) (spec : OperatorSpec) {fanOut : Nat} (hpos : 0 < fanOut) :
    new name spec fanOut = .ok ⟨name, spec, fanOut, hpos, [], [], [], [], 0⟩ :=
  dif_pos hpos

/-- A task that is new joins a heap. -/
theorem IsHeap.add_eq (h : t.IsHeap) {task : String} (hnew : task ∉ t.members) :
    ∃ u, t.add task = (.ok (), u) ∧ t.Relaid (t.members ++ [task]) u := by
  let joined : Topology := { t with known := task :: t.known, members := t.members ++ [task] }
  have hlaid : joined.lay t.order = joined :=
    congrArg (fun u : Topology => { u with known := joined.known, members := joined.members })
      h.lay_order
  have hsettled : joined.settle task = joined.lay joined.order := h.settle_eq hnew rfl rfl hlaid
  have htaken : (MemberChange.add task).refusal? t.members = none := if_neg hnew
  have hnodup : joined.members.Nodup := MemberChange.nodup_apply h.nodup_members htaken
  have hknown : joined.known = joined.members.reverse := by
    simp [joined, h.known_eq]
  refine ⟨_, if_neg (mt h.mem_known.1 hnew), ?_⟩
  rw [show settle _ task = _ from hsettled]
  exact ⟨isHeap_lay hnodup hknown, rfl, rfl, rfl, rfl⟩

/-- New tasks join a heap one after the other, and none of them is refused. -/
theorem IsHeap.addAll_eq (h : t.IsHeap) {tasks : List String}
    (hnodup : (t.members ++ tasks).Nodup) :
    ∃ u, t.addAll tasks = (.ok (), u) ∧ t.Relaid (t.members ++ tasks) u := by
  induction tasks generalizing t with
  | nil => exact ⟨t, rfl, by simpa using Relaid.refl h⟩
  | cons task rest ih =>
    have hnew : task ∉ t.members := by
      intro hmem
      exact (List.nodup_append.1 hnodup).2.2 _ hmem _ List.mem_cons_self rfl
    obtain ⟨u, hadd, hu⟩ := h.add_eq hnew
    rw [List.append_cons, ← hu.members_eq] at hnodup
    obtain ⟨v, hall, hv⟩ := ih hu.isHeap hnodup
    refine ⟨v, by rw [addAll, hadd]; exact hall, hu.trans ?_⟩
    rwa [hu.members_eq, ← List.append_cons] at hv

/-- A replay of a join order without repetitions leaves the heap of that order. -/
theorem replay_eq (t : Topology) {tasks : List String} (hnodup : tasks.Nodup) :
    ∃ u, t.replay tasks = (.ok (), u) ∧ t.Relaid tasks u := by
  have hcleared : IsHeap { t with
      members := [], known := [], nodes := [], placement := [], frontier := 0 } :=
    isHeap_of_cleared rfl rfl rfl rfl rfl
  obtain ⟨u, hall, hu⟩ := hcleared.addAll_eq (show ([] ++ tasks).Nodup from hnodup)
  exact ⟨u, hall, hu.isHeap, hu.name_eq, hu.spec_eq, hu.fanOut_eq, hu.members_eq⟩

/-- A change that is refused leaves the tree as it was. -/
theorem IsHeap.change_of_refusal (h : t.IsHeap) {change : MemberChange} {e : MembershipError}
    (hrefusal : change.refusal? t.members = some e) : t.change change = (.error e, t) := by
  cases change <;> simp only [MemberChange.refusal?] at hrefusal <;>
    simp only [Topology.change, add, replace, remove, h.mem_known] <;> grind

/-- A change that is not refused leaves the heap of the new members. -/
theorem IsHeap.change_eq (h : t.IsHeap) {change : MemberChange}
    (htaken : change.refusal? t.members = none) :
    ∃ u, t.change change = (.ok (), u) ∧ t.Relaid (change.apply t.members) u := by
  have hnodup := MemberChange.nodup_apply h.nodup_members htaken
  cases change with
  | add task => exact h.add_eq (MemberChange.refusal?_add_eq_none_iff.1 htaken)
  | replace failed replacement =>
    obtain ⟨hfailed, hreplacement⟩ := MemberChange.refusal?_replace_eq_none_iff.1 htaken
    rw [Topology.change, replace, if_neg (not_not_intro (h.mem_known.2 hfailed)),
      if_neg (mt h.mem_known.1 hreplacement)]
    exact t.replay_eq hnodup
  | remove task =>
    have hmem := MemberChange.refusal?_remove_eq_none_iff.1 htaken
    rw [Topology.change, remove, if_neg (not_not_intro (h.mem_known.2 hmem))]
    exact t.replay_eq hnodup

/-- Every change leaves a heap of the same operator. -/
theorem IsHeap.relaid_change (h : t.IsHeap) (change : MemberChange) :
    ∃ members, t.Relaid members (t.change change).2 := by
  cases hrefusal : change.refusal? t.members with
  | some e => exact ⟨t.members, by rw [h.change_of_refusal hrefusal]; exact .refl h⟩
  | none =>
    obtain ⟨u, hchange, hu⟩ := h.change_eq hrefusal
    exact ⟨_, by rw [hchange]; exact hu⟩

/-- Every history of changes leaves a heap of the same operator. -/
theorem IsHeap.relaid_after (h : t.IsHeap) (history : List MemberChange) :
    ∃ members, t.Relaid members (t.after history) := by
  induction history generalizing t with
  | nil => exact ⟨t.members, .refl h⟩
  | cons change rest ih =>
    obtain ⟨_, hchange⟩ := h.relaid_change change
    obtain ⟨members, hrest⟩ := ih hchange.isHeap
    exact ⟨members, hchange.trans hrest⟩

/-! ## Refusals -/

/-- A heap refuses a change exactly if the list of members gives a reason. -/
theorem IsHeap.change_eq_error_iff (h : t.IsHeap) {change : MemberChange} {e : MembershipError} :
    (t.change change).1 = .error e ↔ change.refusal? t.members = some e := by
  cases hrefusal : change.refusal? t.members with
  | some reason => simp [h.change_of_refusal hrefusal]
  | none =>
    obtain ⟨u, hchange, -⟩ := h.change_eq hrefusal
    simp [hchange]

/-- A change that succeeds was not refused, and leaves the heap of the new members. -/
theorem IsHeap.taken_of_change (h : t.IsHeap) (change : MemberChange)
    (hchange : t.change change = (.ok (), u)) :
    change.refusal? t.members = none ∧ t.Relaid (change.apply t.members) u := by
  cases hrefusal : change.refusal? t.members with
  | some reason =>
    rw [h.change_of_refusal hrefusal] at hchange
    cases hchange
  | none =>
    obtain ⟨v, hv, hlaid⟩ := h.change_eq hrefusal
    obtain rfl : v = u := congrArg Prod.snd (hv.symm.trans hchange)
    exact ⟨rfl, hlaid⟩

/-- The members without one of them, each of whom is one once. -/
theorem erase_eq_filter_ne {members : List String} (hnodup : members.Nodup) (task : String) :
    members.erase task = members.filter (· ≠ task) := by
  rw [hnodup.erase_eq_filter]
  exact List.filter_congr fun member _ => by simp [bne, beq_eq_decide]

/-- How a tree answers changes of its members: what it refuses and why, that it then stays as it
is, and who its members are otherwise. -/
structure Answers (t : Topology) : Prop where
  nodup_members : t.members.Nodup
  /-- The set of members and the list of them agree. -/
  contains_iff : ∀ task, t.contains task = true ↔ task ∈ t.members
  add_eq_error_iff : ∀ task e, (t.add task).1 = .error e ↔ task ∈ t.members ∧ e = .duplicate task
  remove_eq_error_iff : ∀ task e,
    (t.remove task).1 = .error e ↔ task ∉ t.members ∧ e = .unknown task
  /-- That a failed task is no member counts before its replacement does. -/
  replace_eq_error_iff : ∀ failed replacement e, (t.replace failed replacement).1 = .error e ↔
    failed ∉ t.members ∧ e = .unknown failed ∨
      failed ∈ t.members ∧ replacement ∈ t.members ∧ e = .duplicate replacement
  eq_of_error : ∀ change e u, t.change change = (.error e, u) → u = t
  members_add : ∀ task u, t.add task = (.ok (), u) → u.members = t.members ++ [task]
  members_remove : ∀ task u, t.remove task = (.ok (), u) → u.members = t.members.erase task
  members_replace : ∀ failed replacement u, t.replace failed replacement = (.ok (), u) →
    u.members = t.members.erase failed ++ [replacement]
  /-- The members that stay are placed again, and none of them is refused. -/
  replay_remove : ∀ task ∈ t.members, (t.replay (t.members.filter (· ≠ task))).1 = .ok ()
  replay_replace : ∀ failed ∈ t.members, ∀ replacement, replacement ∉ t.members →
    (t.replay (t.members.filter (· ≠ failed) ++ [replacement])).1 = .ok ()

theorem IsHeap.answers (h : t.IsHeap) : t.Answers where
  nodup_members := h.nodup_members
  contains_iff task := decide_eq_true_iff.trans h.mem_known
  add_eq_error_iff task e := by
    show (t.change (.add task)).1 = .error e ↔ _
    rw [h.change_eq_error_iff, MemberChange.refusal?]
    grind
  remove_eq_error_iff task e := by
    show (t.change (.remove task)).1 = .error e ↔ _
    rw [h.change_eq_error_iff, MemberChange.refusal?]
    grind
  replace_eq_error_iff failed replacement e := by
    show (t.change (.replace failed replacement)).1 = .error e ↔ _
    rw [h.change_eq_error_iff, MemberChange.refusal?]
    grind
  eq_of_error change e u hchange := by
    have hrefusal := h.change_eq_error_iff.1 (congrArg Prod.fst hchange)
    rw [h.change_of_refusal hrefusal] at hchange
    exact (congrArg Prod.snd hchange).symm
  members_add task u hadd := (h.taken_of_change (.add task) hadd).2.members_eq
  members_remove task u hremove := by
    rw [erase_eq_filter_ne h.nodup_members]
    exact (h.taken_of_change (.remove task) hremove).2.members_eq
  members_replace failed replacement u hreplace := by
    rw [erase_eq_filter_ne h.nodup_members]
    exact (h.taken_of_change (.replace failed replacement) hreplace).2.members_eq
  replay_remove task _ := by
    obtain ⟨u, hreplay, -⟩ := t.replay_eq (h.nodup_members.filter (· ≠ task))
    rw [hreplay]
  replay_replace failed hfailed replacement hreplacement := by
    have htaken := MemberChange.refusal?_replace_eq_none_iff.2 ⟨hfailed, hreplacement⟩
    obtain ⟨u, hreplay, -⟩ := t.replay_eq (MemberChange.nodup_apply h.nodup_members htaken)
    exact congrArg Prod.fst hreplay

/-- Whatever the tasks did before, a tree refuses the changes that do not fit its members, with
itself left as it was, and makes every other one: no replay of its members fails half-way. -/
theorem after_answers (name : String) (spec : OperatorSpec) {fanOut : Nat} (hpos : 0 < fanOut)
    (history : List MemberChange) :
    ∃ start t, new name spec fanOut = .ok start ∧ start.after history = t ∧ t.Answers := by
  have hnew := new_of_pos name spec hpos
  obtain ⟨members, hlaid⟩ := (isHeap_of_new hnew).relaid_after history
  exact ⟨_, _, hnew, rfl, hlaid.isHeap.answers⟩

/-- A task that was there joins once more, the root is replaced and comes back in place of its
replacement, and a stranger is to be replaced. -/
theorem after_answers_replaced_root : 0 < 2 ∧ ∃ start t,
    new "op" (.plain .scatter "R") 2 = .ok start ∧
      start.after [.add "a", .add "R", .add "a", .replace "R" "b", .replace "b" "R",
        .replace "x" "a"] = t ∧
      t.members = ["a", "R"] ∧ t.Answers := by
  obtain ⟨start, t, hnew, hafter, hanswers⟩ := after_answers "op" (.plain .scatter "R")
    (show 0 < 2 by decide) [.add "a", .add "R", .add "a", .replace "R" "b", .replace "b" "R",
      .replace "x" "a"]
  obtain rfl := Except.ok.inj hnew
  have hmembers : t.members = ["a", "R"] := by
    rw [← hafter]
    rfl
  exact ⟨by decide, _, t, hnew, hafter, hmembers, hanswers⟩

end Topology

end Collective
