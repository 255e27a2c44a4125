import Collective.Proofs.Group.Connection
import Mathlib.Data.List.Induction

/-!
# Published addresses

Clients join and leave in any order, also several of one task: a task that starts anew joins again
while its old client may still be there. The name service has the address of the client that joined
last as a task, until any client of that task leaves, whichever it is: an older one withdraws the
name of a newer one with its own. What the name service has is never the address of a client that
has left, nor of one that another client of its task has followed.
-/

namespace Collective

theorem Registry.lookup_unregister (r : Registry) (task other : String) :
    (r.unregister task).lookup other =
      if task = other then .error ⟨other⟩ else r.lookup other := by
  rw [lookup, unregister, Table.get?_erase]
  by_cases h : task = other
  · rw [if_pos h, if_pos h]
  · rw [if_neg h, if_neg h, lookup]

namespace Session

/-- A client joins, or one that is there leaves. Clients are told apart by keys, of which several
may stand for one task. -/
inductive Visit where
  | join (key : String) (bundle : Bundle) (manager : Manager Unit) (limit : Option Nat)
  | leave (key : String)

/-- The session after a visit. A task whose manager does not listen cannot join. -/
def visit (s : Session) : Visit → Session
  | .join key bundle manager limit =>
    match s.join key bundle manager limit with
    | .ok (t, _) => t
    | .error _ => s
  | .leave key => s.shutdown key

/-- The session after several visits. -/
def afterVisits (s : Session) (visits : List Visit) : Session := visits.foldl visit s

/-- The task whose name is published or withdrawn in a visit. -/
def named? (s : Session) : Visit → Option String
  | .join _ bundle manager _ => manager.home.map fun _ => bundle.task
  | .leave key => (s.client? key).map (·.2.task)

/-- The tasks whose names are published or withdrawn in several visits. -/
def named (s : Session) : List Visit → List String
  | [] => []
  | visit :: visits => (s.named? visit).toList ++ (s.visit visit).named visits

variable {s : Session} {task key : String} {bundle : Bundle} {manager : Manager Unit}
  {limit : Option Nat} {address : Address} {number : Nat} {c : Client} {next : Visit}
  {visits : List Visit}

theorem afterVisits_append (s : Session) (early late : List Visit) :
    s.afterVisits (early ++ late) = (s.afterVisits early).afterVisits late := by
  simp [afterVisits]

@[simp] theorem afterVisits_nil (s : Session) : s.afterVisits [] = s := rfl

@[simp] theorem afterVisits_cons (s : Session) (visit : Visit) (visits : List Visit) :
    s.afterVisits (visit :: visits) = (s.visit visit).afterVisits visits := rfl

theorem named_append (s : Session) (early late : List Visit) :
    s.named (early ++ late) = s.named early ++ (s.afterVisits early).named late := by
  induction early generalizing s with
  | nil => rfl
  | cons visit early ih => simp [named, ih]

/-! ## What a visit changes -/

/-- A client that joins is the newest one, and its address is published. -/
theorem exists_visit_join (s : Session) (key : String) (bundle : Bundle) (limit : Option Nat)
    (hhome : manager.home = some address) :
    ∃ c : Client, s.visit (.join key bundle manager limit) =
        { s with
          names := s.names.register bundle.task address
          clients := s.clients ++ [c]
          present := s.present.insert key s.clients.length } ∧
      c.task = bundle.task ∧ c.manager.home = some address ∧ c.cancelled = false := by
  rw [visit, join, Client.join, hhome]
  exact ⟨_, rfl, rfl, rfl, rfl⟩

theorem visit_join_of_home_eq_none (hhome : manager.home = none) :
    s.visit (.join key bundle manager limit) = s := by
  rw [visit, join, Client.join, hhome]
  rfl

/-- A client that leaves withdraws the name of its task. -/
theorem exists_visit_leave (hclient : s.client? key = some (number, c)) :
    ∃ d : Client, s.visit (.leave key) =
        { s with
          names := s.names.unregister c.task
          clients := s.clients.set number d } ∧
      d.task = c.task := by
  have htask : c.deafen.task = c.task := by
    rw [Client.deafen]
    split <;> rfl
  refine ⟨(c.shutdown s.names).1, ?_, htask⟩
  rw [visit, shutdown, hclient]
  simp [Client.shutdown, put, htask]

theorem visit_leave_of_none (hclient : s.client? key = none) : s.visit (.leave key) = s := by
  rw [visit, shutdown, hclient]

/-! ## The name of one task -/

/-- A visit changes the name of no other task. -/
theorem lookup_visit (h : s.named? next ≠ some task) :
    (s.visit next).names.lookup task = s.names.lookup task := by
  cases next with
  | join key bundle manager limit =>
    cases hhome : manager.home with
    | none => rw [visit_join_of_home_eq_none hhome]
    | some home =>
      have htask : bundle.task ≠ task := by simpa [named?, hhome] using h
      obtain ⟨c, hvisit, -⟩ := exists_visit_join s key bundle limit hhome
      rw [hvisit, Registry.lookup_register, if_neg htask]
  | leave key =>
    cases hclient : s.client? key with
    | none => rw [visit_leave_of_none hclient]
    | some found =>
      have htask : found.2.task ≠ task := by simpa [named?, hclient] using h
      obtain ⟨d, hvisit, -⟩ := exists_visit_leave hclient
      rw [hvisit, Registry.lookup_unregister, if_neg htask]

theorem lookup_afterVisits (h : task ∉ s.named visits) :
    (s.afterVisits visits).names.lookup task = s.names.lookup task := by
  induction visits generalizing s with
  | nil => rfl
  | cons visit visits ih =>
    rw [named, List.mem_append, not_or] at h
    have hfirst : s.named? visit ≠ some task := by simpa using h.1
    exact (ih h.2).trans (lookup_visit hfirst)

/-- A client is the newest one of its task, and it has not left. -/
structure Newest (s : Session) (task : String) (number : Nat) (c : Client) : Prop where
  client : s.clients[number]? = some c
  task_eq : c.task = task
  present : c.cancelled = false
  le : ∀ {other : Nat} {d : Client}, s.clients[other]? = some d → d.task = task → other ≤ number

namespace Newest

/-- A client that has just joined. -/
theorem of_join (s : Session) (key : String) (limit : Option Nat)
    (hhome : manager.home = some address) : ∃ number c,
      (s.visit (.join key bundle manager limit)).Newest bundle.task number c ∧
        c.manager.home = some address := by
  obtain ⟨c, hvisit, htask, hlistens, hpresent⟩ := exists_visit_join s key bundle limit hhome
  refine ⟨s.clients.length, c, ⟨?_, htask, hpresent, ?_⟩, hlistens⟩
  · rw [hvisit]
    simp
  · intro other d hd _
    rw [hvisit] at hd
    have hlt := (List.getElem?_eq_some_iff.1 hd).1
    rw [List.length_append, List.length_singleton] at hlt
    omega

/-- The step lemma. -/
theorem visit (h : s.Newest task number c) (hother : s.named? next ≠ some task) :
    (s.visit next).Newest task number c := by
  cases next with
  | join key bundle manager limit =>
    cases hhome : manager.home with
    | none => rwa [visit_join_of_home_eq_none hhome]
    | some home =>
      have htask : bundle.task ≠ task := by simpa [named?, hhome] using hother
      obtain ⟨d, hvisit, hd, -⟩ := exists_visit_join s key bundle limit hhome
      rw [hvisit]
      have hlt := (List.getElem?_eq_some_iff.1 h.client).1
      refine ⟨(List.getElem?_append_left hlt).trans h.client, h.task_eq, h.present, ?_⟩
      intro other e he hsame
      rw [List.getElem?_append] at he
      split at he
      · exact h.le he hsame
      · obtain rfl := List.mem_singleton.1 (List.mem_of_getElem? he)
        exact absurd (hd.symm.trans hsame) htask
  | leave key =>
    cases hclient : s.client? key with
    | none => rwa [visit_leave_of_none hclient]
    | some found =>
      obtain ⟨n, d⟩ := found
      have htask : d.task ≠ task := by simpa [named?, hclient] using hother
      have hd := getElem?_of_client? hclient
      obtain ⟨e, hvisit, he⟩ := exists_visit_leave hclient
      have hne : n ≠ number := by
        rintro rfl
        obtain rfl := Option.some.inj (hd.symm.trans h.client)
        exact htask h.task_eq
      rw [hvisit]
      refine ⟨(List.getElem?_set_ne hne).trans h.client, h.task_eq, h.present, ?_⟩
      intro other f hf hsame
      by_cases hn : n = other
      · subst hn
        rw [List.getElem?_set_self (List.getElem?_eq_some_iff.1 hd).1] at hf
        obtain rfl := Option.some.inj hf
        exact absurd (he.symm.trans hsame) htask
      · rw [List.getElem?_set_ne hn] at hf
        exact h.le hf hsame

/-- The run lemma. -/
theorem afterVisits (h : s.Newest task number c) (hothers : task ∉ s.named visits) :
    (s.afterVisits visits).Newest task number c := by
  induction visits generalizing s with
  | nil => exact h
  | cons next visits ih =>
    rw [named, List.mem_append, not_or] at hothers
    have hfirst : s.named? next ≠ some task := by simpa using hothers.1
    exact ih (h.visit hfirst) hothers.2

end Newest

/-- The name of a client that has joined, as long as no visit concerns its task. -/
theorem lookup_of_join (hhome : manager.home = some address)
    (hlater : bundle.task ∉ (s.visit (.join key bundle manager limit)).named visits) :
    (s.afterVisits (.join key bundle manager limit :: visits)).names.lookup bundle.task =
      .ok address := by
  obtain ⟨c, hvisit, -⟩ := exists_visit_join s key bundle limit hhome
  rw [afterVisits_cons, lookup_afterVisits hlater, hvisit, Registry.lookup_register, if_pos rfl]

/-- A name that is published has been published by the last visit that concerns its task. -/
theorem exists_join_of_lookup {coordinator : Coordinator}
    (h : ((new coordinator).afterVisits visits).names.lookup task = .ok address) :
    ∃ before key bundle manager limit later,
      visits = before ++ .join key bundle manager limit :: later ∧ bundle.task = task ∧
        manager.home = some address ∧
        task ∉ (((new coordinator).afterVisits before).visit
          (.join key bundle manager limit)).named later := by
  induction visits using List.reverseRecOn with
  | nil => cases h
  | append_singleton visits next ih =>
    rw [afterVisits_append, afterVisits_cons, afterVisits_nil] at h
    by_cases hnext : ((new coordinator).afterVisits visits).named? next = some task
    · cases next with
      | join key bundle manager limit =>
        obtain ⟨home, hhome, rfl⟩ := Option.map_eq_some_iff.1 hnext
        obtain ⟨c, hvisit, -⟩ :=
          exists_visit_join ((new coordinator).afterVisits visits) key bundle limit hhome
        rw [hvisit, Registry.lookup_register, if_pos rfl] at h
        obtain rfl := Except.ok.inj h
        exact ⟨visits, key, bundle, manager, limit, [], rfl, rfl, hhome, List.not_mem_nil⟩
      | leave key =>
        obtain ⟨⟨n, c⟩, hclient, rfl⟩ := Option.map_eq_some_iff.1 hnext
        obtain ⟨d, hvisit, -⟩ := exists_visit_leave hclient
        rw [hvisit, Registry.lookup_unregister, if_pos rfl] at h
        cases h
    · rw [lookup_visit hnext] at h
      obtain ⟨before, key, bundle, manager, limit, later, rfl, htask, hhome, hlater⟩ := ih h
      refine ⟨before, key, bundle, manager, limit, later ++ [next], by simp, htask, hhome, ?_⟩
      rw [named_append, List.mem_append, not_or]
      rw [afterVisits_append, afterVisits_cons] at hnext
      exact ⟨hlater, by simpa [named] using hnext⟩

/-- Whoever joins and leaves, in whatever order: the name service has an address for a task exactly
if the last visit that has concerned the task was a client joining from there. That client is then
the newest one of the task, and it has not left. Once all clients of a task have left, its name is
withdrawn. -/
theorem published_until_departure (coordinator : Coordinator) (visits : List Visit)
    (task : String) :
    (∀ address, ((new coordinator).afterVisits visits).names.lookup task = .ok address ↔
      ∃ before key bundle manager limit later,
        visits = before ++ .join key bundle manager limit :: later ∧ bundle.task = task ∧
          manager.home = some address ∧
          task ∉ (((new coordinator).afterVisits before).visit
            (.join key bundle manager limit)).named later) ∧
    (∀ address, ((new coordinator).afterVisits visits).names.lookup task = .ok address →
      ∃ number c, ((new coordinator).afterVisits visits).Newest task number c ∧
        c.manager.home = some address) ∧
    ((∀ c ∈ ((new coordinator).afterVisits visits).clients, c.task = task → c.cancelled = true) →
      ((new coordinator).afterVisits visits).names.lookup task = .error ⟨task⟩) := by
  have hnewest : ∀ address,
      ((new coordinator).afterVisits visits).names.lookup task = .ok address →
        ∃ number c, ((new coordinator).afterVisits visits).Newest task number c ∧
          c.manager.home = some address := by
    intro address h
    obtain ⟨before, key, bundle, manager, limit, later, rfl, rfl, hhome, hlater⟩ :=
      exists_join_of_lookup h
    obtain ⟨number, c, hc, hlistens⟩ :=
      Newest.of_join ((new coordinator).afterVisits before) key limit hhome
    rw [afterVisits_append]
    exact ⟨number, c, hc.afterVisits hlater, hlistens⟩
  refine ⟨?_, hnewest, ?_⟩
  · intro address
    constructor
    · exact exists_join_of_lookup
    · rintro ⟨before, key, bundle, manager, limit, later, rfl, rfl, hhome, hlater⟩
      rw [afterVisits_append]
      exact lookup_of_join hhome hlater
  · intro hleft
    cases hlookup : ((new coordinator).afterVisits visits).names.lookup task with
    | error e =>
      rw [Registry.lookup] at hlookup
      split at hlookup
      · cases hlookup
      · exact hlookup.symm
    | ok address =>
      obtain ⟨number, c, hc, -⟩ := hnewest address hlookup
      have hcancelled := hleft c (List.mem_of_getElem? hc.client) hc.task_eq
      rw [hc.present] at hcancelled
      cases hcancelled

end Session

/-! A task has been started anew, and its old client leaves after the new one has joined. -/

namespace Session.Restart

def coordinator : Coordinator := .after ⟨"g", 2, 0, [], .empty⟩ [.member (.add "A")]

def bundle : Bundle := (coordinator.bundle "A").toOption.get (by decide +kernel)

def manager (key : String) : Manager Unit := .new (some (localHome ["old", "new"] key)) 1024

def visits : List Visit :=
  [.join "old" bundle (manager "old") none, .join "new" bundle (manager "new") none, .leave "old"]

def session : Session := (new coordinator).afterVisits visits

def newer : Client := session.clients[1]?.get (by decide +kernel)

/-- The newest client of a task, which has not left, is not always published. -/
theorem newer_client_unpublished : ¬ ∀ {coordinator : Coordinator} {visits : List Visit}
    {task : String} {number : Nat} {c : Client} {address : Address},
    ((new coordinator).afterVisits visits).Newest task number c →
      c.manager.home = some address →
        ((new coordinator).afterVisits visits).names.lookup task = .ok address := by
  intro hpublished
  have hlength : session.clients.length = 2 := by decide +kernel
  have hnewest : session.Newest "A" 1 newer := by
    refine ⟨(Option.some_get _).symm, by decide +kernel, by decide +kernel, ?_⟩
    intro other d hd _
    have hlt := (List.getElem?_eq_some_iff.1 hd).1
    omega
  have hhome : newer.manager.home = some (localHome ["old", "new"] "new") := by decide +kernel
  have hlookup : session.names.lookup "A" = .ok (localHome ["old", "new"] "new") :=
    hpublished hnewest hhome
  have hwithdrawn : session.names.lookup "A" = .error ⟨"A"⟩ := by decide +kernel
  rw [hwithdrawn] at hlookup
  cases hlookup

end Session.Restart

end Collective
