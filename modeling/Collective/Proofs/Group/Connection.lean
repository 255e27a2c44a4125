import Collective.Group.Session
import Collective.Proofs.Group.Agreement
import Mathlib.Data.List.Nodup

/-!
# Connected sessions

A session is connected when its clients belong to one group and one epoch, each hears what reaches
its manager, and the name service has the address of each and of nobody else. Steps that change
nothing but mailboxes keep it so. `joinAll` lets tasks join one after the other over managers of
their own; where all members of a coordinator have done so, the session is connected.
-/

namespace Collective

theorem Registry.lookup_register (r : Registry) (task other : String) (address : Address) :
    (r.register task address).lookup other =
      if task = other then .ok address else r.lookup other := by
  rw [lookup, register, Table.get?_insert]
  by_cases h : task = other
  · rw [if_pos h, if_pos h]
  · rw [if_neg h, if_neg h, lookup]

namespace Client

/-- A client that takes part in a group: it hears every message once, and sends. -/
structure Attends (c : Client) (group : String) (epoch : UInt64) : Prop where
  group_eq : c.group = group
  epoch_eq : c.epoch = epoch
  present : c.cancelled = false
  listens : c.manager.disposed = false
  hearing : ∀ source, c.manager.observers.hearing source = [()]

theorem isPublished_iff {c : Client} {names : Registry} : c.isPublished names = true ↔
    ∃ home, c.manager.home = some home ∧ names.lookup c.task = .ok home := by
  rw [isPublished]
  cases names.lookup c.task with
  | error e => simp
  | ok address => simp

/-- A client that takes part in a group hears a message for it once. -/
theorem Attends.hear_eq {c : Client} {group : String} {epoch : UInt64}
    (h : c.Attends group epoch) (source : Address) {m : Message} (hgroup : m.group = group)
    (htask : m.destination = c.task) :
    c.hear source m = { c with mailboxes := c.mailboxes.deliver m } := by
  rw [hear, h.hearing source]
  exact if_pos ⟨hgroup.trans h.group_eq.symm, htask⟩

/-- A client routes a message once for each of its observers that hear it. -/
theorem hear_induct {P : Client → Prop} {c : Client} {source : Address} {m : Message}
    (h : P c) (hroute : ∀ d, P d → P (d.route m)) : P (c.hear source m) :=
  List.foldlRecOn _ _ h fun d hd _ _ => hroute d hd

/-- Messages that reach a client change nothing but its mailboxes. -/
theorem exists_hear_eq (c : Client) (source : Address) (m : Message) :
    ∃ mailboxes, c.hear source m = { c with mailboxes } := by
  refine hear_induct (P := fun d => ∃ mailboxes, d = { c with mailboxes }) ⟨c.mailboxes, rfl⟩ ?_
  rintro _ ⟨mailboxes, rfl⟩
  rw [route]
  split <;> exact ⟨_, rfl⟩

/-- What a task gets that joins over a manager that has done nothing. -/
theorem join_new {bundle : Bundle} {home : Address} {maxFrame : Nat} {limit : Option Nat}
    {names names' : Registry} {d : Client}
    (h : join bundle (.new (some home) maxFrame) limit names = .ok (d, names')) :
    names' = names.register bundle.task home ∧ d.task = bundle.task ∧ d.bundle = bundle ∧
      d.mailboxes = .empty ∧ d.manager.home = some home ∧ d.Attends bundle.group bundle.epoch := by
  obtain ⟨rfl, rfl⟩ := Prod.mk.inj (Except.ok.inj h)
  refine ⟨rfl, rfl, rfl, rfl, rfl, rfl, rfl, rfl, rfl, ?_⟩
  intro source
  exact Observers.hearing_observeAll .empty source ()

end Client

namespace Session

/-- The tasks of the clients, by number. -/
def tasks (s : Session) : List String := s.clients.map (·.task)

/-- All clients take part in one group, and the name service has their addresses only. -/
structure Connected (s : Session) (group : String) (epoch : UInt64) : Prop where
  nodup_tasks : s.tasks.Nodup
  nodup_homes : (s.clients.map (·.manager.home)).Nodup
  attends : ∀ c ∈ s.clients, c.Attends group epoch
  published : ∀ c ∈ s.clients, c.isPublished s.names = true
  mem_of_lookup : ∀ task address, s.names.lookup task = .ok address → task ∈ s.tasks

variable {s : Session} {group task : String} {epoch : UInt64} {number : Nat}

/-- The present client of a task is the one of its number. -/
theorem getElem?_of_client? {c : Client} (h : s.client? task = some (number, c)) :
    s.clients[number]? = some c := by
  obtain ⟨_, -, hfound⟩ := Option.bind_eq_some_iff.1 h
  obtain ⟨_, hc, hpair⟩ := Option.map_eq_some_iff.1 hfound
  obtain ⟨rfl, rfl⟩ := Prod.mk.inj hpair
  exact hc

theorem getElem?_tasks (s : Session) (number : Nat) :
    s.tasks[number]? = (s.clients[number]?).map (·.task) := by
  rw [tasks, List.getElem?_map]

/-- What an old and a new client share is the same in the list of all clients. -/
theorem task_of_client {c : Client} (hc : s.clients[number]? = some c) :
    s.tasks[number]? = some c.task := by
  rw [getElem?_tasks, hc, Option.map_some]

theorem map_clients_put {α : Type} (f : Client → α) {c d : Client}
    (hc : s.clients[number]? = some c) (hf : f d = f c) :
    (s.put number d).clients.map f = s.clients.map f := by
  obtain ⟨hlt, rfl⟩ := List.getElem?_eq_some_iff.1 hc
  rw [put, List.map_set, hf, ← List.getElem_map f (h := by simpa using hlt),
    List.set_getElem_self]

theorem tasks_put {c d : Client} (hc : s.clients[number]? = some c) (htask : d.task = c.task) :
    (s.put number d).tasks = s.tasks :=
  map_clients_put (·.task) hc htask

namespace Connected

/-- A client may change what neither its task nor its part in the group depends on. -/
theorem put (h : s.Connected group epoch) {c d : Client} (hc : s.clients[number]? = some c)
    (htask : d.task = c.task) (hmanager : d.manager = c.manager)
    (hattends : d.Attends group epoch) : (s.put number d).Connected group epoch := by
  have htasks := tasks_put hc htask
  have hhomes := map_clients_put (·.manager.home) hc (congrArg (·.home) hmanager)
  have hmem := List.mem_of_getElem? hc
  constructor
  · rw [htasks]
    exact h.nodup_tasks
  · rw [hhomes]
    exact h.nodup_homes
  · intro e he
    rcases List.mem_or_eq_of_mem_set he with he | rfl
    · exact h.attends e he
    · exact hattends
  · intro e he
    rcases List.mem_or_eq_of_mem_set he with he | rfl
    · exact h.published e he
    · obtain ⟨home, hhome, hlookup⟩ := Client.isPublished_iff.1 (h.published c hmem)
      refine Client.isPublished_iff.2 ⟨home, ?_, ?_⟩
      · rw [hmanager, hhome]
      · rw [htask]
        exact hlookup
  · intro task address hlookup
    rw [htasks]
    exact h.mem_of_lookup task address hlookup

theorem number_unique (h : s.Connected group epoch) {i j : Nat} (hi : s.tasks[i]? = some task)
    (hj : s.tasks[j]? = some task) : i = j :=
  (List.getElem?_inj (List.getElem?_eq_some_iff.1 hi).1 h.nodup_tasks).1 (hi.trans hj.symm)

/-- At most one client listens at an address. -/
theorem client_unique (h : s.Connected group epoch) {c d : Client} (hc : c ∈ s.clients)
    (hd : d ∈ s.clients) (hhome : c.manager.home = d.manager.home) : c = d :=
  List.inj_on_of_nodup_map h.nodup_homes hc hd hhome

end Connected

/-! ## Joining -/

/-- Tasks join one after the other, each with the coordinator's bundle and over a new manager that
listens at a home of its own. -/
def joinAll (homes : String → Address) (maxFrame : Nat) (limit : Option Nat) :
    List String → Session → Except GroupError Session
  | [], s => .ok s
  | task :: rest, s => do
    let bundle ← s.bundle task
    let (s, _) ← s.join task bundle (.new (some (homes task)) maxFrame) limit
    joinAll homes maxFrame limit rest s

/-- Homes on one machine, numbered in the order of their tasks. -/
def localHome (order : List String) (task : String) : Address :=
  .v4 ⟨127, 0, 0, UInt8.ofNat (order.idxOf task + 1)⟩ 80

/-- The session of a coordinator that some tasks have joined, each from its own home. -/
structure Joined (c : Coordinator) (homes : String → Address) (s : Session) : Prop where
  coordinator_eq : s.coordinator = c
  lookup_iff : ∀ task address,
    s.names.lookup task = .ok address ↔ task ∈ s.tasks ∧ address = homes task
  bundle_eq : ∀ d ∈ s.clients, c.bundle d.task = .ok d.bundle
  mailboxes_eq : ∀ d ∈ s.clients, d.mailboxes = .empty
  home_eq : ∀ d ∈ s.clients, d.manager.home = some (homes d.task)
  attends : ∀ d ∈ s.clients, d.Attends c.group c.epoch

namespace Joined

variable {c : Coordinator} {homes : String → Address} {maxFrame : Nat} {limit : Option Nat}

theorem new (c : Coordinator) (homes : String → Address) : Joined c homes (Session.new c) where
  coordinator_eq := rfl
  lookup_iff _ _ := ⟨nofun, fun ⟨h, _⟩ => nomatch h⟩
  bundle_eq _ h := nomatch h
  mailboxes_eq _ h := nomatch h
  home_eq _ h := nomatch h
  attends _ h := nomatch h

theorem join (h : Joined c homes s) {bundle : Bundle} (hbundle : s.bundle task = .ok bundle)
    {t : Session} {d : Client}
    (hjoin : s.join task bundle (.new (some (homes task)) maxFrame) limit = .ok (t, d)) :
    Joined c homes t ∧ t.tasks = s.tasks ++ [task] := by
  have hbundle : c.bundle task = .ok bundle := by
    rw [Session.bundle, h.coordinator_eq] at hbundle
    cases hc : c.bundle task with
    | error e =>
      rw [hc] at hbundle
      cases hbundle
    | ok b =>
      rw [hc] at hbundle
      exact congrArg _ (Except.ok.inj hbundle)
  obtain ⟨hgroup, rfl, hepoch⟩ := Coordinator.fields_of_bundle hbundle
  obtain ⟨⟨e, names⟩, hclient, ht⟩ := exists_of_bind_eq_ok hjoin
  obtain ⟨rfl, rfl⟩ := Prod.mk.inj (Except.ok.inj ht)
  obtain ⟨rfl, htask, hown, hempty, hhome, hattends⟩ := Client.join_new hclient
  rw [hgroup, hepoch] at hattends
  have hall : ∀ {P : Client → Prop}, (∀ d ∈ s.clients, P d) → P e →
      ∀ d ∈ s.clients ++ [e], P d := by
    intro P hold hnew
    exact List.forall_mem_append.2 ⟨hold, List.forall_mem_singleton.2 hnew⟩
  refine ⟨⟨h.coordinator_eq, ?_, hall h.bundle_eq ?_, hall h.mailboxes_eq hempty,
    hall h.home_eq ?_, hall h.attends hattends⟩, ?_⟩
  · intro other address
    rw [Registry.lookup_register, tasks, List.map_append, List.mem_append, List.map_singleton,
      List.mem_singleton, htask]
    split
    · next he =>
      subst he
      rw [Except.ok.injEq]
      constructor
      · rintro rfl
        exact ⟨.inr rfl, rfl⟩
      · rintro ⟨_, rfl⟩
        rfl
    · next hne =>
      rw [h.lookup_iff, tasks, or_iff_left (Ne.symm hne)]
  · rw [htask, hown, hbundle]
  · rw [hhome, htask]
  · simp [tasks, htask]

theorem joinAll (h : Joined c homes s) {order : List String} {t : Session}
    (hjoin : joinAll homes maxFrame limit order s = .ok t) :
    Joined c homes t ∧ t.tasks = s.tasks ++ order := by
  induction order generalizing s with
  | nil =>
    obtain rfl := Except.ok.inj hjoin
    simpa using h
  | cons task rest ih =>
    obtain ⟨bundle, hbundle, hjoin⟩ := exists_of_bind_eq_ok hjoin
    obtain ⟨⟨u, d⟩, hu, hjoin⟩ := exists_of_bind_eq_ok hjoin
    obtain ⟨hjoined, htasks⟩ := h.join hbundle hu
    obtain ⟨ht, hrest⟩ := ih hjoined hjoin
    exact ⟨ht, by rw [hrest, htasks, List.append_assoc, List.singleton_append]⟩

/-- Members join one after the other as long as no operator waits for its root. -/
theorem exists_joinAll (h : Joined c homes s) (hstep : c.InStep) (hwaiting : c.waiting = [])
    {order : List String} (horder : ∀ task ∈ order, task ∈ c.members) :
    ∃ t, Session.joinAll homes maxFrame limit order s = .ok t := by
  induction order generalizing s with
  | nil => exact ⟨s, rfl⟩
  | cons task rest ih =>
    obtain ⟨bundle, hbundle⟩ : ∃ bundle, s.bundle task = .ok bundle := by
      rw [Session.bundle, h.coordinator_eq,
        hstep.bundle_eq hwaiting (horder task List.mem_cons_self)]
      exact ⟨_, rfl⟩
    obtain ⟨u, d, hu⟩ : ∃ u d,
        s.join task bundle (.new (some (homes task)) maxFrame) limit = .ok (u, d) :=
      ⟨_, _, rfl⟩
    obtain ⟨hjoined, -⟩ := h.join hbundle hu
    obtain ⟨t, ht⟩ := ih hjoined fun other hother => horder other (List.mem_cons_of_mem _ hother)
    refine ⟨t, ?_⟩
    rw [Session.joinAll, hbundle]
    dsimp only [bind, Except.bind]
    rw [hu]
    exact ht

/-- Once tasks have joined from different homes, the session is connected. -/
theorem connected (h : Joined c homes s) (hnodup : (s.tasks.map homes).Nodup) :
    s.Connected c.group c.epoch where
  nodup_tasks := hnodup.of_map
  nodup_homes := by
    have hmap : s.clients.map (·.manager.home) = (s.tasks.map homes).map some := by
      rw [tasks, List.map_map, List.map_map]
      exact List.map_congr_left h.home_eq
    rw [hmap]
    exact hnodup.map fun _ _ => Option.some.inj
  attends := h.attends
  published d hd := Client.isPublished_iff.2
    ⟨_, h.home_eq d hd, (h.lookup_iff _ _).2 ⟨List.mem_map_of_mem hd, rfl⟩⟩
  mem_of_lookup task address hlookup := ((h.lookup_iff task address).1 hlookup).1

end Joined

/-- The clients of a session are the tasks of a tree, and each has its seat there. -/
structure Seated (s : Session) (operator : String) (t : Topology) : Prop where
  heap : t.IsHeap
  root_mem : t.spec.root ∈ t.members
  mem_tasks_iff : ∀ task, task ∈ s.tasks ↔ task ∈ t.members
  seat : ∀ d ∈ s.clients, d.bundle.operators.get? operator = some ⟨t.spec, t.seat d.task⟩

/-- Once all members of a coordinator have joined, they sit in each of its trees. -/
theorem Joined.seated {c : Coordinator} {homes : String → Address} {operator : String}
    {t : Topology} (h : Joined c homes s) (hstep : c.InStep)
    (ht : c.topology? operator = some t) (hmembers : s.tasks.Perm c.members)
    (hne : s.clients ≠ []) : s.Seated operator t := by
  have hentry := Table.mem_of_get? ht
  obtain ⟨hheap, _, _, hsame⟩ := hstep.heap hentry
  have hmem : ∀ d ∈ s.clients, d.task ∈ c.members := by
    intro d hd
    exact hmembers.subset (List.mem_map_of_mem hd)
  have hwaiting : c.waiting = [] := by
    obtain ⟨d, hd⟩ := List.exists_mem_of_ne_nil _ hne
    by_contra hwaiting
    have hbundle := h.bundle_eq d hd
    rw [hstep.bundle_of_waiting hwaiting (hmem d hd)] at hbundle
    cases hbundle
  refine ⟨hheap, hstep.waiting_eq_nil_iff.1 hwaiting operator t hentry, ?_, ?_⟩
  · intro task
    rw [hmembers.mem_iff, hsame]
  · intro d hd
    have hbundle := h.bundle_eq d hd
    rw [hstep.bundle_eq hwaiting (hmem d hd)] at hbundle
    rw [← Except.ok.inj hbundle, Table.get?_mapValues]
    exact congrArg _ ht

end Session

end Collective
