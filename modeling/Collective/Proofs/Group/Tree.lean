import Collective.Group.Endpoint
import Collective.Proofs.Group.Run

/-!
# Groups over a tree

Where all members of a coordinator have joined, they sit in the tree of each operator, and the ends
of the operator that they make are those of their seats. In a run, what a task has taken from
another one is a part of what that one has sent.
-/

namespace Collective

/-! ## Ends of an operator -/

theorem Bundle.view_eq {b : Bundle} {name : String} {view : OperatorView}
    (hview : b.operators.get? name = some view) : b.view name view.spec.kind = .ok view := by
  rw [Bundle.view, operator, hview]
  exact if_pos rfl

/-- Making the endpoint of an operator that the bundle has, with a codec that carries the type. -/
theorem Bundle.endpoint_eq {b : Bundle} {type : PayloadType} {name : String} {view : OperatorView}
    {codec : Codec type.Carrier} (hview : b.operators.get? name = some view)
    (hcodec : type.codec view.spec.codec = .ok codec) (role : Role) (otherwise : GroupError) :
    b.endpoint type name view.spec.kind role otherwise =
      if view.place.role = role then
        .ok ⟨name, view.place, ⟨codec, type.converter view.spec.pipeline⟩⟩
      else .error otherwise := by
  rw [endpoint, view_eq hview]
  simp only [bind, Except.bind, hcodec]

namespace Topology

/-- How values of a type travel over a tree. -/
def passage (t : Topology) (type : PayloadType) (codec : Codec type.Carrier) :
    Passage type.Carrier :=
  ⟨codec, type.converter t.spec.pipeline⟩

/-- The end of an operator that a task of its tree has. -/
def endpoint (t : Topology) (type : PayloadType) (operator : String) (codec : Codec type.Carrier)
    (task : String) : Endpoint type.Carrier :=
  ⟨operator, t.seat task, t.passage type codec⟩

end Topology

/-! ## Sessions and runs -/

section Run

variable {group operator task parent child source destination : String} {epoch : UInt64}
  {fanOut maxFrame i j : Nat} {limit : Option Nat} {homes : String → Address}
  {order : List String} {c : Coordinator} {t : Topology} {start : Session} {β : Type}
  {hasty : Prop} {script : Nat → List (Job β)} {s : System β} {history : Nat → List Act}

namespace Session.Seated

variable (h : start.Seated operator t)

include h

theorem nodup_children (hmem : task ∈ start.tasks) : (t.childrenOf task).Nodup :=
  h.heap.nodup_childrenOf h.root_mem ((h.mem_tasks_iff task).1 hmem)

theorem known_children (hmem : task ∈ start.tasks) :
    ∀ child ∈ t.childrenOf task, child ∈ start.tasks := by
  intro child hchild
  have hmember := (h.mem_tasks_iff task).1 hmem
  exact (h.mem_tasks_iff child).2 (h.heap.mem_of_mem_childrenOf h.root_mem hmember hchild)

/-- The end of an operator of a member is that of its seat, if it has the role. -/
theorem endpoint_eq {d : Client} (hd : start.clients[i]? = some d) {type : PayloadType}
    {codec : Codec type.Carrier} (hcodec : type.codec t.spec.codec = .ok codec) (role : Role)
    (otherwise : GroupError) :
    d.bundle.endpoint type operator t.spec.kind role otherwise =
      if t.spec.roleOf d.task = role then .ok (t.endpoint type operator codec d.task)
      else .error otherwise :=
  Bundle.endpoint_eq (h.seat d (List.mem_of_getElem? hd)) hcodec role otherwise

/-- Every member knows the built-in function of a reduction. -/
theorem bundle_reduction {d : Client} (hd : start.clients[i]? = some d) {function : Reduction}
    (hpurpose : t.spec.purpose = .reduce function) :
    d.bundle.reduction operator = .ok function := by
  have hkind : t.spec.kind = .reduce := by rw [OperatorSpec.kind, hpurpose]
  have hview := Bundle.view_eq (h.seat d (List.mem_of_getElem? hd))
  dsimp only at hview
  rw [hkind] at hview
  rw [Bundle.reduction, hview]
  simp only [bind, Except.bind, OperatorSpec.reduction?, hpurpose]

theorem mem_members {d : Client} (hd : start.clients[i]? = some d) : d.task ∈ t.members :=
  (h.mem_tasks_iff d.task).1 (List.mem_map_of_mem (List.mem_of_getElem? hd))

/-- Every member but the root has a parent, which has joined as well. -/
theorem exists_parent (hmem : task ∈ start.tasks) (hroot : task ≠ t.spec.root) :
    ∃ parent, t.parentOf task = some parent ∧ parent ∈ start.tasks := by
  have hmember := (h.mem_tasks_iff task).1 hmem
  obtain ⟨parent, hparent⟩ := Option.ne_none_iff_exists'.1
    (mt (h.heap.parentOf_eq_none_iff h.root_mem hmember).1 hroot)
  exact ⟨parent, hparent, (h.mem_tasks_iff parent).2
    (h.heap.mem_of_parentOf h.root_mem hmember hparent)⟩

end Session.Seated

/-- The calls of a task, in the order in which they began. -/
def System.callsOf (s : System β) (task : String) : List (Job β) :=
  s.jobsOf (s.session.tasks.idxOf task)

theorem System.Traced.idxOf_eq (htraced : s.Traced hasty script start.tasks group epoch history)
    (hi : start.tasks[i]? = some task) : start.tasks.idxOf task = i := by
  obtain ⟨hlt, rfl⟩ := List.getElem?_eq_some_iff.1 hi
  have hnodup := htraced.connected.nodup_tasks
  rw [htraced.tasks_eq] at hnodup
  exact List.Nodup.idxOf_getElem hnodup i hlt

theorem System.Traced.callsOf_eq (htraced : s.Traced hasty script start.tasks group epoch history)
    (hi : start.tasks[i]? = some task) : s.callsOf task = s.jobsOf i := by
  rw [callsOf, htraced.tasks_eq, htraced.idxOf_eq hi]

/-- What a task has taken from another one is a part of what that one has sent. -/
theorem System.Traced.taken_prefix_sent
    (htraced : s.Traced hasty script start.tasks group epoch history)
    (hi : start.tasks[i]? = some source) (hj : start.tasks[j]? = some destination) :
    Act.takenFrom operator source (history j) <+: Act.sentTo operator destination (history i) := by
  rw [htraced.flow operator i j source destination hi hj, List.append_assoc]
  exact List.prefix_append _ _

/-- Before a task begins a call, the one before has ended. -/
theorem System.Traced.ended_of_later
    (htraced : s.Traced hasty script start.tasks group epoch history)
    {job : Job β} (hjob : (s.jobsOf i)[j]? = some job) (hlater : j + 1 < (s.jobsOf i).length) :
    job.result?.isSome = true := by
  have hpast : job.released ∈ ((s.jobsOf i).map Job.released).dropLast := by
    have hlt : j < (s.jobsOf i).length - 1 := by omega
    apply List.mem_of_getElem?
    rw [List.getElem?_dropLast, List.length_map, if_pos hlt, List.getElem?_map, hjob,
      Option.map_some]
  have hended := (htraced.course i).ended_before_last _ hpast
  rwa [Job.released_result?] at hended

/-- Where a tree has members, someone has joined. -/
theorem Session.clients_ne_nil_of_joinAll (hc : Coordinator.Reachable group fanOut c)
    (ht : c.topology? operator = some t) (horder : order.Perm c.members)
    (hstart : joinAll homes maxFrame limit order (.new c) = .ok start)
    (hmem : task ∈ t.members) : start.clients ≠ [] := by
  obtain ⟨hstep, -⟩ := hc.inStep
  obtain ⟨-, -, -, hsame⟩ := hstep.heap (Table.mem_of_get? ht)
  obtain ⟨-, htasks⟩ := (Joined.new c homes).joinAll hstart
  obtain rfl : start.tasks = order := htasks
  intro hnil
  rw [hsame, ← horder.mem_iff, tasks, hnil] at hmem
  cases hmem

/-- Once all members of a coordinator have joined, they sit in each of its trees, and every run that
keeps to a script has histories. -/
theorem Session.traced_of_joinAll (hc : Coordinator.Reachable group fanOut c)
    (ht : c.topology? operator = some t) (horder : order.Perm c.members)
    (hhomes : (order.map homes).Nodup)
    (hstart : joinAll homes maxFrame limit order (.new c) = .ok start)
    (hne : start.clients ≠ []) (hscript : ∀ i, ∀ job ∈ script i, job.held = [])
    (hrun : System.Reachable (System.Keeps hasty script) (.idle start) s) :
    start.Seated operator t ∧
      ∃ history, s.Traced hasty script start.tasks c.group c.epoch history := by
  obtain ⟨hstep, -⟩ := hc.inStep
  obtain ⟨hjoined, htasks⟩ := (Joined.new c homes).joinAll hstart
  obtain rfl : start.tasks = order := htasks
  refine ⟨hjoined.seated hstep ht horder hne, ?_⟩
  exact System.Traced.of_reachable (hjoined.connected hhomes) hjoined.mailboxes_eq hscript hrun

/-- In a run that follows a script nobody gives up. -/
theorem Session.seated_of_joinAll (hc : Coordinator.Reachable group fanOut c)
    (ht : c.topology? operator = some t) (horder : order.Perm c.members)
    (hhomes : (order.map homes).Nodup)
    (hstart : joinAll homes maxFrame limit order (.new c) = .ok start)
    (hne : start.clients ≠ []) (hscript : ∀ i, ∀ job ∈ script i, job.held = [])
    (hrun : System.Reachable (System.Follows script) (.idle start) s) :
    start.Seated operator t ∧
      ∃ history, s.Traced False script start.tasks c.group c.epoch history :=
  traced_of_joinAll hc ht horder hhomes hstart hne hscript (System.keeps_of_follows False hrun)

end Run

end Collective
