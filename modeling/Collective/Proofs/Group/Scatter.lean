import Collective.Proofs.Group.Rounds
import Collective.Proofs.Group.Schedule
import Collective.Proofs.Group.Tree
import Collective.Proofs.Payload.RoundTrip
import Collective.Proofs.Topology.Portion

/-!
# Scatters over whole runs

The root of a scatter hands out some lists, one in each call, and every other task receives as many
times. Whatever order the steps of the tasks and the arrivals of their messages take, a task keeps
its part of each list; put together in pre-order, the parts are the list.
-/

namespace Collective

/-! ## Calls that hand out -/

namespace Endpoint

variable {ε : Type} {e : Endpoint (List ε)} {parent : String}

/-- What a task sends that hands out parts to its children. -/
def handOut (e : Endpoint (List ε)) (parts : List (List ε)) : List Parcel :=
  (e.place.children.zip parts).flatMap fun (child, part) =>
    (e.passage.wire part).map (Parcel.mk child)

/-- How the call of a task ends that has been given its share: it keeps the front. -/
def keepFront (e : Endpoint (List ε)) (given : List (List ε)) : Outcome (Option (List ε)) :=
  ⟨e.handOut (Share.shares (e.place.children.length + 1) (given.headD [])).tail,
    .ok (some ((Share.shares (e.place.children.length + 1) (given.headD [])).headD []))⟩

theorem handOut_map (f : String → List ε) :
    e.handOut (e.place.children.map f) =
      Parcel.toEach e.place.children fun child => e.passage.wire (f child) := by
  rw [handOut, ← List.map_prod_left_eq_zip, List.flatMap_map]
  rfl

theorem destination_mem_of_mem_handOut {parts : List (List ε)} {parcel : Parcel}
    (h : parcel ∈ e.handOut parts) : parcel.destination ∈ e.place.children := by
  obtain ⟨⟨child, part⟩, hpair, hmem⟩ := List.mem_flatMap.1 h
  obtain ⟨_, _, rfl⟩ := List.mem_map.1 hmem
  exact (List.of_mem_zip hpair).1

variable (hencode : ∀ data, ∃ bytes, e.passage.codec.encode data = .ok bytes)

include hencode

theorem map_sendScatter (elements : List ε) :
    (e.sendScatter elements).map (fun _ => (none : Option (List ε))) =
      Outcome.call ⟨e.handOut (Share.shares e.place.children.length elements), .ok none⟩ := by
  rw [sendScatter, Call.sendEach_eq hencode, Call.map_sendAll]
  rfl

theorem map_receiveScatter (hparent : e.place.parent = some parent) :
    e.receiveScatter.map some = (Intake.receive parent).begun e.keepFront := by
  rw [receiveScatter, withParent, hparent]
  show Call.receive _ _ _ = Call.receive _ _ _
  congr 1
  funext share
  dsimp only
  rw [Call.sendEach_eq hencode, Call.map_sendAll]
  rfl

end Endpoint

/-- What a task of a tree does with a list that the root hands out. -/
def Topology.handing {ε : Type} (t : Topology) (p : Passage (List ε)) (elements : List ε)
    (task : String) : Outcome (Option (List ε)) :=
  ⟨Parcel.toEach (t.childrenOf task) fun child => p.wire (t.portion elements child),
    .ok (if task = t.spec.root then none else some (t.kept elements task))⟩

/-! ## Scripts -/

/-- The calls of a scatter: the root sends the lists in order, and every other task receives as many
times. -/
def Session.scatter (start : Session) (element : ElementType) (operator : String)
    (lists : List (List element.Carrier)) (client : Nat) :
    List (Job (Option (List element.Carrier))) :=
  match start.clients[client]? with
  | none => []
  | some c =>
    match c.bundle.scatterSender element operator, c.bundle.scatterReceiver element operator with
    | .ok e, _ =>
      lists.map fun elements =>
        .new client (.list element) e ((e.sendScatter elements).map fun _ => none)
    | .error _, .ok e =>
      lists.map fun _ => .new client (.list element) e (e.receiveScatter.map some)
    | .error _, .error _ => []

/-- What a scatter over a tree is about: the seats of the tasks, the codec and the lists. -/
structure Session.Scatters (start : Session) (operator : String) (t : Topology)
    (element : ElementType) (codec : Codec (List element.Carrier))
    (lists : List (List element.Carrier)) : Prop
    extends start.Seated operator t where
  purpose_eq : t.spec.purpose = .scatter
  codec_eq : PayloadType.codec (.list element) t.spec.codec = .ok codec
  roundTrips : ∀ elements ∈ lists, (t.passage (.list element) codec).RoundTrips elements

section Run

variable {group operator task parent child : String} {epoch : UInt64} {t : Topology}
  {element : ElementType} {codec : Codec (List element.Carrier)}
  {lists : List (List element.Carrier)} {start : Session}
  {s : System (Option (List element.Carrier))} {history : Nat → List Act} {i k n : Nat} {d : Client}

open Act (sentTo takenFrom)

namespace Session.Scatters

variable (h : start.Scatters operator t element codec lists)

include h

theorem encode_ok (data : List element.Carrier) : ∃ bytes, codec.encode data = .ok bytes := by
  obtain rfl := PayloadType.eq_listCodec h.codec_eq
  exact ⟨_, rfl⟩

/-- What a task is given of a list can be read by it. -/
theorem roundTrips_portion : ∀ task ∈ t.members,
    ∀ part ∈ lists.map fun elements => t.portion elements task,
      (t.passage (.list element) codec).RoundTrips part := by
  intro task hmem part hpart
  obtain ⟨elements, helements, rfl⟩ := List.mem_map.1 hpart
  have hreads := h.roundTrips elements helements
  obtain rfl := PayloadType.eq_listCodec h.codec_eq
  refine Passage.roundTrips_list_iff.2 ?_
  intro x hx
  exact Passage.roundTrips_list_iff.1 hreads x
    (h.heap.mem_of_mem_portion h.root_mem elements task hmem x hx)

theorem handOut_portions (hmem : task ∈ t.members) (elements : List element.Carrier) :
    (t.endpoint (.list element) operator codec task).handOut
        (t.portions task (t.portion elements task)) =
      (t.handing (t.passage (.list element) codec) elements task).parcels := by
  rw [← h.heap.map_portion h.root_mem hmem]
  exact Endpoint.handOut_map (t.portion elements)

/-- The root hands out its portions of the whole list. -/
theorem handing_root (elements : List element.Carrier) :
    t.handing (t.passage (.list element) codec) elements t.spec.root =
      ⟨(t.endpoint (.list element) operator codec t.spec.root).handOut
        (Share.shares (t.childrenOf t.spec.root).length elements), .ok none⟩ := by
  have hparts := h.handOut_portions h.root_mem elements
  rw [Topology.portions, if_pos rfl, h.heap.portion_root h.root_mem] at hparts
  rw [hparts, Topology.handing, if_pos rfl]

/-- Every other task hands out its portions of what it is given. -/
theorem keepFront_portion (hmem : task ∈ t.members) (hroot : task ≠ t.spec.root)
    (elements : List element.Carrier) :
    (t.endpoint (.list element) operator codec task).keepFront [t.portion elements task] =
      t.handing (t.passage (.list element) codec) elements task := by
  have hparts := h.handOut_portions hmem elements
  rw [Topology.portions, if_neg hroot] at hparts
  rw [Endpoint.keepFront, Topology.handing, if_neg hroot, Topology.kept, if_neg hroot]
  congr 1

/-- The root of a scatter hands out the lists. -/
theorem scatter_root (hd : start.clients[i]? = some d) (hroot : d.task = t.spec.root) :
    start.scatter element operator lists i =
      (t.endpoint (.list element) operator codec d.task).gatherings i (.gather [])
        (lists.map fun elements _ =>
          ⟨(t.endpoint (.list element) operator codec d.task).handOut
            (Share.shares (t.childrenOf d.task).length elements), .ok none⟩) := by
  have hkind : t.spec.kind = .scatter := by rw [OperatorSpec.kind, h.purpose_eq]
  have hview := h.seat d (List.mem_of_getElem? hd)
  have hrole : (t.seat d.task).role = .sender := by
    rw [Topology.seat, OperatorSpec.roleOf, hkind]
    simp [hroot]
  have hsender : d.bundle.scatterSender element operator =
      .ok (t.endpoint (.list element) operator codec d.task) := by
    rw [Bundle.scatterSender, ← hkind, Bundle.endpoint_eq hview h.codec_eq, if_pos hrole]
    rfl
  rw [scatter, hd]
  dsimp only
  rw [hsender]
  dsimp only
  rw [Endpoint.gatherings, List.map_map]
  apply List.map_congr_left
  intro elements _
  exact congrArg (Job.new i (.list element) _) (Endpoint.map_sendScatter h.encode_ok elements)

/-- Every other task keeps the front of its share and hands out the rest. -/
theorem scatter_task (hd : start.clients[i]? = some d) (hparent : t.parentOf d.task = some parent) :
    start.scatter element operator lists i =
      (t.endpoint (.list element) operator codec d.task).gatherings i (.receive parent)
        (lists.map fun _ => (t.endpoint (.list element) operator codec d.task).keepFront) := by
  have hkind : t.spec.kind = .scatter := by rw [OperatorSpec.kind, h.purpose_eq]
  have hview := h.seat d (List.mem_of_getElem? hd)
  have hroot := h.heap.ne_root_of_parentOf h.root_mem hparent
  have hrole : (t.seat d.task).role = .receiver := by
    rw [Topology.seat, OperatorSpec.roleOf, hkind]
    simp [hroot]
  have hsender : d.bundle.scatterSender element operator =
      .error (.notRoot d.bundle.task operator) := by
    rw [Bundle.scatterSender, ← hkind, Bundle.endpoint_eq hview h.codec_eq,
      if_neg (by rw [hrole]; decide)]
  have hreceiver : d.bundle.scatterReceiver element operator =
      .ok (t.endpoint (.list element) operator codec d.task) := by
    rw [Bundle.scatterReceiver, ← hkind, Bundle.endpoint_eq hview h.codec_eq, if_pos hrole]
    rfl
  rw [scatter, hd]
  dsimp only
  rw [hsender, hreceiver]
  dsimp only
  rw [Endpoint.gatherings, List.map_map]
  apply List.map_congr_left
  intro elements _
  exact congrArg (Job.new i (.list element) _) (Endpoint.map_receiveScatter h.encode_ok hparent)

variable (htraced : s.Traced False (start.scatter element operator lists) start.tasks group epoch
  history)

include htraced

/-- A task that is given its parts of the lists hands out the parts of its children. -/
theorem performs (hd : start.clients[i]? = some d)
    (hgiven : ∀ parent, t.parentOf d.task = some parent →
      takenFrom operator parent (history i) <+:
        (t.passage (.list element) codec).stream
          (lists.map fun elements => t.portion elements d.task)) :
    (t.endpoint (.list element) operator codec d.task).Performs lists
      (fun elements => t.handing (t.passage (.list element) codec) elements d.task) (history i)
      ((s.jobsOf i).map Job.released) := by
  have hmem : d.task ∈ start.tasks := List.mem_map_of_mem (List.mem_of_getElem? hd)
  have hmember := h.mem_members hd
  have hlawful := PayloadType.lawful_converter (.list element) t.spec.pipeline
  have hcourse := htraced.course i
  have hchildren := h.known_children hmem
  by_cases hroot : d.task = t.spec.root
  · rw [h.scatter_root hd hroot] at hcourse
    have hfeeds : (t.endpoint (.list element) operator codec d.task).Feeds [] (fun _ => [])
        (history i) := ⟨nofun, nofun⟩
    refine Endpoint.performs_of_course hlawful List.nodup_nil ?_ hcourse hfeeds ?_
    · intro outcome houtcome values parcel hparcel
      obtain ⟨elements, -, rfl⟩ := List.mem_map.1 houtcome
      exact hchildren _ (Endpoint.destination_mem_of_mem_handOut hparcel)
    · intro m
      rw [Intake.outcome?_gather_nil, List.getElem?_map, Option.map_map, hroot]
      congr 1
      funext elements
      exact (h.handing_root elements).symm
  · obtain ⟨parent, hparent, -⟩ := h.exists_parent hmem hroot
    rw [h.scatter_task hd hparent] at hcourse
    have hfeeds : (t.endpoint (.list element) operator codec d.task).Feeds [parent]
        (fun _ => lists.map fun elements => t.portion elements d.task) (history i) := by
      refine ⟨fun _ _ => h.roundTrips_portion d.task hmember, ?_⟩
      intro source hsource
      obtain rfl := List.mem_singleton.1 hsource
      exact hgiven source hparent
    refine Endpoint.performs_of_course hlawful (List.nodup_singleton parent) ?_ hcourse hfeeds ?_
    · intro outcome houtcome values parcel hparcel
      obtain ⟨elements, -, rfl⟩ := List.mem_map.1 houtcome
      exact hchildren _ (Endpoint.destination_mem_of_mem_handOut hparcel)
    · intro m
      rw [Intake.outcome?_receive, List.getElem?_map, Pace.offer_of_steady fun _ _ => rfl,
        List.getElem?_map]
      cases lists[m]? with
      | none => rfl
      | some elements => exact congrArg some (h.keepFront_portion hmember hroot elements)

/-- What a task sends a child is a part of the stream of the child's parts of the lists. -/
theorem sent_prefix_portions : ∀ task ∈ t.members, ∀ i, start.tasks[i]? = some task →
    ∀ child ∈ t.childrenOf task,
      sentTo operator child (history i) <+: (t.passage (.list element) codec).stream
        (lists.map fun elements => t.portion elements child) := by
  -- it hands out no more than what the lists make it hand out
  have hsent : ∀ i d, start.clients[i]? = some d → d.task ∈ t.members →
      (∀ parent, t.parentOf d.task = some parent → takenFrom operator parent (history i) <+:
        (t.passage (.list element) codec).stream
          (lists.map fun elements => t.portion elements d.task)) →
      ∀ child ∈ t.childrenOf d.task,
        sentTo operator child (history i) <+: (t.passage (.list element) codec).stream
          (lists.map fun elements => t.portion elements child) := by
    intro i d hd hmem hgiven child hchild
    have hperforms := h.performs htraced hd hgiven
    have hpart := hperforms.sent_prefix_inputs child
    have hnodup := h.nodup_children ((h.mem_tasks_iff d.task).2 hmem)
    have hwire : (fun elements : List element.Carrier => Parcel.chunksTo child
        (t.handing (t.passage (.list element) codec) elements d.task).parcels) =
        fun elements => (t.passage (.list element) codec).wire (t.portion elements child) :=
      funext fun elements => Parcel.chunksTo_toEach hnodup hchild _
    rw [hwire, ← List.flatMap_map] at hpart
    exact hpart
  refine h.heap.induct_down h.root_mem ?_ ?_
  · intro i hi
    obtain ⟨d, hd, hroot⟩ := Option.map_eq_some_iff.1 ((start.getElem?_tasks i).symm.trans hi)
    rw [← hroot]
    refine hsent i d hd (hroot ▸ h.root_mem) ?_
    intro parent hparent
    exact absurd hroot (h.heap.ne_root_of_parentOf h.root_mem hparent)
  · intro parent hmem ih child hchild i hi
    obtain ⟨d, hd, rfl⟩ := Option.map_eq_some_iff.1 ((start.getElem?_tasks i).symm.trans hi)
    have hmember := h.heap.mem_of_mem_childrenOf h.root_mem hmem hchild
    refine hsent i d hd hmember ?_
    intro other hother
    have hparent := h.heap.parentOf_of_mem_childrenOf h.root_mem hmem hchild
    obtain rfl := Option.some.inj (hparent.symm.trans hother)
    obtain ⟨k, hk⟩ := List.getElem?_of_mem ((h.mem_tasks_iff parent).2 hmem)
    exact (htraced.taken_prefix_sent hk hi).trans (ih k hk d.task hchild)

/-- A reception that has ended has returned what its task keeps of the list. -/
theorem result (hd : start.clients[i]? = some d) (hroot : d.task ≠ t.spec.root)
    {job : Job (Option (List element.Carrier))}
    {result : Except GroupError (Option (List element.Carrier))}
    (hjob : (s.jobsOf i)[n]? = some job) (hresult : job.result? = some result) :
    ∃ elements, lists[n]? = some elements ∧ result = .ok (some (t.kept elements d.task)) := by
  have hi := start.task_of_client hd
  have hmember := h.mem_members hd
  have hgiven : ∀ parent, t.parentOf d.task = some parent →
      takenFrom operator parent (history i) <+: (t.passage (.list element) codec).stream
        (lists.map fun elements => t.portion elements d.task) := by
    intro parent hparent
    have hmem := h.heap.mem_of_parentOf h.root_mem hmember hparent
    have hchild := (h.heap.mem_childrenOf_iff h.root_mem hmem hmember).2 hparent
    obtain ⟨k, hk⟩ := List.getElem?_of_mem ((h.mem_tasks_iff parent).2 hmem)
    exact (htraced.taken_prefix_sent hk hi).trans
      (h.sent_prefix_portions htraced parent hmem k hk d.task hchild)
  have hreleased : ((s.jobsOf i).map Job.released)[n]? = some job.released := by
    rw [List.getElem?_map, hjob, Option.map_some]
  obtain ⟨elements, helements, rfl⟩ := (h.performs htraced hd hgiven).result n job.released result
    hreleased (job.released_result?.trans hresult)
  refine ⟨elements, helements, ?_⟩
  rw [Topology.handing, if_neg hroot]

end Session.Scatters

namespace Session

theorem fresh_of_mem_scatter {job : Job (Option (List element.Carrier))}
    (hjob : job ∈ start.scatter element operator lists i) : job.client = i ∧ job.held = [] := by
  rw [scatter] at hjob
  split at hjob
  · cases hjob
  · split at hjob
    · obtain ⟨_, -, rfl⟩ := List.mem_map.1 hjob
      exact ⟨rfl, rfl⟩
    · obtain ⟨_, -, rfl⟩ := List.mem_map.1 hjob
      exact ⟨rfl, rfl⟩
    · cases hjob

/-- Whatever order the steps of a scatter take, once every task has received its part of a list, the
parts are, in pre-order, the list. -/
theorem scatter_delivers {c : Coordinator} {fanOut maxFrame : Nat} {limit : Option Nat}
    {homes : String → Address} {order : List String}
    (hc : Coordinator.Reachable group fanOut c) (ht : c.topology? operator = some t)
    (hother : ∃ task ∈ t.members, task ≠ t.spec.root) (hpurpose : t.spec.purpose = .scatter)
    (hcodec : PayloadType.codec (.list element) t.spec.codec = .ok codec)
    (hround : ∀ elements ∈ lists, (t.passage (.list element) codec).RoundTrips elements)
    (horder : order.Perm c.members) (hhomes : (order.map homes).Nodup)
    (hstart : joinAll homes maxFrame limit order (.new c) = .ok start)
    (hrun : System.Reachable (System.Follows (start.scatter element operator lists)) (.idle start)
      s)
    (hended : ∀ task ∈ t.members, task ≠ t.spec.root →
      ∃ job, (s.callsOf task)[n]? = some job ∧ job.result?.isSome = true) :
    ∃ (elements : List element.Carrier) (returned : String → List element.Carrier),
      lists[n]? = some elements ∧
        (∀ task ∈ t.members, task ≠ t.spec.root → ∃ job, (s.callsOf task)[n]? = some job ∧
          job.result? = some (.ok (some (returned task)))) ∧
        (t.preorder.filter (· ≠ t.spec.root)).flatMap returned = elements := by
  obtain ⟨first, hmem, hne⟩ := hother
  obtain ⟨hseated, history, htraced⟩ := seated_of_joinAll hc ht horder hhomes hstart
    (clients_ne_nil_of_joinAll hc ht horder hstart hmem)
    (fun _ _ hjob => (fresh_of_mem_scatter hjob).2) hrun
  have h : start.Scatters operator t element codec lists := ⟨hseated, hpurpose, hcodec, hround⟩
  have hreturned : ∀ task ∈ t.members, task ≠ t.spec.root → ∃ job elements,
      (s.callsOf task)[n]? = some job ∧ lists[n]? = some elements ∧
        job.result? = some (.ok (some (t.kept elements task))) := by
    intro task hmem hne
    obtain ⟨job, hjob, hdone⟩ := hended task hmem hne
    obtain ⟨d, hdmem, rfl⟩ := List.mem_map.1 ((h.mem_tasks_iff task).2 hmem)
    obtain ⟨i, hd⟩ := List.getElem?_of_mem hdmem
    have hi := start.task_of_client hd
    obtain ⟨result, hresult⟩ := Option.isSome_iff_exists.1 hdone
    obtain ⟨elements, helements, rfl⟩ :=
      h.result htraced hd hne (htraced.callsOf_eq hi ▸ hjob) hresult
    exact ⟨job, elements, hjob, helements, hresult⟩
  obtain ⟨-, elements, -, helements, -⟩ := hreturned first hmem hne
  refine ⟨elements, t.kept elements, helements, ?_,
    h.heap.flatMap_kept h.root_mem ⟨first, hmem, hne⟩ elements⟩
  intro task hmem hne
  obtain ⟨job, other, hjob, hother, hresult⟩ := hreturned task hmem hne
  obtain rfl := Option.some.inj (helements.symm.trans hother)
  exact ⟨job, hjob, hresult⟩

end Session

end Run

/-! A root with two tasks below it, one of which has a third one below. The list travels in chunks
of two elements. -/

namespace Session.Spread

def coordinator : Coordinator :=
  .after ⟨"g", 2, 0, [], .empty⟩ [
    .operator "data" ⟨.scatter, "R", .json, .chunked ⟨2, by decide⟩⟩,
    .member (.add "R"), .member (.add "A"), .member (.add "B"), .member (.add "C")]

def tree : Topology := (coordinator.topology? "data").get (by decide +kernel)

def codec : Codec (List Int32) := PayloadType.listCodec (.numeric .i32)

def home : String → Address := localHome ["R", "A", "B", "C"]

def start : Session :=
  (joinAll home 1024 none ["R", "A", "B", "C"] (.new coordinator)).toOption.get (by decide +kernel)

def lists : List (List Int32) := [[1, 2, 3, 4, 5]]

def moves : List System.Move :=
  [.begin 2, .begin 0, .send 1, .send 1, .send 1, .begin 1, .hold 2 "R", .deliver 0, .take 2 "R",
    .hold 2 "R", .hold 0 "R", .deliver 1, .deliver 0, .take 0 "R", .take 2 "R", .send 2, .begin 3,
    .hold 3 "A", .deliver 0, .take 3 "A"]

def state : System (Option (List Int32)) :=
  (System.play? (start.scatter (.numeric .i32) "data" lists) moves (.idle start)).get
    (by decide +kernel)

/-- All tasks have received their parts. -/
theorem scatter_delivers_spread :
    Coordinator.Reachable "g" 2 coordinator ∧ coordinator.topology? "data" = some tree ∧
      (∃ task ∈ tree.members, task ≠ tree.spec.root) ∧ tree.spec.purpose = .scatter ∧
      PayloadType.codec (.list (.numeric .i32)) tree.spec.codec = .ok codec ∧
      (∀ elements ∈ lists,
        (tree.passage (.list (.numeric .i32)) codec).RoundTrips elements) ∧
      ["R", "A", "B", "C"].Perm coordinator.members ∧ (["R", "A", "B", "C"].map home).Nodup ∧
      joinAll home 1024 none ["R", "A", "B", "C"] (.new coordinator) = .ok start ∧
      System.Reachable (System.Follows (start.scatter (.numeric .i32) "data" lists)) (.idle start)
        state ∧
      (∀ task ∈ tree.members, task ≠ tree.spec.root →
        ∃ job, (state.callsOf task)[0]? = some job ∧ job.result?.isSome = true) ∧
      tree.preorder = ["R", "A", "C", "B"] ∧
      ∃ (elements : List Int32) (returned : String → List Int32), lists[0]? = some elements ∧
        (∀ task ∈ tree.members, task ≠ tree.spec.root →
          ∃ job, (state.callsOf task)[0]? = some job ∧
            job.result? = some (.ok (some (returned task)))) ∧
        (tree.preorder.filter (· ≠ tree.spec.root)).flatMap returned = elements := by
  have hcoordinator : Coordinator.Reachable "g" 2 coordinator := ⟨_, _, rfl, rfl⟩
  have htree : coordinator.topology? "data" = some tree := (Option.some_get _).symm
  have hother : ∃ task ∈ tree.members, task ≠ tree.spec.root := by decide +kernel
  have hcodec : PayloadType.codec (.list (.numeric .i32)) tree.spec.codec = .ok codec := rfl
  have hround : ∀ elements ∈ lists,
      (tree.passage (.list (.numeric .i32)) codec).RoundTrips elements := by
    intro elements _
    exact Passage.roundTrips_list_iff.2 fun value _ => IntegerType.i32.reads value
  have hstart : joinAll home 1024 none ["R", "A", "B", "C"] (.new coordinator) = .ok start := rfl
  have hrun : System.Reachable (System.Follows (start.scatter (.numeric .i32) "data" lists))
      (.idle start) state :=
    (System.reachable_iff_play? fun _ _ hjob => (fresh_of_mem_scatter hjob).1).2
      ⟨moves, (Option.some_get _).symm⟩
  have hended : ∀ task ∈ tree.members, task ≠ tree.spec.root →
      ∃ job, (state.callsOf task)[0]? = some job ∧ job.result?.isSome = true := by
    have hdone : ∀ task ∈ tree.members, task ≠ tree.spec.root →
        ((state.callsOf task)[0]?.bind Job.result?).isSome = true := by
      decide +kernel
    intro task hmem hne
    obtain ⟨result, hresult⟩ := Option.isSome_iff_exists.1 (hdone task hmem hne)
    obtain ⟨job, hjob, hresult⟩ := Option.bind_eq_some_iff.1 hresult
    exact ⟨job, hjob, Option.isSome_of_eq_some hresult⟩
  refine ⟨hcoordinator, htree, hother, rfl, hcodec, hround, by decide +kernel, by decide +kernel,
    hstart, hrun, hended, by decide +kernel, ?_⟩
  exact scatter_delivers hcoordinator htree hother rfl hcodec hround (by decide +kernel)
    (by decide +kernel) hstart hrun hended

end Session.Spread

end Collective
