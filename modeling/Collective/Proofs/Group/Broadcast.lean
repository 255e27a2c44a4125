import Collective.Proofs.Group.Relay
import Collective.Proofs.Group.Schedule
import Collective.Proofs.Group.Tree

/-!
# Broadcasts over whole runs

The root of a broadcast sends some values, and every other task receives as many. Whatever order the
steps of the tasks and the arrivals of their messages take, every task receives the values in the
order in which the root sends them, and has by then passed them on to its children.
-/

namespace Collective

/-- The calls of a broadcast: the root sends the values in order, and every other task receives as
many. -/
def Session.broadcast (start : Session) (type : PayloadType) (operator : String)
    (values : List type.Carrier) (client : Nat) : List (Job (Option type.Carrier)) :=
  match start.clients[client]? with
  | none => []
  | some c =>
    match c.bundle.broadcastSender type operator, c.bundle.broadcastReceiver type operator with
    | .ok e, _ => e.emissions client values
    | .error _, .ok e => e.receptions client values
    | .error _, .error _ => []

section Run

variable {group operator task parent child : String} {epoch : UInt64} {t : Topology}
  {type : PayloadType} {codec : Codec type.Carrier} {values : List type.Carrier} {start : Session}
  {s : System (Option type.Carrier)} {history : Nat → List Act} {i k n : Nat} {d : Client}

open Act (sentTo takenFrom)

/-- What a broadcast over a tree is about: the seats of the tasks, the codec and the values. -/
structure Session.Broadcasts (start : Session) (operator : String) (t : Topology)
    (type : PayloadType) (codec : Codec type.Carrier) (values : List type.Carrier) : Prop
    extends start.Seated operator t where
  purpose_eq : t.spec.purpose = .broadcast
  codec_eq : type.codec t.spec.codec = .ok codec
  roundTrips : ∀ value ∈ values,
    (⟨codec, type.converter t.spec.pipeline⟩ : Passage type.Carrier).RoundTrips value

/-- The chunks that the values of a broadcast make. -/
def Topology.stream (t : Topology) {type : PayloadType} (codec : Codec type.Carrier)
    (values : List type.Carrier) : List (Chunk Bytes) :=
  Passage.stream ⟨codec, type.converter t.spec.pipeline⟩ values

namespace Session.Broadcasts

variable (h : start.Broadcasts operator t type codec values)

include h

/-- The root of a broadcast sends, and every other task receives. -/
theorem broadcast_eq (hd : start.clients[i]? = some d) :
    start.broadcast type operator values i =
      if d.task = t.spec.root then (t.endpoint type operator codec d.task).emissions i values
      else (t.endpoint type operator codec d.task).receptions i values := by
  have hkind : t.spec.kind = .broadcast := by rw [OperatorSpec.kind, h.purpose_eq]
  have hview := h.seat d (List.mem_of_getElem? hd)
  have hrole : (t.seat d.task).role = if d.task = t.spec.root then .sender else .receiver := by
    rw [Topology.seat, OperatorSpec.roleOf, hkind]
    by_cases hroot : d.task = t.spec.root <;> simp [hroot]
  rw [broadcast, hd]
  dsimp only
  rw [Bundle.broadcastSender, Bundle.broadcastReceiver, ← hkind,
    Bundle.endpoint_eq hview h.codec_eq, Bundle.endpoint_eq hview h.codec_eq, hrole]
  by_cases hroot : d.task = t.spec.root
  · rw [if_pos hroot, if_pos hroot, if_pos rfl]
    rfl
  · rw [if_neg hroot, if_neg hroot, if_neg (by decide), if_pos rfl]
    rfl

variable (htraced : s.Traced False (start.broadcast type operator values) start.tasks group epoch
  history)

include htraced

theorem sends (hd : start.clients[i]? = some d) (hroot : d.task = t.spec.root) :
    (t.endpoint type operator codec d.task).Sends i values (history i)
      ((s.jobsOf i).map Job.released) := by
  have hmem : d.task ∈ start.tasks := List.mem_map_of_mem (List.mem_of_getElem? hd)
  have hcourse := htraced.course i
  rw [h.broadcast_eq hd, if_pos hroot] at hcourse
  exact Endpoint.sends_of_course h.roundTrips (h.nodup_children hmem) (h.known_children hmem)
    hcourse

theorem relays (hd : start.clients[i]? = some d) (hroot : d.task ≠ t.spec.root)
    (hparent : t.parentOf d.task = some parent)
    (hpart : takenFrom operator parent (history i) <+: t.stream codec values) :
    (t.endpoint type operator codec d.task).Relays i parent values (history i)
      ((s.jobsOf i).map Job.released) := by
  have hmem : d.task ∈ start.tasks := List.mem_map_of_mem (List.mem_of_getElem? hd)
  have hcourse := htraced.course i
  rw [h.broadcast_eq hd, if_neg hroot] at hcourse
  exact Endpoint.relays_of_course (type.lawful_converter t.spec.pipeline) h.roundTrips hparent
    (h.nodup_children hmem) (h.known_children hmem) hcourse hpart

/-- Every task is given a part of the stream that the root makes. -/
theorem taken_prefix_stream (hd : start.clients[i]? = some d)
    (hparent : t.parentOf d.task = some parent) :
    takenFrom operator parent (history i) <+: t.stream codec values := by
  have hmem := (h.mem_tasks_iff d.task).1 (List.mem_map_of_mem (List.mem_of_getElem? hd))
  have hreach := h.heap.reaches_root h.root_mem hmem
  generalize htask : d.task = task at *
  induction hreach using Relation.ReflTransGen.head_induction_on generalizing d i parent with
  | refl =>
    rw [(h.heap.parentOf_eq_none_iff h.root_mem hmem).2 rfl] at hparent
    cases hparent
  | @head task next hstep _ ih =>
    obtain rfl := Option.some.inj (hstep.2.symm.trans hparent)
    have hnext := hstep.1
    have hchild := (h.heap.mem_childrenOf_iff h.root_mem hnext hmem).2 hparent
    obtain ⟨u, hu, rfl⟩ := List.mem_map.1 ((h.mem_tasks_iff next).2 hnext)
    obtain ⟨k, hlt, rfl⟩ := List.getElem_of_mem hu
    have hk := List.getElem?_eq_getElem hlt
    have hsent : sentTo operator task (history k) <+: t.stream codec values := by
      by_cases hroot : start.clients[k].task = t.spec.root
      · exact (h.sends htraced hk hroot).sent_prefix_stream hchild
      · obtain ⟨above, habove⟩ := Option.ne_none_iff_exists'.1
          (mt (h.heap.parentOf_eq_none_iff h.root_mem hnext).1 hroot)
        have hgiven := ih hk rfl habove hnext
        exact ((h.relays htraced hk hroot habove hgiven).sent_prefix_taken hchild).trans hgiven
    have hnumber : start.tasks[k]? = some start.clients[k].task := by
      rw [start.getElem?_tasks, hk]
      rfl
    have hown : start.tasks[i]? = some task := by
      rw [start.getElem?_tasks, hd, ← htask]
      rfl
    have htaken : takenFrom operator start.clients[k].task (history i) <+:
        sentTo operator task (history k) :=
      htraced.taken_prefix_sent hnumber hown
    exact htaken.trans hsent

end Session.Broadcasts

theorem Session.fresh_of_mem_broadcast {job : Job (Option type.Carrier)}
    (hjob : job ∈ start.broadcast type operator values i) : job.client = i ∧ job.held = [] := by
  rw [broadcast] at hjob
  split at hjob
  · cases hjob
  · split at hjob
    · obtain ⟨_, _, rfl⟩ := List.mem_map.1 hjob
      exact ⟨rfl, rfl⟩
    · obtain ⟨_, _, rfl⟩ := List.mem_map.1 hjob
      exact ⟨rfl, rfl⟩
    · cases hjob

/-- Whatever order the steps of a broadcast take, each task receives the values in order; when a
reception has returned, its value and all before it have been sent to every child, and nothing else
but a part of the values that follow. -/
theorem Session.broadcast_delivers {c : Coordinator} {fanOut maxFrame : Nat} {limit : Option Nat}
    {homes : String → Address} {order : List String} {job : Job (Option type.Carrier)}
    {result : Except GroupError (Option type.Carrier)}
    (hc : Coordinator.Reachable group fanOut c) (ht : c.topology? operator = some t)
    (hpurpose : t.spec.purpose = .broadcast) (hcodec : type.codec t.spec.codec = .ok codec)
    (hvalues : ∀ value ∈ values,
      (⟨codec, type.converter t.spec.pipeline⟩ : Passage type.Carrier).RoundTrips value)
    (horder : order.Perm c.members) (hhomes : (order.map homes).Nodup)
    (hstart : joinAll homes maxFrame limit order (.new c) = .ok start)
    (hrun : System.Reachable (System.Follows (start.broadcast type operator values))
      (.idle start) s)
    (hd : start.clients[i]? = some d) (hroot : d.task ≠ t.spec.root)
    (hjob : (s.jobsOf i)[n]? = some job) (hresult : job.result? = some result) :
    ∃ value, values[n]? = some value ∧ result = .ok (some value) ∧
      ∀ child ∈ t.childrenOf d.task, ∃ j, start.tasks[j]? = some child ∧
        t.stream codec (values.take (n + 1)) <+: Letter.pieces operator i j s.sent ∧
          Letter.pieces operator i j s.sent <+: t.stream codec values ∧
          ((s.jobsOf i).length = n + 1 →
            Letter.pieces operator i j s.sent = t.stream codec (values.take (n + 1))) := by
  have hmem := List.mem_of_getElem? hd
  have hfresh : ∀ i, ∀ job ∈ start.broadcast type operator values i, job.held = [] := by
    intro i job hjob
    exact (fresh_of_mem_broadcast hjob).2
  obtain ⟨hseated, history, htraced⟩ := seated_of_joinAll hc ht horder hhomes hstart
    (List.ne_nil_of_mem hmem) hfresh hrun
  have h : start.Broadcasts operator t type codec values :=
    ⟨hseated, hpurpose, hcodec, hvalues⟩
  obtain ⟨parent, hparent, -⟩ := h.exists_parent (List.mem_map_of_mem hmem) hroot
  have hpart := h.taken_prefix_stream htraced hd hparent
  have hrelays := h.relays htraced hd hroot hparent hpart
  have hreleased : ((s.jobsOf i).map Job.released)[n]? = some job.released := by
    rw [List.getElem?_map, hjob, Option.map_some]
  obtain ⟨value, hvalue, hok, hchildren⟩ :=
    hrelays.result hreleased (job.released_result?.trans hresult)
  refine ⟨value, hvalue, hok, ?_⟩
  intro child hchild
  have hknown := h.known_children (List.mem_map_of_mem hmem) child hchild
  obtain ⟨j, hj⟩ := List.getElem?_of_mem hknown
  obtain ⟨hserved, hall⟩ := hchildren child hchild
  rw [List.length_map] at hall
  refine ⟨j, hj, ?_⟩
  rw [htraced.sent operator i j child hj]
  exact ⟨hserved, (hrelays.sent_prefix_taken hchild).trans hpart, hall⟩

end Run

/-! Three tasks in a chain. The root sends lists in chunks of one element, and is a value ahead when
the task below it has received the first one. -/

namespace Session.Chain

abbrev type : PayloadType := .list (.numeric .i32)

def codec : Codec type.Carrier := PayloadType.listCodec (.numeric .i32)

def values : List type.Carrier := [[5, 6], [7]]

def coordinator : Coordinator :=
  .after ⟨"g", 1, 0, [], .empty⟩ [
    .operator "model" ⟨.broadcast, "R", .json, .chunked ⟨1, ChunkSize.one_ne_zero⟩⟩,
    .member (.add "A"), .member (.add "R"), .member (.add "B")]

def tree : Topology := (coordinator.topology? "model").get (by decide +kernel)

def home (task : String) : Address :=
  .v4 ⟨127, 0, 0, if task = "R" then 1 else if task = "A" then 2 else 3⟩ 80

def start : Session :=
  (joinAll home 1024 none ["A", "R", "B"] (.new coordinator)).toOption.get (by decide +kernel)

def moves : List System.Move :=
  [.begin 1, .send 0, .send 0, .begin 1, .send 1, .begin 0, .hold 2 "R", .deliver 0, .take 2 "R",
    .send 2, .hold 2 "R", .deliver 0, .take 2 "R", .send 2]

def state : System (Option type.Carrier) :=
  (System.play? (start.broadcast type "model" values) moves (.idle start)).get (by decide +kernel)

/-- The task in the middle has received the first value and has sent it on. -/
theorem broadcast_delivers_chain :
    ∃ d job, Coordinator.Reachable "g" 1 coordinator ∧
      coordinator.topology? "model" = some tree ∧ tree.spec.purpose = .broadcast ∧
      type.codec tree.spec.codec = .ok codec ∧
      (∀ value ∈ values,
        (⟨codec, type.converter tree.spec.pipeline⟩ : Passage type.Carrier).RoundTrips value) ∧
      ["A", "R", "B"].Perm coordinator.members ∧ (["A", "R", "B"].map home).Nodup ∧
      joinAll home 1024 none ["A", "R", "B"] (.new coordinator) = .ok start ∧
      System.Reachable (System.Follows (start.broadcast type "model" values)) (.idle start) state ∧
      start.clients[0]? = some d ∧ d.task ≠ tree.spec.root ∧ tree.childrenOf d.task = ["B"] ∧
      (state.jobsOf 0)[0]? = some job ∧ job.result? = some (.ok (some [5, 6])) ∧
      ∃ value, values[0]? = some value ∧
        (.ok (some [5, 6]) : Except GroupError (Option type.Carrier)) = .ok (some value) ∧
        ∀ child ∈ tree.childrenOf d.task, ∃ j, start.tasks[j]? = some child ∧
          tree.stream codec (values.take (0 + 1)) <+: Letter.pieces "model" 0 j state.sent ∧
            Letter.pieces "model" 0 j state.sent <+: tree.stream codec values ∧
            ((state.jobsOf 0).length = 0 + 1 →
              Letter.pieces "model" 0 j state.sent = tree.stream codec (values.take (0 + 1))) := by
  have hcoordinator : Coordinator.Reachable "g" 1 coordinator := ⟨_, _, rfl, rfl⟩
  have htree : coordinator.topology? "model" = some tree := (Option.some_get _).symm
  have hvalues : ∀ value ∈ values,
      (⟨codec, type.converter tree.spec.pipeline⟩ : Passage type.Carrier).RoundTrips value := by
    have hdecode : ∀ value ∈ values, ∀ chunk ∈ (type.converter tree.spec.pipeline).split value,
        codec.decode (ElementType.toJson (.list (.numeric .i32)) chunk.data).print =
          .ok chunk.data := by
      decide +kernel
    intro value hvalue chunk hchunk
    exact ⟨_, rfl, hdecode value hvalue chunk hchunk⟩
  have hstart : joinAll home 1024 none ["A", "R", "B"] (.new coordinator) = .ok start := rfl
  have hrun : System.Reachable (System.Follows (start.broadcast type "model" values))
      (.idle start) state :=
    (System.reachable_iff_play? fun _ _ hjob => (fresh_of_mem_broadcast hjob).1).2
      ⟨moves, (Option.some_get _).symm⟩
  have hresult : (((state.jobsOf 0)[0]?).get (by decide +kernel)).result? =
      some (.ok (some [5, 6])) := by
    decide +kernel
  refine ⟨(start.clients[0]?).get (by decide +kernel), _, hcoordinator, htree, rfl, rfl, hvalues,
    by decide +kernel, by decide +kernel, hstart, hrun, (Option.some_get _).symm, by decide +kernel,
    by decide +kernel, (Option.some_get _).symm, hresult, ?_⟩
  exact broadcast_delivers hcoordinator htree rfl rfl hvalues (by decide +kernel)
    (by decide +kernel) hstart hrun (Option.some_get _).symm (by decide +kernel)
    (Option.some_get _).symm hresult

end Session.Chain

end Collective
