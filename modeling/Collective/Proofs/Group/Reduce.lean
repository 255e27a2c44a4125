import Collective.Proofs.Group.Fold
import Collective.Proofs.Group.Schedule
import Collective.Proofs.Group.Tree
import Collective.Proofs.Payload.RoundTrip
import Mathlib.Data.List.Sublists

/-!
# Reductions over whole runs

The root of a reduction reduces several times, and every other task sends a value for each of its
calls. Whatever order the steps of the tasks and the arrivals of their messages take, what a task
passes on and what the root comes to are settled by the values, call by call. Messages do not say
for which call they are, so after a call that has failed the next one is taken in its place.
-/

namespace Collective

/-- The calls of a reduction: the root reduces so many times, and every other task sends its
values. -/
def Session.reduction (start : Session) (type : NumericType) (operator : String)
    (values : String → List type.Carrier) (rounds client : Nat) :
    List (Job (Option type.Carrier)) :=
  match start.clients[client]? with
  | none => []
  | some c =>
    match c.bundle.reduceReceiver type operator, c.bundle.reduceSender type operator with
    | .ok (e, function), _ =>
      List.replicate rounds
        (.new client (.numeric type) e ((e.receiveReduce (function.apply type)).map some))
    | .error _, .ok (e, function) =>
      (values c.task).map fun value =>
        .new client (.numeric type) e
          ((e.sendReduce (function.apply type) value).map fun _ => none)
    | .error _, .error _ => []

/-- How the calls of a task end: the root folds what it gathers, and every other task passes up what
it folds with its own value. -/
def Topology.foldings (t : Topology) (type : NumericType) (operator : String)
    (codec : Codec type.Carrier) (fold : List type.Carrier → Except ReductionError type.Carrier)
    (values : String → List type.Carrier) (rounds : Nat) (task : String) :
    List (List (PayloadType.numeric type).Carrier → Outcome (Option type.Carrier)) :=
  match t.parentOf task with
  | none => List.replicate rounds (Endpoint.total fold)
  | some parent =>
    (values task).map ((t.endpoint (.numeric type) operator codec task).passUp fold parent)

theorem Topology.foldings_of_parent {t : Topology} {task parent : String}
    (hparent : t.parentOf task = some parent) (type : NumericType) (operator : String)
    (codec : Codec type.Carrier) (fold : List type.Carrier → Except ReductionError type.Carrier)
    (values : String → List type.Carrier) (rounds : Nat) :
    t.foldings type operator codec fold values rounds task =
      (values task).map ((t.endpoint (.numeric type) operator codec task).passUp fold parent) := by
  rw [foldings, hparent]

/-- What a reduction over a tree is about: the seats of the tasks, the function, the codec and the
values of the tasks. -/
structure Session.Reduces (start : Session) (operator : String) (t : Topology)
    (function : Reduction) (type : NumericType) (codec : Codec type.Carrier)
    (values : String → List type.Carrier) : Prop
    extends start.Seated operator t where
  purpose_eq : t.spec.purpose = .reduce function
  codec_eq : PayloadType.codec (.numeric type) t.spec.codec = .ok codec
  roundTrips : ∀ value,
    Made (function.apply type) (fun value => ∃ task, value ∈ values task) value →
      (t.passage (.numeric type) codec).RoundTrips value

/-- The paces of all tasks, whatever it is that the children of each send. -/
def Session.Paced (start : Session) (operator : String) (t : Topology) (function : Reduction)
    (type : NumericType) (codec : Codec type.Carrier) (values : String → List type.Carrier)
    (rounds : Nat) (history : Nat → List Act) (s : System (Option type.Carrier))
    (paces : String → Pace) : Prop :=
  ∀ i d, start.clients[i]? = some d → ∀ given,
    (t.endpoint (.numeric type) operator codec d.task).Feeds (t.childrenOf d.task) given
        (history i) →
      (t.endpoint (.numeric type) operator codec d.task).Gathers i
        (.gather (t.childrenOf d.task))
        (t.foldings type operator codec (function.apply type) values rounds d.task)
        (paces d.task) (history i) ((s.jobsOf i).map Job.released)

section Run

variable {group operator task parent child : String} {epoch : UInt64} {t : Topology}
  {function : Reduction} {type : NumericType} {codec : Codec type.Carrier}
  {values : String → List type.Carrier} {rounds : Nat} {start : Session} {hasty : Prop}
  {s : System (Option type.Carrier)} {history : Nat → List Act} {paces : String → Pace}
  {i k n : Nat} {d : Client}

open Act (sentTo takenFrom)

namespace Session.Reduces

variable (h : start.Reduces operator t function type codec values)

include h

theorem reduction_bundle (hd : start.clients[i]? = some d) :
    d.bundle.reduction operator = .ok function :=
  h.bundle_reduction hd h.purpose_eq

/-- The root of a reduction gathers what its children pass on. -/
theorem reduction_root (hd : start.clients[i]? = some d) (hroot : d.task = t.spec.root) :
    start.reduction type operator values rounds i =
      (t.endpoint (.numeric type) operator codec d.task).gatherings i
        (.gather (t.childrenOf d.task))
        (List.replicate rounds (Endpoint.total (function.apply type))) := by
  have hkind : t.spec.kind = .reduce := by rw [OperatorSpec.kind, h.purpose_eq]
  have hview := h.seat d (List.mem_of_getElem? hd)
  have hrole : (t.seat d.task).role = .receiver := by
    rw [Topology.seat, OperatorSpec.roleOf, hkind]
    simp [hroot]
  have hreceiver : d.bundle.reduceReceiver type operator =
      .ok (t.endpoint (.numeric type) operator codec d.task, function) := by
    rw [Bundle.reduceReceiver, h.reduction_bundle hd, Bundle.reduceReceiverWith, ← hkind,
      Bundle.endpoint_eq hview h.codec_eq, if_pos hrole]
    rfl
  rw [reduction, hd]
  dsimp only
  rw [hreceiver]
  dsimp only
  rw [Endpoint.gatherings, List.map_replicate]
  exact congrArg (fun call => List.replicate rounds (Job.new i (.numeric type) _ call))
    (Endpoint.map_receiveReduce (e := t.endpoint (.numeric type) operator codec d.task))

/-- Every other task gathers, too, and passes on what it folds. -/
theorem reduction_task (hd : start.clients[i]? = some d)
    (hparent : t.parentOf d.task = some parent) :
    start.reduction type operator values rounds i =
      (t.endpoint (.numeric type) operator codec d.task).gatherings i
        (.gather (t.childrenOf d.task)) ((values d.task).map
          ((t.endpoint (.numeric type) operator codec d.task).passUp (function.apply type)
            parent)) := by
  have hkind : t.spec.kind = .reduce := by rw [OperatorSpec.kind, h.purpose_eq]
  have hview := h.seat d (List.mem_of_getElem? hd)
  have hroot := h.heap.ne_root_of_parentOf h.root_mem hparent
  have hrole : (t.seat d.task).role = .sender := by
    rw [Topology.seat, OperatorSpec.roleOf, hkind]
    simp [hroot]
  have hreceiver : d.bundle.reduceReceiver type operator =
      .error (.notRoot d.bundle.task operator) := by
    rw [Bundle.reduceReceiver, h.reduction_bundle hd, Bundle.reduceReceiverWith, ← hkind,
      Bundle.endpoint_eq hview h.codec_eq, if_neg (by rw [hrole]; decide)]
    rfl
  have hsender : d.bundle.reduceSender type operator =
      .ok (t.endpoint (.numeric type) operator codec d.task, function) := by
    rw [Bundle.reduceSender, h.reduction_bundle hd, Bundle.reduceSenderWith, ← hkind,
      Bundle.endpoint_eq hview h.codec_eq, if_pos hrole]
    rfl
  rw [reduction, hd]
  dsimp only
  rw [hreceiver, hsender]
  dsimp only
  rw [Endpoint.gatherings, List.map_map]
  apply List.map_congr_left
  intro value _
  exact congrArg (Job.new i (.numeric type) _)
    (Endpoint.map_sendReduce (e := t.endpoint (.numeric type) operator codec d.task) hparent value)

theorem parentOf_root : t.parentOf t.spec.root = none :=
  (h.heap.parentOf_eq_none_iff h.root_mem h.root_mem).2 rfl

/-- Every task gathers what its children pass on, and folds it. -/
theorem reduction_eq (hd : start.clients[i]? = some d) :
    start.reduction type operator values rounds i =
      (t.endpoint (.numeric type) operator codec d.task).gatherings i
        (.gather (t.childrenOf d.task))
        (t.foldings type operator codec (function.apply type) values rounds d.task) := by
  cases hparent : t.parentOf d.task with
  | none =>
    have hroot := (h.heap.parentOf_eq_none_iff h.root_mem (h.mem_members hd)).1 hparent
    rw [h.reduction_root hd hroot, Topology.foldings, hparent]
  | some parent => rw [h.reduction_task hd hparent, Topology.foldings_of_parent hparent]

/-- A task sends nothing but to its parent, which has joined. -/
theorem known_of_mem_foldings (hmem : task ∈ t.members) :
    ∀ outcome ∈ t.foldings type operator codec (function.apply type) values rounds task,
      ∀ others, ∀ parcel ∈ (outcome others).parcels, parcel.destination ∈ start.tasks := by
  intro outcome houtcome others parcel hparcel
  rw [Topology.foldings] at houtcome
  split at houtcome
  · obtain rfl := List.eq_of_mem_replicate houtcome
    cases hparcel
  · next parent hparent =>
    obtain ⟨value, -, rfl⟩ := List.mem_map.1 houtcome
    rw [Endpoint.destination_of_mem_passUp hparcel]
    exact (h.mem_tasks_iff parent).2 (h.heap.mem_of_parentOf h.root_mem hmem hparent)

theorem roundTrips_partials : ∀ task ∈ t.members,
    ∀ value ∈ (s.partials t (function.apply type) values paces task).map Prod.snd,
      (t.passage (.numeric type) codec).RoundTrips value := by
  intro task hmem value hvalue
  exact h.roundTrips value (h.heap.made_partials h.root_mem task hmem value hvalue)

variable (htraced : s.Traced hasty (start.reduction type operator values rounds) start.tasks group
  epoch history)

include htraced

/-- Every task has its pace. -/
theorem exists_paces :
    ∃ paces, start.Paced operator t function type codec values rounds history s paces := by
  have hpace : ∀ i, ∃ pace : Pace, ∀ d, start.clients[i]? = some d → ∀ given,
      (t.endpoint (.numeric type) operator codec d.task).Feeds (t.childrenOf d.task) given
          (history i) →
        (t.endpoint (.numeric type) operator codec d.task).Gathers i
          (.gather (t.childrenOf d.task))
          (t.foldings type operator codec (function.apply type) values rounds d.task)
          pace (history i) ((s.jobsOf i).map Job.released) := by
    intro i
    by_cases hfed : ∃ d given, start.clients[i]? = some d ∧
        (t.endpoint (.numeric type) operator codec d.task).Feeds (t.childrenOf d.task) given
          (history i)
    · obtain ⟨d, given, hd, hfeeds⟩ := hfed
      have hcourse := htraced.course i
      rw [h.reduction_eq hd] at hcourse
      obtain ⟨pace, -, hgathers⟩ := Endpoint.gathers_of_course
        ((PayloadType.numeric type).lawful_converter t.spec.pipeline)
        (h.nodup_children ((h.mem_tasks_iff d.task).2 (h.mem_members hd)))
        (fun _ value => (Passage.length_wire ..).trans
          (PayloadType.length_split_numeric type t.spec.pipeline value))
        (h.known_of_mem_foldings (h.mem_members hd)) hcourse hfeeds
      refine ⟨pace, ?_⟩
      intro other hother _ _
      obtain rfl := Option.some.inj (hd.symm.trans hother)
      exact hgathers
    · exact ⟨.steady, fun d hd given hfeeds => absurd ⟨d, given, hd, hfeeds⟩ hfed⟩
  choose paces hpaces using hpace
  refine ⟨fun task => paces (start.tasks.idxOf task), ?_⟩
  intro i d hd given hfeeds
  dsimp only
  rw [htraced.idxOf_eq (start.task_of_client hd)]
  exact hpaces i d hd given hfeeds

/-- Where the children of a task send what they pass on, they feed the task. -/
theorem feeds_of_sent (hd : start.clients[i]? = some d)
    (hsent : ∀ child ∈ t.childrenOf d.task, ∀ k, start.tasks[k]? = some child →
      sentTo operator d.task (history k) <+: (t.passage (.numeric type) codec).stream
        ((s.partials t (function.apply type) values paces child).map Prod.snd)) :
    (t.endpoint (.numeric type) operator codec d.task).Feeds (t.childrenOf d.task)
      (fun child => (s.partials t (function.apply type) values paces child).map Prod.snd)
      (history i) := by
  have hmem := h.mem_members hd
  constructor
  · intro child hchild value hvalue
    exact h.roundTrips_partials child (h.heap.mem_of_mem_childrenOf h.root_mem hmem hchild)
      value hvalue
  · intro child hchild
    obtain ⟨k, hk⟩ :=
      List.getElem?_of_mem (h.known_children ((h.mem_tasks_iff d.task).2 hmem) child hchild)
    exact (htraced.taken_prefix_sent hk (start.task_of_client hd)).trans (hsent child hchild k hk)

variable (hpaces : start.Paced operator t function type codec values rounds history s paces)

include hpaces

/-- What a task sends its parent is a part of the stream of what it passes on. -/
theorem sent_prefix_partials : ∀ task ∈ t.members, ∀ i, start.tasks[i]? = some task →
    ∀ parent, t.parentOf task = some parent →
      sentTo operator parent (history i) <+: (t.passage (.numeric type) codec).stream
        ((s.partials t (function.apply type) values paces task).map Prod.snd) := by
  refine h.heap.induct_up h.root_mem ?_
  intro task hmem ih i hi parent hparent
  obtain ⟨d, hd, rfl⟩ := Option.map_eq_some_iff.1 ((start.getElem?_tasks i).symm.trans hi)
  have hfeeds := h.feeds_of_sent htraced hd fun child hchild k hk =>
    ih child hchild k hk d.task (h.heap.parentOf_of_mem_childrenOf h.root_mem hmem hchild)
  have hgathers := hpaces i d hd _ hfeeds
  have hsent := hgathers.sent_prefix_emitted hfeeds parent
  rw [List.length_map, ← htraced.callsOf_eq hi, Topology.foldings_of_parent hparent] at hsent
  have hpartials : s.partials t (function.apply type) values paces d.task = _ :=
    h.heap.partials_eq h.root_mem hmem
  rw [Endpoint.emitted_passUp] at hsent
  · rw [hpartials]
    exact hsent
  · intro value hvalue
    have hpartial : value ∈ (s.partials t (function.apply type) values paces d.task).map
        Prod.snd := by
      rw [hpartials]
      exact hvalue
    exact h.roundTrips_partials d.task hmem value hpartial

/-- The children of a task feed it with what they pass on. -/
theorem feeds (hd : start.clients[i]? = some d) :
    (t.endpoint (.numeric type) operator codec d.task).Feeds (t.childrenOf d.task)
      (fun child => (s.partials t (function.apply type) values paces child).map Prod.snd)
      (history i) := by
  have hmem := h.mem_members hd
  refine h.feeds_of_sent htraced hd ?_
  intro child hchild k hk
  exact h.sent_prefix_partials htraced hpaces child
    (h.heap.mem_of_mem_childrenOf h.root_mem hmem hchild) k hk d.task
    (h.heap.parentOf_of_mem_childrenOf h.root_mem hmem hchild)

/-- A call that has ended has given up, or it has come to what its task makes of what is offered. -/
theorem ends (hd : start.clients[i]? = some d) {job : Job (Option type.Carrier)}
    (hjob : (s.jobsOf i)[n]? = some job) (hended : job.result?.isSome = true) :
    Endpoint.Ends (.gather (t.childrenOf d.task))
      (t.foldings type operator codec (function.apply type) values rounds d.task)
      (fun child => (s.partials t (function.apply type) values paces child).map Prod.snd)
      (paces d.task) n job := by
  have hfeeds := h.feeds htraced hpaces hd
  exact (hpaces i d hd _ hfeeds).ends_released hfeeds hjob hended

/-- The paces of the tasks quit where calls have given up, and nowhere else. -/
theorem runs_of_patient (hmem : task ∈ t.members) (hpatient : s.patient task n) :
    ∀ m < n, (paces task).quits m = false := by
  intro m hm
  obtain ⟨d, hdmem, rfl⟩ := List.mem_map.1 ((h.mem_tasks_iff task).2 hmem)
  obtain ⟨i, hd⟩ := List.getElem?_of_mem hdmem
  have hfeeds := h.feeds htraced hpaces hd
  refine (hpaces i d hd _ hfeeds).runs hfeeds ?_
  intro released hreleased
  rw [List.getElem?_map, Option.map_eq_some_iff] at hreleased
  obtain ⟨job, hjob, rfl⟩ := hreleased
  rw [Job.timedOut, job.released_result?]
  exact hpatient m hm job (by rwa [htraced.callsOf_eq (start.task_of_client hd)])

/-- A call in which a task passes something on does not fail. -/
theorem not_failed_of_passes (hd : start.clients[i]? = some d)
    (hparent : t.parentOf d.task = some parent) {job : Job (Option type.Carrier)}
    {value : type.Carrier} (hjob : (s.jobsOf i)[n]? = some job)
    (hpasses : passes (function.apply type) (values d.task)
      (t.offered (function.apply type) values paces (fun task => (s.callsOf task).length) d.task)
      n = some value) :
    job.failed = false := by
  have hmem := h.mem_members hd
  have hlt : n < (s.callsOf d.task).length := by
    rw [htraced.callsOf_eq (start.task_of_client hd)]
    exact (List.getElem?_eq_some_iff.1 hjob).1
  have hvalue : value ∈ (s.partials t (function.apply type) values paces d.task).map Prod.snd := by
    rw [System.partials, h.heap.partials_eq h.root_mem hmem]
    exact List.mem_map_of_mem (mem_passedOn_iff.2 ⟨hlt, hpasses⟩)
  have houtcome := (t.endpoint (.numeric type) operator codec d.task).outcome?_of_passes parent
    hpasses (h.roundTrips_partials d.task hmem value hvalue)
  rw [Job.failed]
  cases hresult : job.result? with
  | none => rfl
  | some result =>
    have hends := h.ends htraced hpaces hd hjob (Option.isSome_of_eq_some hresult)
    rw [Topology.foldings_of_parent hparent] at hends
    rcases hends with ⟨-, hnone, -⟩ | ⟨-, o, ho, hdone⟩
    · cases hnone.symm.trans houtcome
    · obtain rfl := Option.some.inj (houtcome.symm.trans ho)
      obtain rfl := Option.some.inj (hresult.symm.trans hdone)
      rfl

/-- A call that has ended without passing anything on has failed. -/
theorem failed_of_passes_eq_none (hd : start.clients[i]? = some d)
    (hparent : t.parentOf d.task = some parent) {job : Job (Option type.Carrier)}
    (hjob : (s.jobsOf i)[n]? = some job) (hended : job.result?.isSome = true)
    (hpasses : passes (function.apply type) (values d.task)
      (t.offered (function.apply type) values paces (fun task => (s.callsOf task).length) d.task)
      n = none) :
    job.failed = true := by
  have hends := h.ends htraced hpaces hd hjob hended
  rw [Topology.foldings_of_parent hparent] at hends
  rcases hends with ⟨-, -, hlate⟩ | ⟨-, o, ho, hresult⟩
  · exact Job.failed_of_timedOut hlate
  · have hcases :=
      (t.endpoint (.numeric type) operator codec d.task).outcome?_of_passes_eq_none parent hpasses
    rcases hcases with hnothing | ⟨error, herror⟩
    · cases hnothing.symm.trans ho
    · obtain rfl := Option.some.inj (herror.symm.trans ho)
      rw [Job.failed, hresult]

/-- A task passes something on in its calls that have not failed, the last one apart if that still
goes on. -/
theorem partials_prefix_passing (hmem : task ∈ t.members)
    (hparent : t.parentOf task = some parent) :
    (s.partials t (function.apply type) values paces task).map Prod.fst <+: s.passing task := by
  obtain ⟨d, hdmem, rfl⟩ := List.mem_map.1 ((h.mem_tasks_iff task).2 hmem)
  obtain ⟨i, hd⟩ := List.getElem?_of_mem hdmem
  have hi := start.task_of_client hd
  rw [System.partials, h.heap.partials_eq h.root_mem hmem, passedOn, List.map_filterMap,
    System.passing, htraced.callsOf_eq hi]
  apply filterMap_range_prefix
  · intro m hm k hk
    rw [Option.map_map, Option.map_eq_some_iff] at hk
    obtain ⟨value, hpasses, rfl⟩ := hk
    have hjob := List.getElem?_eq_getElem hm
    refine ⟨rfl, ?_⟩
    rw [hjob, Option.any_some, h.not_failed_of_passes htraced hpaces hd hparent hjob hpasses]
    rfl
  · intro m hm hnone
    rw [Option.map_map, Option.map_eq_none_iff] at hnone
    have hjob := List.getElem?_eq_getElem (Nat.lt_of_succ_lt hm)
    have hended := htraced.ended_of_later hjob hm
    rw [hjob, Option.any_some,
      h.failed_of_passes_eq_none htraced hpaces hd hparent hjob hended hnone]
    rfl

/-- A call of the root gives up, or it ends with the fold of what its children offer for it. -/
theorem result_root (hd : start.clients[i]? = some d) (hroot : d.task = t.spec.root)
    {job : Job (Option type.Carrier)} {result : Except GroupError (Option type.Carrier)}
    (hjob : (s.jobsOf i)[n]? = some job) (hresult : job.result? = some result) :
    job.timedOut = true ∨ ∃ others,
      t.offered (function.apply type) values paces (fun task => (s.callsOf task).length)
          t.spec.root n = some others ∧
        result = ((function.apply type others).mapError .reduction).map some := by
  have hends := h.ends htraced hpaces hd hjob (Option.isSome_of_eq_some hresult)
  rcases hends with ⟨-, -, hlate⟩ | ⟨-, o, houtcome, hdone⟩
  · exact .inl hlate
  · obtain ⟨outcome, hround, houtcome⟩ := Option.bind_eq_some_iff.1 houtcome
    obtain ⟨others, hothers, rfl⟩ := Option.map_eq_some_iff.1 houtcome
    rw [Topology.foldings, hroot, h.parentOf_root] at hround
    obtain rfl := List.eq_of_mem_replicate (List.mem_of_getElem? hround)
    refine .inr ⟨others, ?_, Option.some.inj (hresult.symm.trans hdone)⟩
    rw [← hroot]
    exact hothers

/-- A result at the root has come about by one call of every other task that has not failed. -/
theorem contribution (hd : start.clients[i]? = some d) (hroot : d.task = t.spec.root)
    {job : Job (Option type.Carrier)} {value : type.Carrier} (hjob : (s.jobsOf i)[n]? = some job)
    (hresult : job.result? = some (.ok (some value))) :
    ∃ turn result, turn t.spec.root = n ∧ result t.spec.root = value ∧
      t.Contribution (function.apply type) values s.passing s.patient turn result := by
  have hawake : ¬ job.timedOut = true := by
    rw [Job.timedOut, hresult]
    exact Bool.false_ne_true
  obtain ⟨others, hothers, htotal⟩ :=
    (h.result_root htraced hpaces hd hroot hjob hresult).resolve_left hawake
  have htotal : function.apply type others = .ok value := by
    cases hfold : function.apply type others with
    | error error =>
      rw [hfold] at htotal
      cases htotal
    | ok total =>
      rw [hfold] at htotal
      exact congrArg _ (Option.some.inj (Except.ok.inj htotal)).symm
  have hpart := h.heap.contribution_part h.root_mem hothers htotal
  have hstart := h.heap.foldDown_root h.root_mem (n, value) fun task above child =>
    ((paces task).offer (s.partials t (function.apply type) values paces) above.1 child).getD
      (0, value)
  refine ⟨_, _, congrArg Prod.fst hstart, congrArg Prod.snd hstart, hpart.mono ?_ ?_⟩
  · intro task hmem child hchild
    exact h.partials_prefix_passing htraced hpaces
      (h.heap.mem_of_mem_childrenOf h.root_mem hmem hchild)
      (h.heap.parentOf_of_mem_childrenOf h.root_mem hmem hchild)
  · intro task hmem m hpatient
    exact h.runs_of_patient htraced hpaces hmem hpatient

end Session.Reduces

namespace Session

theorem fresh_of_mem_reduction {job : Job (Option type.Carrier)}
    (hjob : job ∈ start.reduction type operator values rounds i) :
    job.client = i ∧ job.held = [] := by
  rw [reduction] at hjob
  split at hjob
  · cases hjob
  · split at hjob
    · obtain rfl := List.eq_of_mem_replicate hjob
      exact ⟨rfl, rfl⟩
    · obtain ⟨_, -, rfl⟩ := List.mem_map.1 hjob
      exact ⟨rfl, rfl⟩
    · cases hjob

/-- Once all members of a coordinator have joined, a run of a reduction has histories. -/
theorem reduces_of_joinAll {c : Coordinator} {fanOut maxFrame : Nat} {limit : Option Nat}
    {homes : String → Address} {order : List String}
    (hc : Coordinator.Reachable group fanOut c) (ht : c.topology? operator = some t)
    (hpurpose : t.spec.purpose = .reduce function)
    (hcodec : PayloadType.codec (.numeric type) t.spec.codec = .ok codec)
    (hround : ∀ value,
      Made (function.apply type) (fun value => ∃ task, value ∈ values task) value →
        (t.passage (.numeric type) codec).RoundTrips value)
    (horder : order.Perm c.members) (hhomes : (order.map homes).Nodup)
    (hstart : joinAll homes maxFrame limit order (.new c) = .ok start)
    (hrun : System.Reachable (System.Keeps hasty (start.reduction type operator values rounds))
      (.idle start) s)
    (hd : start.clients[i]? = some d) :
    start.Reduces operator t function type codec values ∧ ∃ history,
      s.Traced hasty (start.reduction type operator values rounds) start.tasks c.group c.epoch
        history := by
  obtain ⟨hseated, hhistory⟩ := traced_of_joinAll hc ht horder hhomes hstart
    (List.ne_nil_of_mem (List.mem_of_getElem? hd))
    (fun _ _ hjob => (fresh_of_mem_reduction hjob).2) hrun
  exact ⟨⟨hseated, hpurpose, hcodec, hround⟩, hhistory⟩

/-- Whatever order the steps of a reduction take and whichever of its calls fail, a result at the
root is put together from one value of every other task, each by a call that has not failed. Until a
task gives up waiting, its calls take from each child what that has passed on in its call with the
same place among those that have not failed. So if up to the call that counts none has failed below
the root and none has given up there, these values all belong to that call. -/
theorem reduction_contributes {c : Coordinator} {fanOut maxFrame : Nat} {limit : Option Nat}
    {homes : String → Address} {order : List String} {job : Job (Option type.Carrier)}
    {value : type.Carrier}
    (hc : Coordinator.Reachable group fanOut c) (ht : c.topology? operator = some t)
    (hpurpose : t.spec.purpose = .reduce function)
    (hcodec : PayloadType.codec (.numeric type) t.spec.codec = .ok codec)
    (hround : (∀ integer : IntegerType, type ≠ integer.numeric) → ∀ value,
      Made (function.apply type) (fun value => ∃ task, value ∈ values task) value →
        (t.passage (.numeric type) codec).RoundTrips value)
    (horder : order.Perm c.members) (hhomes : (order.map homes).Nodup)
    (hstart : joinAll homes maxFrame limit order (.new c) = .ok start)
    (hrun : System.Reachable (System.Keeps True (start.reduction type operator values rounds))
      (.idle start) s)
    (hd : start.clients[i]? = some d) (hroot : d.task = t.spec.root)
    (hjob : (s.jobsOf i)[n]? = some job) (hresult : job.result? = some (.ok (some value))) :
    ∃ (turn : String → Nat) (result : String → type.Carrier),
      turn t.spec.root = n ∧ result t.spec.root = value ∧
        t.Contribution (function.apply type) values s.passing s.patient turn result ∧
        (s.patient t.spec.root n → (∀ task ∈ t.members, task ≠ t.spec.root → ∀ m ≤ n, ∀ job,
            (s.callsOf task)[m]? = some job → job.failed = false) →
          ∀ task ∈ t.members, turn task = n) := by
  have hmade : ∀ value,
      Made (function.apply type) (fun value => ∃ task, value ∈ values task) value →
        (t.passage (.numeric type) codec).RoundTrips value := by
    by_cases hinteger : ∃ integer : IntegerType, type = integer.numeric
    · obtain ⟨integer, rfl⟩ := hinteger
      intro value _
      exact IntegerType.roundTrips hcodec _ value
    · exact hround fun integer htype => hinteger ⟨integer, htype⟩
  obtain ⟨h, history, htraced⟩ :=
    reduces_of_joinAll hc ht hpurpose hcodec hmade horder hhomes hstart hrun hd
  obtain ⟨paces, hpaces⟩ := h.exists_paces htraced
  obtain ⟨turn, result, rfl, hvalue, hcontribution⟩ :=
    h.contribution htraced hpaces hd hroot hjob hresult
  refine ⟨turn, result, rfl, hvalue, hcontribution, ?_⟩
  intro hpatient hpassed
  refine hcontribution.turn_eq h.heap h.root_mem ?_ ?_
  · intro task hmem
    by_cases hne : task = t.spec.root
    · rwa [hne]
    · exact System.patient_of_passed (hpassed task hmem hne)
  · intro task hmem hne m hm
    exact System.eq_of_passing (hpassed task hmem hne) hm

end Session

end Run

namespace Session

/-! A root with two tasks below it, one of which has a third one below. In the first call of that
one's parent the sum overflows, so its second call takes the place of the first at the root. -/

namespace Fork

def coordinator : Coordinator :=
  .after ⟨"g", 2, 0, [], .empty⟩ [
    .operator "s" ⟨.reduce .sum, "R", .json, .whole⟩,
    .member (.add "R"), .member (.add "A"), .member (.add "B"), .member (.add "C")]

def tree : Topology := (coordinator.topology? "s").get (by decide +kernel)

def codec : Codec Int32 := .json NumericType.i32.toJson NumericType.i32.ofJson?

def home : String → Address := localHome ["R", "A", "B", "C"]

def start : Session :=
  (joinAll home 1024 none ["R", "A", "B", "C"] (.new coordinator)).toOption.get (by decide +kernel)

theorem start_eq :
    joinAll home 1024 none ["R", "A", "B", "C"] (.new coordinator) = .ok start := rfl

theorem exists_root : ∃ d, start.clients[0]? = some d ∧ d.task = tree.spec.root :=
  ⟨(start.clients[0]?).get (by decide +kernel), (Option.some_get _).symm, by decide +kernel⟩

/-- The values of a group in which one sum overflows. -/
def values (task : String) : List Int32 :=
  if task = "A" then [2147483647, 1]
  else if task = "B" then [10, 20]
  else if task = "C" then [1, 1]
  else []

theorem length_values_le (task : String) : (values task).length ≤ 2 := by
  rw [values]
  split
  · decide
  · split
    · decide
    · split <;> decide

def moves : List System.Move :=
  [.begin 3, .send 0, .begin 1, .hold 1 "C", .deliver 0, .take 1 "C", .begin 2, .send 2, .begin 3,
    .send 3, .begin 1, .hold 4 "C", .deliver 1, .take 4 "C", .send 4, .begin 0, .hold 5 "A",
    .hold 5 "B", .deliver 1, .deliver 0, .take 5 "A", .take 5 "B"]

def state : System (Option Int32) :=
  (System.play? (start.reduction .i32 "s" values 2) moves (.idle start)).get (by decide +kernel)

theorem reachable_state :
    System.Reachable (System.Follows (start.reduction .i32 "s" values 2)) (.idle start) state :=
  (System.reachable_iff_play? fun _ _ hjob => (fresh_of_mem_reduction hjob).1).2
    ⟨moves, (Option.some_get _).symm⟩

theorem result_state : ∃ job, (state.jobsOf 0)[0]? = some job ∧
    job.result? = some (.ok (some (12 : Int32))) :=
  ⟨((state.jobsOf 0)[0]?).get (by decide +kernel), (Option.some_get _).symm, by decide +kernel⟩

/-- What the root comes to is not the sum of the values of any tasks for any one call. -/
theorem reduction_mixes_calls :
    ∃ d job, Coordinator.Reachable "g" 2 coordinator ∧
      coordinator.topology? "s" = some tree ∧ tree.spec.purpose = .reduce .sum ∧
      PayloadType.codec (.numeric .i32) tree.spec.codec = .ok codec ∧
      ["R", "A", "B", "C"].Perm coordinator.members ∧ (["R", "A", "B", "C"].map home).Nodup ∧
      joinAll home 1024 none ["R", "A", "B", "C"] (.new coordinator) = .ok start ∧
      System.Reachable (System.Follows (start.reduction .i32 "s" values 2)) (.idle start) state ∧
      (state.callsOf "A").map Job.result? =
        [some (.error (.reduction .overflow)), some (.ok none)] ∧
      start.clients[0]? = some d ∧ d.task = tree.spec.root ∧
      (state.jobsOf 0)[0]? = some job ∧ job.result? = some (.ok (some (12 : Int32))) ∧
      ∀ (n : Nat) (tasks : List String), tasks.Sublist tree.members →
        ¬ Reduction.sum.Yields ((tasks.filterMap fun task => (values task)[n]?).map Int32.toInt)
          (12 : Int32).toInt := by
  obtain ⟨d, hd, hroot⟩ := exists_root
  obtain ⟨job, hjob, hresult⟩ := result_state
  refine ⟨d, job, ⟨_, _, rfl, rfl⟩, (Option.some_get _).symm, rfl, rfl, by decide +kernel,
    by decide +kernel, start_eq, reachable_state, by decide +kernel, hd, hroot, hjob, hresult, ?_⟩
  intro n tasks htasks hsum
  have hfirst : ∀ tasks ∈ tree.members.sublists,
      ((tasks.filterMap fun task => (values task)[0]?).map Int32.toInt).sum ≠ 12 := by
    decide +kernel
  have hsecond : ∀ tasks ∈ tree.members.sublists,
      ((tasks.filterMap fun task => (values task)[1]?).map Int32.toInt).sum ≠ 12 := by
    decide +kernel
  have hsum : ((tasks.filterMap fun task => (values task)[n]?).map Int32.toInt).sum = 12 :=
    hsum.symm
  match n with
  | 0 => exact hfirst tasks (List.mem_sublists.2 htasks) hsum
  | 1 => exact hsecond tasks (List.mem_sublists.2 htasks) hsum
  | n + 2 =>
    rw [List.filterMap_eq_nil_iff.2 fun task _ =>
      List.getElem?_eq_none (Nat.le_trans (length_values_le task) (Nat.le_add_left 2 n))] at hsum
    cases hsum

/-- The second call of the one that has failed has had a part in the first result at the root. -/
theorem reduction_contributes_fork :
    ∃ d job, Coordinator.Reachable "g" 2 coordinator ∧
      coordinator.topology? "s" = some tree ∧ tree.spec.purpose = .reduce .sum ∧
      PayloadType.codec (.numeric .i32) tree.spec.codec = .ok codec ∧
      ((∀ integer : IntegerType, NumericType.i32 ≠ integer.numeric) → ∀ value,
        Made (Reduction.sum.apply .i32) (fun value => ∃ task, value ∈ values task) value →
          (tree.passage (.numeric .i32) codec).RoundTrips value) ∧
      ["R", "A", "B", "C"].Perm coordinator.members ∧ (["R", "A", "B", "C"].map home).Nodup ∧
      joinAll home 1024 none ["R", "A", "B", "C"] (.new coordinator) = .ok start ∧
      System.Reachable (System.Keeps True (start.reduction .i32 "s" values 2)) (.idle start) state ∧
      start.clients[0]? = some d ∧ d.task = tree.spec.root ∧
      (state.jobsOf 0)[0]? = some job ∧ job.result? = some (.ok (some (12 : Int32))) ∧
      state.passing "A" = [1] ∧
      ∃ (turn : String → Nat) (result : String → Int32),
        turn tree.spec.root = 0 ∧ result tree.spec.root = 12 ∧
          tree.Contribution (Reduction.sum.apply .i32) values state.passing state.patient turn
            result ∧
          (state.patient tree.spec.root 0 → (∀ task ∈ tree.members, task ≠ tree.spec.root →
              ∀ m ≤ 0, ∀ job,
              (state.callsOf task)[m]? = some job → job.failed = false) →
            ∀ task ∈ tree.members, turn task = 0) := by
  have hcoordinator : Coordinator.Reachable "g" 2 coordinator := ⟨_, _, rfl, rfl⟩
  have htree : coordinator.topology? "s" = some tree := (Option.some_get _).symm
  have hround : (∀ integer : IntegerType, NumericType.i32 ≠ integer.numeric) → ∀ value,
      Made (Reduction.sum.apply .i32) (fun value => ∃ task, value ∈ values task) value →
        (tree.passage (.numeric .i32) codec).RoundTrips value :=
    fun hinteger => absurd rfl (hinteger .i32)
  obtain ⟨d, hd, hroot⟩ := exists_root
  obtain ⟨job, hjob, hresult⟩ := result_state
  have hrun := System.keeps_of_follows True reachable_state
  refine ⟨d, job, hcoordinator, htree, rfl, rfl, hround, by decide +kernel, by decide +kernel,
    start_eq, hrun, hd, hroot, hjob, hresult, by decide +kernel, ?_⟩
  exact reduction_contributes hcoordinator htree rfl rfl hround (by decide +kernel)
    (by decide +kernel) start_eq hrun hd hroot hjob hresult

end Fork

/-- Whatever order the steps of a reduction of integers take, if no call has failed then every
result at the root is the exact sum, maximum or minimum of the values of all other tasks for this
call. -/
theorem reduction_exact {group operator : String} {t : Topology} {function : Reduction}
    {type : IntegerType} {codec : Codec type.numeric.Carrier}
    {values : String → List type.numeric.Carrier} {rounds : Nat} {start : Session}
    {s : System (Option type.numeric.Carrier)} {i n : Nat} {d : Client}
    {c : Coordinator} {fanOut maxFrame : Nat} {limit : Option Nat}
    {homes : String → Address} {order : List String} {job : Job (Option type.numeric.Carrier)}
    {result : Except GroupError (Option type.numeric.Carrier)}
    (hc : Coordinator.Reachable group fanOut c) (ht : c.topology? operator = some t)
    (hpurpose : t.spec.purpose = .reduce function)
    (hcodec : PayloadType.codec (.numeric type.numeric) t.spec.codec = .ok codec)
    (horder : order.Perm c.members) (hhomes : (order.map homes).Nodup)
    (hstart : joinAll homes maxFrame limit order (.new c) = .ok start)
    (hrun : System.Reachable (System.Follows (start.reduction type.numeric operator values rounds))
      (.idle start) s)
    (hpassed : ∀ job ∈ s.jobs, job.failed = false)
    (hd : start.clients[i]? = some d) (hroot : d.task = t.spec.root)
    (hjob : (s.jobsOf i)[n]? = some job) (hresult : job.result? = some result) :
    ∃ (value : type.numeric.Carrier) (inputs : String → type.numeric.Carrier),
      result = .ok (some value) ∧
        (∀ task ∈ t.members, task ≠ t.spec.root → (values task)[n]? = some (inputs task)) ∧
        function.Yields ((t.members.filter (· ≠ t.spec.root)).map fun task =>
          type.toInt (inputs task)) (type.toInt value) := by
  obtain ⟨h, history, htraced⟩ :=
    reduces_of_joinAll hc ht hpurpose hcodec (fun value _ => IntegerType.roundTrips hcodec _ value)
      horder hhomes hstart (System.keeps_of_follows False hrun) hd
  obtain ⟨paces, hpaces⟩ := h.exists_paces htraced
  have hcalls : ∀ client, ∀ job ∈ s.jobsOf client, job.failed = false := by
    intro client job hjob
    exact hpassed job (List.mem_filter.1 hjob).1
  have hlate : ¬ job.timedOut = true := by
    intro hlate
    cases (hcalls i job (List.mem_of_getElem? hjob)).symm.trans (Job.failed_of_timedOut hlate)
  obtain ⟨others, -, rfl⟩ :=
    (h.result_root htraced hpaces hd hroot hjob hresult).resolve_left hlate
  cases hfold : function.apply type.numeric others with
  | error error =>
    have hfailed := hcalls i job (List.mem_of_getElem? hjob)
    rw [hfold] at hresult
    rw [Job.failed, hresult] at hfailed
    cases hfailed
  | ok value =>
    rw [hfold] at hresult
    obtain ⟨turn, result, rfl, rfl, hcontribution⟩ :=
      h.contribution htraced hpaces hd hroot hjob hresult
    have hall : ∀ task, ∀ m ≤ turn t.spec.root, ∀ job, (s.callsOf task)[m]? = some job →
        job.failed = false :=
      fun _ _ _ job hjob => hcalls _ job (List.mem_of_getElem? hjob)
    have hturn : ∀ task ∈ t.members, turn task = turn t.spec.root :=
      hcontribution.turn_eq h.heap h.root_mem
        (fun task _ => System.patient_of_passed (hall task))
        (fun task _ _ _ hm => System.eq_of_passing (hall task) hm)
    obtain ⟨inputs, hinputs, hyields⟩ := hcontribution.yields h.heap h.root_mem
    refine ⟨_, inputs, rfl, ?_, hyields⟩
    intro task hmem hne
    rw [← hturn task hmem]
    exact hinputs task hmem hne

namespace Fork

/-- The values of a group in which no sum overflows. -/
def parts (task : String) : List Int32 :=
  if task = "A" then [2147483647] else if task = "B" then [-20] else if task = "C" then [-7, 1]
  else []

/-- The task below the others is a call ahead when the root comes to its result. -/
def turns : List System.Move :=
  [.begin 3, .send 0, .begin 3, .send 1, .begin 1, .deliver 0, .deliver 0, .hold 2 "C", .take 2 "C",
    .send 2, .begin 0, .hold 3 "B", .begin 2, .send 4, .deliver 1, .take 3 "B", .hold 3 "A",
    .deliver 0, .take 3 "A"]

def finish : System (Option Int32) :=
  (System.play? (start.reduction .i32 "s" parts 1) turns (.idle start)).get (by decide +kernel)

/-- The root has come to the sum of the first values. -/
theorem reduction_exact_fork :
    ∃ d job, Coordinator.Reachable "g" 2 coordinator ∧
      coordinator.topology? "s" = some tree ∧ tree.spec.purpose = .reduce .sum ∧
      PayloadType.codec (.numeric .i32) tree.spec.codec = .ok codec ∧
      ["R", "A", "B", "C"].Perm coordinator.members ∧ (["R", "A", "B", "C"].map home).Nodup ∧
      joinAll home 1024 none ["R", "A", "B", "C"] (.new coordinator) = .ok start ∧
      System.Reachable (System.Follows (start.reduction .i32 "s" parts 1)) (.idle start) finish ∧
      (∀ job ∈ finish.jobs, job.failed = false) ∧
      start.clients[0]? = some d ∧ d.task = tree.spec.root ∧
      (finish.jobsOf 0)[0]? = some job ∧ job.result? = some (.ok (some (2147483620 : Int32))) ∧
      ∃ (value : Int32) (inputs : String → Int32),
        (.ok (some 2147483620) : Except GroupError (Option Int32)) = .ok (some value) ∧
          (∀ task ∈ tree.members, task ≠ tree.spec.root →
            (parts task)[0]? = some (inputs task)) ∧
          Reduction.sum.Yields ((tree.members.filter (· ≠ tree.spec.root)).map fun task =>
            (inputs task).toInt) value.toInt := by
  have hcoordinator : Coordinator.Reachable "g" 2 coordinator := ⟨_, _, rfl, rfl⟩
  have htree : coordinator.topology? "s" = some tree := (Option.some_get _).symm
  have hrun : System.Reachable (System.Follows (start.reduction .i32 "s" parts 1)) (.idle start)
      finish :=
    (System.reachable_iff_play? fun _ _ hjob => (fresh_of_mem_reduction hjob).1).2
      ⟨turns, (Option.some_get _).symm⟩
  have hpassed : ∀ job ∈ finish.jobs, job.failed = false := by decide +kernel
  have hresult : (((finish.jobsOf 0)[0]?).get (by decide +kernel)).result? =
      some (.ok (some (2147483620 : Int32))) := by
    decide +kernel
  obtain ⟨d, hd, hroot⟩ := exists_root
  refine ⟨d, _, hcoordinator, htree, rfl, rfl, by decide +kernel, by decide +kernel, start_eq, hrun,
    hpassed, hd, hroot, (Option.some_get _).symm, hresult, ?_⟩
  have hcodec : PayloadType.codec (.numeric IntegerType.i32.numeric) tree.spec.codec =
      .ok codec := rfl
  exact reduction_exact hcoordinator htree rfl hcodec (by decide +kernel) (by decide +kernel)
    start_eq hrun hpassed hd hroot (Option.some_get _).symm hresult

end Fork

end Session

end Collective
