import Collective.Proofs.Group.Progress
import Collective.Proofs.Group.Scatter

/-!
# Sequences of rounds

All tasks of a group go through the same rounds of its operators, each with the end of its role. In
each round chunks go down the tree of the operator, or up. So the rounds are a plan, and whatever
order the steps of the tasks and the arrivals of their messages take, no call fails and the group
does not come to a stop before every task is through.
-/

namespace Collective

/-! ## Chunks that go along a tree -/

namespace Topology

/-- One task is a child of another. -/
def Edge (t : Topology) (parent child : String) : Prop :=
  parent ∈ t.members ∧ child ∈ t.childrenOf parent

instance (t : Topology) (parent child : String) : Decidable (t.Edge parent child) :=
  inferInstanceAs (Decidable (_ ∧ _))

end Topology

namespace Session.Seated

variable {t : Topology} {start : Session} {operator task parent child : String}
  (h : start.Seated operator t)

include h

theorem edge_iff (hmem : child ∈ t.members) :
    t.Edge parent child ↔ t.parentOf child = some parent := by
  constructor
  · rintro ⟨hparent, hchild⟩
    exact h.heap.parentOf_of_mem_childrenOf h.root_mem hparent hchild
  · intro hparent
    have hmember := h.heap.mem_of_parentOf h.root_mem hmem hparent
    exact ⟨hmember, (h.heap.mem_childrenOf_iff h.root_mem hmember hmem).2 hparent⟩

theorem not_edge_root : ¬ t.Edge parent t.spec.root := by
  rintro ⟨hparent, hchild⟩
  exact h.heap.ne_root_of_mem_childrenOf h.root_mem hparent hchild rfl

theorem known_of_edge (hedge : t.Edge parent child) :
    parent ∈ start.tasks ∧ child ∈ start.tasks := by
  obtain ⟨hparent, hchild⟩ := hedge
  rw [h.mem_tasks_iff, h.mem_tasks_iff]
  exact ⟨hparent, h.heap.mem_of_mem_childrenOf h.root_mem hparent hchild⟩

/-- Where nobody is alone, the root has a child and every other task has a parent. -/
theorem exists_edge (hother : ∃ task ∈ t.members, task ≠ t.spec.root)
    (hmem : task ∈ start.tasks) :
    (∃ child, t.Edge task child) ∨ ∃ parent, t.Edge parent task := by
  by_cases hroot : task = t.spec.root
  · subst hroot
    obtain ⟨child, hchild⟩ :=
      List.exists_mem_of_ne_nil _ (h.heap.childrenOf_root_ne_nil h.root_mem hother)
    exact .inl ⟨child, h.root_mem, hchild⟩
  · obtain ⟨parent, hparent, -⟩ := h.exists_parent hmem hroot
    exact .inr ⟨parent, (h.edge_iff ((h.mem_tasks_iff task).1 hmem)).2 hparent⟩

end Session.Seated

namespace Exchange

/-- Every task of a tree is sent certain chunks by its parent. -/
def down (t : Topology) (operator : String) (chunks : String → List (Chunk Bytes)) : Exchange :=
  ⟨operator, fun source destination =>
    if t.Edge source destination then chunks destination else []⟩

/-- Every task of a tree sends certain chunks to its parent. -/
def up (t : Topology) (operator : String) (chunks : String → List (Chunk Bytes)) : Exchange :=
  ⟨operator, fun source destination => if t.Edge destination source then chunks source else []⟩

section Tree

variable {t : Topology} {start : Session} {operator task parent source destination : String}
  {chunks : String → List (Chunk Bytes)}

theorem down_traffic : (down t operator chunks).traffic source destination =
    if t.Edge source destination then chunks destination else [] := rfl

theorem up_traffic : (up t operator chunks).traffic source destination =
    if t.Edge destination source then chunks source else [] := rfl

theorem edge_of_down (hne : (down t operator chunks).traffic source destination ≠ []) :
    t.Edge source destination := by
  by_contra hedge
  exact hne (if_neg hedge)

theorem edge_of_up (hne : (up t operator chunks).traffic source destination ≠ []) :
    t.Edge destination source := by
  by_contra hedge
  exact hne (if_neg hedge)

theorem down_from (hmem : task ∈ t.members) :
    (down t operator chunks).traffic task destination =
      if destination ∈ t.childrenOf task then chunks destination else [] :=
  if_congr (and_iff_right hmem) rfl rfl

theorem up_into (hmem : task ∈ t.members) :
    (fun source => (up t operator chunks).traffic source task) = fun source =>
      if source ∈ t.childrenOf task then chunks source else [] :=
  funext fun _ => if_congr (and_iff_right hmem) rfl rfl

variable (h : start.Seated operator t)

include h

theorem orderly_down (hother : ∃ task ∈ t.members, task ≠ t.spec.root)
    (hchunks : ∀ task, chunks task ≠ []) : (down t operator chunks).Orderly start.tasks where
  known source destination hne := h.known_of_edge (edge_of_down hne)
  active task hmem := by
    rcases h.exists_edge hother hmem with ⟨child, hedge⟩ | ⟨parent, hedge⟩
    · exact ⟨child, .inl (by rw [down_traffic, if_pos hedge]; exact hchunks child)⟩
    · exact ⟨parent, .inr (by rw [down_traffic, if_pos hedge]; exact hchunks task)⟩
  induct P hstep := by
    intro task hmem
    refine h.heap.induct_down h.root_mem ?_ ?_ task ((h.mem_tasks_iff task).1 hmem)
    · refine hstep t.spec.root ((h.mem_tasks_iff _).2 h.root_mem) ?_
      intro source _ hne
      exact absurd (edge_of_down hne) h.not_edge_root
    · intro parent hparent hholds child hchild
      have hmember := h.heap.mem_of_mem_childrenOf h.root_mem hparent hchild
      refine hstep child ((h.mem_tasks_iff child).2 hmember) ?_
      intro source _ hne
      have hsource := (h.edge_iff hmember).1 (edge_of_down hne)
      rw [(h.edge_iff hmember).1 ⟨hparent, hchild⟩] at hsource
      obtain rfl := Option.some.inj hsource
      exact hholds

theorem orderly_up (hother : ∃ task ∈ t.members, task ≠ t.spec.root)
    (hchunks : ∀ task, chunks task ≠ []) : (up t operator chunks).Orderly start.tasks where
  known source destination hne := (h.known_of_edge (edge_of_up hne)).symm
  active task hmem := by
    rcases h.exists_edge hother hmem with ⟨child, hedge⟩ | ⟨parent, hedge⟩
    · exact ⟨child, .inr (by rw [up_traffic, if_pos hedge]; exact hchunks child)⟩
    · exact ⟨parent, .inl (by rw [up_traffic, if_pos hedge]; exact hchunks task)⟩
  induct P hstep := by
    intro task hmem
    refine h.heap.induct_up h.root_mem ?_ task ((h.mem_tasks_iff task).1 hmem)
    intro task hmem hchildren
    refine hstep task ((h.mem_tasks_iff task).2 hmem) ?_
    intro source _ hne
    exact hchildren source (edge_of_up hne).2

/-- What goes down comes from the parent. -/
theorem down_into (hmem : task ∈ t.members) (hparent : t.parentOf task = some parent) :
    (fun source => (down t operator chunks).traffic source task) =
      Function.update (fun _ => []) parent (chunks task) := by
  funext source
  rw [down_traffic]
  by_cases hsource : source = parent
  · subst hsource
    rw [if_pos ((h.edge_iff hmem).2 hparent), Function.update_self]
  · rw [if_neg, Function.update_of_ne hsource]
    intro hedge
    exact hsource (Option.some.inj (((h.edge_iff hmem).1 hedge).symm.trans hparent))

theorem down_into_root :
    (fun source => (down t operator chunks).traffic source t.spec.root) = fun _ => [] :=
  funext fun _ => if_neg h.not_edge_root

/-- What goes up goes to the parent. -/
theorem up_from (hmem : task ∈ t.members) (hparent : t.parentOf task = some parent) :
    (up t operator chunks).traffic task destination =
      if parent = destination then chunks task else [] := by
  rw [up_traffic]
  refine if_congr ?_ rfl rfl
  rw [h.edge_iff hmem, hparent, Option.some_inj]

theorem up_from_root : (up t operator chunks).traffic t.spec.root destination = [] :=
  if_neg h.not_edge_root

end Tree

end Exchange

/-! ## Rounds -/

/-- A round of an operator, with what the tasks give it. -/
inductive Round where
  | broadcast (operator : String) (type : PayloadType) (value : type.Carrier)
  /-- A reduction with the function of the operator. The root has no value of its own. -/
  | reduce (operator : String) (type : NumericType) (values : String → type.Carrier)
  /-- A reduction with functions that the tasks bring along. -/
  | reduceWith (operator : String) (type : PayloadType)
    (functions : String → List type.Carrier → Except ReductionError type.Carrier)
    (values : String → type.Carrier)
  | scatter (operator : String) (element : ElementType) (elements : List element.Carrier)

/-- A call of a task as a sender, or else as a receiver. -/
def Round.eitherEnd {σ ρ : Type} (sender : Except GroupError σ) (send : σ → Job Unit)
    (receiver : Except GroupError ρ) (receive : ρ → Job Unit) : Except GroupError (Job Unit) :=
  match sender with
  | .ok e => .ok (send e)
  | .error _ => receiver.map receive

/-- The call of a client for a round, with the end of the role that its task has. -/
def Round.job (c : Client) (client : Nat) : Round → Except GroupError (Job Unit)
  | .broadcast operator type value =>
    eitherEnd (c.bundle.broadcastSender type operator)
      (fun e => .new client type e (e.sendBroadcast value))
      (c.bundle.broadcastReceiver type operator)
      (fun e => .new client type e (e.receiveBroadcast.map fun _ => ()))
  | .reduce operator type values =>
    eitherEnd (c.bundle.reduceSender type operator)
      (fun (e, function) => .new client (.numeric type) e
        (e.sendReduce (function.apply type) (values c.task)))
      (c.bundle.reduceReceiver type operator)
      (fun (e, function) => .new client (.numeric type) e
        ((e.receiveReduce (function.apply type)).map fun _ => ()))
  | .reduceWith operator type functions values =>
    eitherEnd (c.bundle.reduceSenderWith type operator)
      (fun e => .new client type e (e.sendReduce (functions c.task) (values c.task)))
      (c.bundle.reduceReceiverWith type operator)
      (fun e => .new client type e ((e.receiveReduce (functions c.task)).map fun _ => ()))
  | .scatter operator element elements =>
    eitherEnd (c.bundle.scatterSender element operator)
      (fun e => .new client (.list element) e (e.sendScatter elements))
      (c.bundle.scatterReceiver element operator)
      (fun e => .new client (.list element) e (e.receiveScatter.map fun _ => ()))

/-- The calls of all clients for some rounds, in order. A client has none for a round in which its
task has no end. -/
def Session.rounds (start : Session) (rounds : List Round) (client : Nat) : List (Job Unit) :=
  match start.clients[client]? with
  | none => []
  | some c => rounds.filterMap fun round => (round.job c client).toOption

/-- What the tasks of a tree pass on when they fold their values: no function fails, and what is
passed on comes back from its codec. -/
structure Topology.Folds {α : Type} (t : Topology) (p : Passage α)
    (functions : String → List α → Except ReductionError α) (values passed : String → α) :
    Prop where
  root : ∃ total, functions t.spec.root ((t.childrenOf t.spec.root).map passed) = .ok total
  task : ∀ task ∈ t.members, task ≠ t.spec.root →
    functions task (values task :: (t.childrenOf task).map passed) = .ok (passed task)
  roundTrips : ∀ task ∈ t.members, task ≠ t.spec.root → p.RoundTrips (passed task)

/-- The operator of the round is one of the group, of the right kind, its codec carries values of
the type, and what travels comes back from it. No function of a reduction fails. -/
def Round.Fits (c : Coordinator) : Round → Prop
  | .broadcast operator type value =>
    ∃ t codec, c.topology? operator = some t ∧ t.spec.purpose = .broadcast ∧
      type.codec t.spec.codec = .ok codec ∧ (t.passage type codec).RoundTrips value
  | .reduce operator type values =>
    ∃ t function codec passed, c.topology? operator = some t ∧
      t.spec.purpose = .reduce function ∧
      PayloadType.codec (.numeric type) t.spec.codec = .ok codec ∧
      t.Folds (t.passage (.numeric type) codec) (fun _ => function.apply type) values passed
  | .reduceWith operator type functions values =>
    ∃ t codec passed, c.topology? operator = some t ∧ t.spec.kind = .reduce ∧
      type.codec t.spec.codec = .ok codec ∧ t.Folds (t.passage type codec) functions values passed
  | .scatter operator element elements =>
    ∃ t codec, c.topology? operator = some t ∧ t.spec.purpose = .scatter ∧
      PayloadType.codec (.list element) t.spec.codec = .ok codec ∧
      (t.passage (.list element) codec).RoundTrips elements

/-- What all clients do in a round is one exchange between their tasks. -/
def Round.Makes (round : Round) (start : Session) (x : Exchange) : Prop :=
  x.Orderly start.tasks ∧ ∀ i d, start.clients[i]? = some d →
    ∃ job, round.job d i = .ok job ∧ job.Performs x d.task

/-! ## What the tasks exchange in a round -/

/-- The root of a reduction receives, and every other task sends. -/
theorem OperatorSpec.roleOf_reduce {spec : OperatorSpec} (hkind : spec.kind = .reduce)
    (task : String) : spec.roleOf task = if task = spec.root then .receiver else .sender := by
  rw [roleOf, hkind]
  by_cases hroot : task = spec.root <;> simp [hroot]

/-- The root of any other operator sends, and every other task receives. -/
theorem OperatorSpec.roleOf_of_ne_reduce {spec : OperatorSpec} (hkind : spec.kind ≠ .reduce)
    (task : String) : spec.roleOf task = if task = spec.root then .sender else .receiver := by
  rw [roleOf]
  cases hspec : spec.kind with
  | reduce => exact absurd hspec hkind
  | _ => by_cases hroot : task = spec.root <;> simp [hroot]

theorem Job.performs_new {type : PayloadType} {client : Nat} {e : Endpoint type.Carrier}
    {call : Call type.Carrier Unit} {x : Exchange} {task : String}
    {ins : String → List (Chunk Bytes)} {outs : List Parcel}
    (hoperator : e.operator = x.operator) (hins : (fun source => x.traffic source task) = ins)
    (hcall : call.Exchanges e.passage ins outs)
    (houts : ∀ destination, Parcel.chunksTo destination outs = x.traffic task destination) :
    (Job.new client type e call).Performs x task := by
  subst hins
  exact ⟨hoperator, rfl, outs, hcall, houts⟩

namespace Session.Seated

variable {operator parent : String} {t : Topology} {start : Session} {i : Nat} {d : Client}
  (h : start.Seated operator t)

include h

section Values

variable {type : PayloadType} {codec : Codec type.Carrier} {value : type.Carrier}
  {functions : String → List type.Carrier → Except ReductionError type.Carrier}
  {values passed : String → type.Carrier}

/-- The root of a broadcast sends what every other task takes and relays. -/
theorem makes_broadcast (hother : ∃ task ∈ t.members, task ≠ t.spec.root)
    (hpurpose : t.spec.purpose = .broadcast) (hcodec : type.codec t.spec.codec = .ok codec)
    (hround : (t.passage type codec).RoundTrips value) :
    (Round.broadcast operator type value).Makes start
      (.down t operator fun _ => (t.passage type codec).wire value) := by
  have hlawful := type.lawful_converter t.spec.pipeline
  have hkind : t.spec.kind = .broadcast := by rw [OperatorSpec.kind, hpurpose]
  refine ⟨Exchange.orderly_down h hother fun _ => Passage.wire_ne_nil hlawful value, ?_⟩
  intro i d hd
  have hmem := h.mem_members hd
  have hnodup := h.nodup_children ((h.mem_tasks_iff _).2 hmem)
  rw [Round.job, Bundle.broadcastSender, Bundle.broadcastReceiver, ← hkind,
    h.endpoint_eq hd hcodec, h.endpoint_eq hd hcodec,
    OperatorSpec.roleOf_of_ne_reduce (by rw [hkind]; decide)]
  by_cases hroot : d.task = t.spec.root
  · rw [if_pos hroot, if_pos rfl]
    have hcall := Endpoint.exchanges_sendBroadcast
      (e := t.endpoint type operator codec d.task) hround
    refine ⟨_, rfl, Job.performs_new rfl ?_ hcall ?_⟩
    · rw [hroot]
      exact Exchange.down_into_root h
    · intro destination
      rw [Exchange.down_from hmem]
      exact Parcel.chunksTo_toAll_eq hnodup _
  · obtain ⟨parent, hparent, -⟩ := h.exists_parent ((h.mem_tasks_iff _).2 hmem) hroot
    rw [if_neg hroot, if_neg (by decide), if_pos rfl]
    have hcall := Endpoint.exchanges_receiveBroadcast
      (e := t.endpoint type operator codec d.task) hlawful hround hparent
    refine ⟨_, rfl, Job.performs_new rfl (Exchange.down_into h hmem hparent) (hcall.map _) ?_⟩
    intro destination
    rw [Exchange.down_from hmem]
    exact Parcel.chunksTo_relayed hnodup _

/-- A task passes up what it folds of its own value and of what comes from its children. -/
theorem performs_sendReduce (hfolds : t.Folds (t.passage type codec) functions values passed)
    (hd : start.clients[i]? = some d) (hroot : d.task ≠ t.spec.root) :
    (Job.new i type (t.endpoint type operator codec d.task)
      ((t.endpoint type operator codec d.task).sendReduce (functions d.task)
        (values d.task))).Performs
      (.up t operator fun task => (t.passage type codec).wire (passed task)) d.task := by
  have hmem := h.mem_members hd
  have hknown := (h.mem_tasks_iff _).2 hmem
  obtain ⟨parent, hparent, -⟩ := h.exists_parent hknown hroot
  have hchildren : ∀ child ∈ t.childrenOf d.task,
      (t.passage type codec).RoundTrips (passed child) := by
    intro child hchild
    exact hfolds.roundTrips child (h.heap.mem_of_mem_childrenOf h.root_mem hmem hchild)
      (h.heap.ne_root_of_mem_childrenOf h.root_mem hmem hchild)
  have hcall := Endpoint.exchanges_sendReduce (e := t.endpoint type operator codec d.task)
    (type.lawful_converter t.spec.pipeline) (h.nodup_children hknown) hchildren
    (hfolds.task d.task hmem hroot) (hfolds.roundTrips d.task hmem hroot) hparent
  refine Job.performs_new rfl (Exchange.up_into hmem) hcall ?_
  intro destination
  rw [Exchange.up_from h hmem hparent, Parcel.toAll, List.flatMap_singleton]
  exact Parcel.chunksTo_map_mk parent _

/-- The root takes what its children pass up, and folds it. -/
theorem performs_receiveReduce (hfolds : t.Folds (t.passage type codec) functions values passed)
    (hd : start.clients[i]? = some d) (hroot : d.task = t.spec.root) :
    (Job.new i type (t.endpoint type operator codec d.task)
      (((t.endpoint type operator codec d.task).receiveReduce (functions d.task)).map
        fun _ => ())).Performs
      (.up t operator fun task => (t.passage type codec).wire (passed task)) d.task := by
  have hmem := h.mem_members hd
  have hchildren : ∀ child ∈ t.childrenOf d.task,
      (t.passage type codec).RoundTrips (passed child) := by
    intro child hchild
    exact hfolds.roundTrips child (h.heap.mem_of_mem_childrenOf h.root_mem hmem hchild)
      (h.heap.ne_root_of_mem_childrenOf h.root_mem hmem hchild)
  obtain ⟨total, htotal⟩ := hfolds.root
  rw [← hroot] at htotal
  have hcall := Endpoint.exchanges_receiveReduce (e := t.endpoint type operator codec d.task)
    (type.lawful_converter t.spec.pipeline) (h.nodup_children ((h.mem_tasks_iff _).2 hmem))
    hchildren htotal
  refine Job.performs_new rfl (Exchange.up_into hmem) (hcall.map _) ?_
  intro destination
  rw [hroot]
  exact (Exchange.up_from_root h).symm

theorem makes_reduceWith (hother : ∃ task ∈ t.members, task ≠ t.spec.root)
    (hkind : t.spec.kind = .reduce) (hcodec : type.codec t.spec.codec = .ok codec)
    (hfolds : t.Folds (t.passage type codec) functions values passed) :
    (Round.reduceWith operator type functions values).Makes start
      (.up t operator fun task => (t.passage type codec).wire (passed task)) := by
  have hlawful := type.lawful_converter t.spec.pipeline
  refine ⟨Exchange.orderly_up h hother fun _ => Passage.wire_ne_nil hlawful _, ?_⟩
  intro i d hd
  rw [Round.job, Bundle.reduceSenderWith, Bundle.reduceReceiverWith, ← hkind,
    h.endpoint_eq hd hcodec, h.endpoint_eq hd hcodec, OperatorSpec.roleOf_reduce hkind]
  by_cases hroot : d.task = t.spec.root
  · rw [if_pos hroot, if_neg (by decide), if_pos rfl]
    exact ⟨_, rfl, h.performs_receiveReduce hfolds hd hroot⟩
  · rw [if_neg hroot, if_pos rfl]
    exact ⟨_, rfl, h.performs_sendReduce hfolds hd hroot⟩

end Values

/-- A reduction with the function of the operator is one to which every task brings it along. -/
theorem makes_reduce {type : NumericType} {codec : Codec type.Carrier} {function : Reduction}
    {values passed : String → type.Carrier} (hother : ∃ task ∈ t.members, task ≠ t.spec.root)
    (hpurpose : t.spec.purpose = .reduce function)
    (hcodec : PayloadType.codec (.numeric type) t.spec.codec = .ok codec)
    (hfolds : t.Folds (t.passage (.numeric type) codec) (fun _ => function.apply type) values
      passed) :
    (Round.reduce operator type values).Makes start
      (.up t operator fun task => (t.passage (.numeric type) codec).wire (passed task)) := by
  have hkind : t.spec.kind = .reduce := by rw [OperatorSpec.kind, hpurpose]
  obtain ⟨horderly, hjobs⟩ := h.makes_reduceWith hother hkind hcodec hfolds
  refine ⟨horderly, ?_⟩
  intro i d hd
  obtain ⟨job, hjob, hdoes⟩ := hjobs i d hd
  refine ⟨job, ?_, hdoes⟩
  rw [← hjob, Round.job, Round.job, Bundle.reduceSender, Bundle.reduceReceiver,
    h.bundle_reduction hd hpurpose]
  dsimp only [bind, Except.bind]
  cases d.bundle.reduceSenderWith (.numeric type) operator with
  | ok e => rfl
  | error _ => cases d.bundle.reduceReceiverWith (.numeric type) operator <;> rfl

/-- The root of a scatter hands out a list, and every other task hands on its part of it. -/
theorem makes_scatter {element : ElementType} {codec : Codec (List element.Carrier)}
    {elements : List element.Carrier} (hother : ∃ task ∈ t.members, task ≠ t.spec.root)
    (hpurpose : t.spec.purpose = .scatter)
    (hcodec : PayloadType.codec (.list element) t.spec.codec = .ok codec)
    (hround : (t.passage (.list element) codec).RoundTrips elements) :
    (Round.scatter operator element elements).Makes start
      (.down t operator fun task =>
        (t.passage (.list element) codec).wire (t.portion elements task)) := by
  have hlawful := (PayloadType.list element).lawful_converter t.spec.pipeline
  have hkind : t.spec.kind = .scatter := by rw [OperatorSpec.kind, hpurpose]
  have hscatters : start.Scatters operator t element codec [elements] :=
    ⟨h, hpurpose, hcodec, by simpa using hround⟩
  have hreads : ∀ task ∈ t.members,
      (t.passage (.list element) codec).RoundTrips (t.portion elements task) := by
    intro task hmem
    exact hscatters.roundTrips_portion task hmem _ (List.mem_singleton.2 rfl)
  refine ⟨Exchange.orderly_down h hother fun _ => Passage.wire_ne_nil hlawful _, ?_⟩
  intro i d hd
  have hmem := h.mem_members hd
  have hknown := (h.mem_tasks_iff _).2 hmem
  have hchildren : ∀ child ∈ t.childrenOf d.task,
      (t.passage (.list element) codec).RoundTrips (t.portion elements child) := by
    intro child hchild
    exact hreads child (h.heap.mem_of_mem_childrenOf h.root_mem hmem hchild)
  have hportions : (t.childrenOf d.task).map (t.portion elements) =
      t.portions d.task (t.portion elements d.task) :=
    h.heap.map_portion h.root_mem hmem
  rw [Topology.portions] at hportions
  rw [Round.job, Bundle.scatterSender, Bundle.scatterReceiver, ← hkind,
    h.endpoint_eq hd hcodec, h.endpoint_eq hd hcodec,
    OperatorSpec.roleOf_of_ne_reduce (by rw [hkind]; decide)]
  by_cases hroot : d.task = t.spec.root
  · rw [if_pos hroot, hroot, h.heap.portion_root h.root_mem, ← hroot] at hportions
    have hcall := Endpoint.exchanges_sendScatter
      (e := t.endpoint (.list element) operator codec d.task) hportions.symm hchildren
    rw [if_pos hroot, if_pos rfl]
    refine ⟨_, rfl, Job.performs_new rfl ?_ hcall ?_⟩
    · rw [hroot]
      exact Exchange.down_into_root h
    · intro destination
      rw [Exchange.down_from hmem]
      exact Parcel.chunksTo_toEach_eq (h.nodup_children hknown) _
  · rw [if_neg hroot] at hportions
    obtain ⟨parent, hparent, -⟩ := h.exists_parent hknown hroot
    have hcall := Endpoint.exchanges_receiveScatter
      (e := t.endpoint (.list element) operator codec d.task) hlawful (hreads _ hmem) hparent
      hportions.symm hchildren
    rw [if_neg hroot, if_neg (by decide), if_pos rfl]
    refine ⟨_, rfl, Job.performs_new rfl (Exchange.down_into h hmem hparent) (hcall.map _) ?_⟩
    intro destination
    rw [Exchange.down_from hmem]
    exact Parcel.chunksTo_toEach_eq (h.nodup_children hknown) _

end Session.Seated

/-! ## Whole runs -/

section Run

variable {group : String} {fanOut maxFrame i : Nat} {limit : Option Nat}
  {homes : String → Address} {order : List String} {c : Coordinator} {rounds : List Round}
  {round : Round} {start : Session} {s : System Unit}

/-- A round that fits is an exchange between the tasks. -/
theorem Round.Fits.exists_makes (h : round.Fits c)
    (hseated : ∀ operator t, c.topology? operator = some t → start.Seated operator t)
    (hother : ∀ root, ∃ task ∈ start.tasks, task ≠ root) : ∃ x, round.Makes start x := by
  have hothers : ∀ operator t, c.topology? operator = some t →
      ∃ task ∈ t.members, task ≠ t.spec.root := by
    intro operator t ht
    obtain ⟨task, hmem, hne⟩ := hother t.spec.root
    exact ⟨task, ((hseated operator t ht).mem_tasks_iff task).1 hmem, hne⟩
  cases round with
  | broadcast operator type value =>
    obtain ⟨t, codec, ht, hpurpose, hcodec, hround⟩ := h
    exact ⟨_, (hseated operator t ht).makes_broadcast (hothers operator t ht) hpurpose hcodec
      hround⟩
  | reduce operator type values =>
    obtain ⟨t, function, codec, passed, ht, hpurpose, hcodec, hfolds⟩ := h
    exact ⟨_, (hseated operator t ht).makes_reduce (hothers operator t ht) hpurpose hcodec hfolds⟩
  | reduceWith operator type functions values =>
    obtain ⟨t, codec, passed, ht, hkind, hcodec, hfolds⟩ := h
    exact ⟨_, (hseated operator t ht).makes_reduceWith (hothers operator t ht) hkind hcodec hfolds⟩
  | scatter operator element elements =>
    obtain ⟨t, codec, ht, hpurpose, hcodec, hround⟩ := h
    exact ⟨_, (hseated operator t ht).makes_scatter (hothers operator t ht) hpurpose hcodec hround⟩

/-- What holds of the calls of both ends holds of the call that is made. -/
theorem Round.of_eitherEnd {σ ρ : Type} {P : Job Unit → Prop} {sender : Except GroupError σ}
    {send : σ → Job Unit} {receiver : Except GroupError ρ} {receive : ρ → Job Unit}
    {job : Job Unit} (h : eitherEnd sender send receiver receive = .ok job)
    (hsend : ∀ e, P (send e)) (hreceive : ∀ e, P (receive e)) : P job := by
  cases sender with
  | ok e =>
    obtain rfl := Except.ok.inj h
    exact hsend e
  | error _ =>
    cases receiver with
    | ok e =>
      obtain rfl := Except.ok.inj h
      exact hreceive e
    | error _ => cases h

/-- The call of a client is its own, and has not begun. -/
theorem Round.client_of_job {d : Client} {job : Job Unit} (h : round.job d i = .ok job) :
    job.client = i ∧ job.held = [] := by
  cases round <;> exact of_eitherEnd (P := fun job => job.client = i ∧ job.held = []) h
    (fun _ => ⟨rfl, rfl⟩) (fun _ => ⟨rfl, rfl⟩)

theorem Session.exists_of_mem_rounds {job : Job Unit} (h : job ∈ start.rounds rounds i) :
    ∃ d, start.clients[i]? = some d ∧ ∃ round ∈ rounds, round.job d i = .ok job := by
  rw [Session.rounds] at h
  cases hd : start.clients[i]? with
  | none =>
    rw [hd] at h
    cases h
  | some d =>
    rw [hd] at h
    obtain ⟨round, hround, hjob⟩ := List.mem_filterMap.1 h
    refine ⟨d, rfl, round, hround, ?_⟩
    cases hanswer : round.job d i with
    | error e =>
      rw [hanswer] at hjob
      cases hjob
    | ok other =>
      rw [hanswer] at hjob
      exact congrArg _ (Option.some.inj hjob)

theorem Round.exists_plan (h : ∀ round ∈ rounds, ∃ x, round.Makes start x) :
    ∃ plan, List.Forall₂ (fun round x => round.Makes start x) rounds plan := by
  induction rounds with
  | nil => exact ⟨[], .nil⟩
  | cons round rest ih =>
    obtain ⟨x, hx⟩ := h round List.mem_cons_self
    obtain ⟨plan, hplan⟩ := ih fun other hother => h other (List.mem_cons_of_mem _ hother)
    exact ⟨x :: plan, .cons hx hplan⟩

theorem Session.client_eq_of_mem_rounds (i : Nat) :
    ∀ job ∈ start.rounds rounds i, job.client = i := by
  intro job hjob
  obtain ⟨d, -, round, -, hmade⟩ := exists_of_mem_rounds hjob
  exact (Round.client_of_job hmade).1

theorem Session.held_eq_nil_of_mem_rounds (i : Nat) :
    ∀ job ∈ start.rounds rounds i, job.held = [] := by
  intro job hjob
  obtain ⟨d, -, round, -, hmade⟩ := exists_of_mem_rounds hjob
  exact (Round.client_of_job hmade).2

/-- Rounds that are exchanges between the tasks are a plan for them. -/
theorem Session.planned_of_makes {plan : List Exchange}
    (h : List.Forall₂ (fun round x => round.Makes start x) rounds plan) :
    Planned (start.rounds rounds) start.tasks plan where
  orderly := by
    induction h with
    | nil => exact nofun
    | cons hfirst _ ih => exact List.forall_mem_cons.2 ⟨hfirst.1, ih⟩
  performs i task hi := by
    obtain ⟨d, hd, rfl⟩ := Option.map_eq_some_iff.1 ((start.getElem?_tasks i).symm.trans hi)
    rw [Session.rounds, hd]
    dsimp only
    induction h with
    | nil => exact .nil
    | cons hfirst _ ih =>
      obtain ⟨job, hjob, hperforms⟩ := hfirst.2 i d hd
      rw [List.filterMap_cons, hjob]
      exact .cons hperforms ih
  client_eq := client_eq_of_mem_rounds
  absent i hi := by
    rw [start.getElem?_tasks, Option.map_eq_none_iff] at hi
    rw [Session.rounds, hi]

/-- Tasks that go through the same rounds in the same order never wait for each other for ever. All
members of a group of at least two join, if no operator waits for its root. Then, whatever order
the steps of the tasks and the arrivals of their messages take, no call ends with an error, and as
long as some task is not through, a chunk can be sent, arrive or be taken. -/
theorem Session.rounds_go_on (hc : Coordinator.Reachable group fanOut c)
    (htwo : 2 ≤ c.members.length) (hwaiting : c.waiting = [])
    (hrounds : ∀ round ∈ rounds, round.Fits c) (horder : order.Perm c.members)
    (hhomes : (order.map homes).Nodup) :
    ∃ start, joinAll homes maxFrame limit order (.new c) = .ok start ∧
      ∀ s, System.Reachable (System.Follows (start.rounds rounds)) (.idle start) s →
        (∀ job ∈ s.jobs, ∀ e, job.result? ≠ some (.error e)) ∧
          ∀ i < start.clients.length, ¬ s.Finished i rounds.length →
            s.CanMove (start.rounds rounds) := by
  obtain ⟨hstep, -⟩ := hc.inStep
  obtain ⟨start, hstart⟩ : ∃ start, joinAll homes maxFrame limit order (.new c) = .ok start :=
    (Joined.new c homes).exists_joinAll hstep hwaiting fun task => horder.mem_iff.1
  obtain ⟨hjoined, htasks⟩ := (Joined.new c homes).joinAll hstart
  obtain rfl : start.tasks = order := htasks
  have hconnected := hjoined.connected hhomes
  have hlength : 2 ≤ start.tasks.length := by rwa [horder.length_eq]
  have hne : start.clients ≠ [] := by
    rintro hnil
    rw [tasks, hnil] at hlength
    cases hlength
  have hother : ∀ root, ∃ task ∈ start.tasks, task ≠ root := by
    intro root
    refine ((hconnected.nodup_tasks.ne_singleton_iff root).1 ?_).resolve_left ?_
    · rintro hone
      rw [hone, List.length_singleton] at hlength
      omega
    · rintro hnil
      rw [hnil] at hlength
      cases hlength
  have hseated : ∀ operator t, c.topology? operator = some t → start.Seated operator t :=
    fun operator t ht => hjoined.seated hstep ht horder hne
  obtain ⟨plan, hplan⟩ := Round.exists_plan fun round hround =>
    (hrounds round hround).exists_makes hseated hother
  have hplanned := planned_of_makes hplan
  refine ⟨start, hstart, ?_⟩
  intro s hrun
  obtain ⟨history, htraced, hwithin⟩ :=
    hplanned.exists_within hconnected hjoined.mailboxes_eq hrun
  refine ⟨fun job hjob e => hplanned.not_failed htraced hwithin hjob e, ?_⟩
  intro i hi hopen
  rw [hplan.length_eq] at hopen
  exact hplanned.canMove htraced hwithin (start.task_of_client (List.getElem?_eq_getElem hi)) hopen

end Run

end Collective
