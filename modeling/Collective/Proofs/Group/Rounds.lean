import Collective.Proofs.Group.Gather
import Mathlib.Data.List.Infix

/-!
# Rounds of calls at one task

Each of some tasks sends a stream of values, and in every call a task takes one value from each of
them. If no call gives up, the call with number `m` takes the values with number `m` of the streams
and is settled by them. A call that gives up may have taken values from some of the tasks, and the
calls behind it start where it has left each stream: `Pace` says where that is. `Gathers` describes
what a history has then brought the task to, whatever the order of its steps.
-/

namespace Collective

/-! ## Paces -/

/-- Where the calls of a task start to read the streams of other tasks, and which of them give up.
As long as none has given up, every call starts at its own number. -/
structure Pace where
  start : Nat → String → Nat
  quits : Nat → Bool
  aligned : ∀ n, (∀ m < n, quits m = false) → ∀ source, start n source = n

namespace Pace

variable {α : Type} {pace : Pace} {m n : Nat} {cursor : String → Nat}

/-- No call gives up. -/
def steady : Pace := ⟨fun n _ => n, fun _ => false, fun _ _ _ => rfl⟩

/-- The call of a number starts to read somewhere. -/
def resume (pace : Pace) (n : Nat) (cursor : String → Nat)
    (h : (∀ m < n, pace.quits m = false) → ∀ source, cursor source = n) : Pace where
  start := Function.update pace.start n cursor
  quits := pace.quits
  aligned k hk source := by
    by_cases hn : k = n
    · subst hn
      rw [Function.update_self, h hk source]
    · rw [Function.update_of_ne hn, pace.aligned k hk source]

/-- The call of a number gives up. -/
def quit (pace : Pace) (n : Nat) : Pace where
  start := pace.start
  quits := Function.update pace.quits n true
  aligned k hk source := by
    refine pace.aligned k ?_ source
    intro m hm
    have hquits := hk m hm
    by_cases hn : m = n
    · subst hn
      rw [Function.update_self] at hquits
      cases hquits
    · rwa [Function.update_of_ne hn] at hquits

/-- What a call takes from a task that sends some values, if it does not give up. -/
def offer (pace : Pace) (given : String → List α) (m : Nat) (source : String) : Option α :=
  bif pace.quits m then none else (given source)[pace.start m source]?

theorem offer_of_quits {given : String → List α} {source : String} (h : pace.quits m = true) :
    pace.offer given m source = none := by
  rw [offer, h]
  rfl

theorem offer_of_runs {given : String → List α} (h : pace.quits m = false) :
    pace.offer given m = fun source => (given source)[pace.start m source]? := by
  funext source
  rw [offer, h]
  rfl

theorem offer_of_steady {given : String → List α} (h : ∀ m ≤ n, pace.quits m = false) :
    pace.offer given n = fun source => (given source)[n]? := by
  rw [offer_of_runs (h n (Nat.le_refl n))]
  funext source
  rw [pace.aligned n fun m hm => h m (Nat.le_of_lt hm)]

theorem mem_of_offer {given : String → List α} {source : String} {value : α}
    (h : pace.offer given m source = some value) : value ∈ given source := by
  rw [offer] at h
  cases hquits : pace.quits m with
  | true =>
    rw [hquits] at h
    cases h
  | false =>
    rw [hquits] at h
    exact List.mem_of_getElem? h

/-- The value of a call before which none has given up has its number. -/
theorem getElem?_of_offer {given : String → List α} {source : String} {value : α}
    (h : pace.offer given m source = some value) (hruns : ∀ k < m, pace.quits k = false) :
    (given source)[m]? = some value := by
  rw [offer, pace.aligned m hruns] at h
  cases hquits : pace.quits m with
  | true =>
    rw [hquits] at h
    cases h
  | false =>
    rw [hquits] at h
    exact h

theorem offer_map {γ : Type} (f : α → γ) (given : String → List α) (m : Nat) (source : String) :
    pace.offer (fun source => (given source).map f) m source =
      (pace.offer given m source).map f := by
  rw [offer, offer]
  cases pace.quits m with
  | true => rfl
  | false => exact List.getElem?_map ..

theorem offer_resume (h : (∀ m < n, pace.quits m = false) → ∀ source, cursor source = n)
    (given : String → List α) (hne : m ≠ n) :
    (pace.resume n cursor h).offer given m = pace.offer given m := by
  funext source
  rw [offer, offer, resume]
  dsimp only
  rw [Function.update_of_ne hne]

theorem offer_quit (given : String → List α) (hne : m ≠ n) :
    (pace.quit n).offer given m = pace.offer given m := by
  funext source
  rw [offer, offer, quit]
  dsimp only
  rw [Function.update_of_ne hne]

end Pace

/-! ## Intakes -/

/-- The chunks of the value that a task sends for a call, if it sends one. -/
def Passage.chunks {α : Type} (p : Passage α) (value? : Option α) : List (Chunk Bytes) :=
  p.stream value?.toList

theorem Passage.chunks_some {α : Type} (p : Passage α) (value : α) :
    p.chunks (some value) = p.wire value := by
  rw [chunks, Option.toList_some, stream_singleton]

/-- A stream that goes on behind the chunks of its first values has a value for the next call. -/
theorem Passage.exists_of_chunk {α : Type} {p : Passage α} {given : List α} {n j : Nat}
    {chunk : Chunk Bytes}
    (h : p.stream (given.take n) ++ (p.chunks given[n]?).take j ++ [chunk] <+: p.stream given) :
    ∃ value, given[n]? = some value := by
  rcases Nat.lt_or_ge n given.length with hlt | hge
  · exact ⟨_, List.getElem?_eq_getElem hlt⟩
  · rw [List.take_of_length_le hge] at h
    have hcount := h.length_le
    rw [List.length_append, List.length_append, List.length_singleton] at hcount
    omega

/-- How the calls of a task begin that take a value from each of some tasks. -/
structure Intake (α β : Type) where
  sources : List String
  begun : (List α → Outcome β) → Call α β
  stage_begun : ∀ outcome,
    Call.Stage outcome (sources.map fun source => .underway (.from source)) [] (begun outcome)

namespace Intake

variable {α β : Type}

/-- The values are gathered. -/
def gather (sources : List String) : Intake α β where
  sources
  begun outcome := .gatherFrom sources fun values => (outcome values).call
  stage_begun outcome := .gatherFrom outcome sources

/-- One value is received, and no chunk of it is relayed. -/
def receive (source : String) : Intake α β where
  sources := [source]
  begun outcome := .receive (.from source) [] fun value => (outcome [value]).call
  stage_begun _ := .receiving rfl

variable (intake : Intake α β) {rounds : List (List α → Outcome β)}
  {offer : Nat → String → Option α} {n : Nat}

/-- What the call of a round comes to, if every task offers a value for it. -/
def outcome? (rounds : List (List α → Outcome β)) (offer : Nat → String → Option α) (m : Nat) :
    Option (Outcome β) :=
  rounds[m]?.bind fun outcome => (intake.sources.mapM (offer m)).map outcome

/-- The chunks that the calls of the first rounds send to a task. -/
def emitted (rounds : List (List α → Outcome β)) (offer : Nat → String → Option α) (n : Nat)
    (destination : String) : List (Chunk Bytes) :=
  (List.range n).flatMap fun m =>
    Parcel.chunksTo destination ((intake.outcome? rounds offer m).elim [] Outcome.parcels)

/-- What has come for a call, after some chunks from each of the tasks. -/
def incoming (p : Passage α) (offer : String → Option α) (j : String → Nat) :
    List (Incoming α) :=
  intake.sources.map fun source => .after p source (offer source) (j source)

theorem incoming_zero {p : Passage α} (hp : p.converter.Lawful) (offer : String → Option α) :
    intake.incoming p offer (fun _ => 0) =
      intake.sources.map fun source => .underway (.from source) :=
  List.map_congr_left fun source _ => Incoming.after_zero hp source _

/-- Once all values of a call are there, every task has offered its own, and all of it has come. -/
theorem of_mapM_incoming {p : Passage α} {offer : String → Option α} {j : String → Nat}
    {values : List α} (h : (intake.incoming p offer j).mapM Incoming.value? = some values) :
    intake.sources.mapM offer = some values ∧
      ∀ source ∈ intake.sources, j source = (p.chunks (offer source)).length := by
  rw [incoming, List.mapM_map] at h
  constructor
  · rw [mapM_eq_some_iff] at h ⊢
    exact h.imp fun source value hvalue => (Incoming.value?_after.1 hvalue).1
  · intro source hsource
    obtain ⟨value, hvalue⟩ := exists_of_mapM_eq_some h hsource
    obtain ⟨hgiven, hj⟩ := Incoming.value?_after.1 hvalue
    rw [hgiven, Passage.chunks_some, hj]

/-- A call to which one task offers nothing comes to nothing. -/
theorem outcome?_eq_none {m : Nat} {source : String} (hsource : source ∈ intake.sources)
    (hnone : offer m source = none) : intake.outcome? rounds offer m = none := by
  cases hvalues : intake.sources.mapM (offer m) with
  | none =>
    rw [outcome?, hvalues]
    cases rounds[m]? <;> rfl
  | some values =>
    obtain ⟨value, hvalue⟩ := exists_of_mapM_eq_some hvalues hsource
    rw [hnone] at hvalue
    cases hvalue

theorem outcome?_congr {more : Nat → String → Option α} {m : Nat} (h : offer m = more m) :
    intake.outcome? rounds offer m = intake.outcome? rounds more m := by
  rw [outcome?, outcome?, h]

/-- What the calls of some rounds send depends on what is offered for these. -/
theorem emitted_congr {more : Nat → String → Option α} (h : ∀ m < n, offer m = more m)
    (destination : String) :
    intake.emitted rounds offer n destination = intake.emitted rounds more n destination := by
  apply List.flatMap_congr
  intro m hm
  rw [intake.outcome?_congr (h m (List.mem_range.1 hm))]

theorem emitted_succ {outcome : Outcome β} (h : intake.outcome? rounds offer n = some outcome)
    (destination : String) :
    intake.emitted rounds offer (n + 1) destination =
      intake.emitted rounds offer n destination ++
        Parcel.chunksTo destination outcome.parcels := by
  rw [emitted, List.range_succ, List.flatMap_append, List.flatMap_singleton, h]
  rfl

/-- A call for which nothing is offered sends nothing. -/
theorem emitted_succ_of_none (h : intake.outcome? rounds offer n = none) (destination : String) :
    intake.emitted rounds offer (n + 1) destination =
      intake.emitted rounds offer n destination := by
  rw [emitted, List.range_succ, List.flatMap_append, List.flatMap_singleton, h]
  exact List.append_nil _

theorem emitted_prefix_succ (rounds : List (List α → Outcome β))
    (offer : Nat → String → Option α) (n : Nat) (destination : String) :
    intake.emitted rounds offer n destination <+:
      intake.emitted rounds offer (n + 1) destination := by
  rw [emitted, emitted, List.range_succ, List.flatMap_append]
  exact List.prefix_append _ _

theorem outcome?_gather_nil (rounds : List (List α → Outcome β))
    (offer : Nat → String → Option α) (m : Nat) :
    (gather []).outcome? rounds offer m = rounds[m]?.map fun outcome => outcome [] := by
  rw [outcome?]
  cases rounds[m]? <;> rfl

theorem outcome?_receive (source : String) (rounds : List (List α → Outcome β))
    (offer : Nat → String → Option α) (m : Nat) :
    (receive source).outcome? rounds offer m =
      rounds[m]?.bind fun outcome => (offer m source).map fun value => outcome [value] := by
  rw [outcome?, receive]
  cases rounds[m]? with
  | none => rfl
  | some outcome =>
    rw [Option.bind_some, Option.bind_some, List.mapM_cons]
    cases offer m source <;> rfl

/-- Where the calls come to what some inputs settle, they send what these make them send. -/
theorem emitted_eq_flatMap {γ : Type} {inputs : List γ} {out : γ → Outcome β}
    (h : ∀ m, intake.outcome? rounds offer m = inputs[m]?.map out) (n : Nat)
    (destination : String) :
    intake.emitted rounds offer n destination =
      (inputs.take n).flatMap fun input => Parcel.chunksTo destination (out input).parcels := by
  induction n with
  | zero => rfl
  | succ n ih =>
    rw [emitted, List.range_succ, List.flatMap_append, List.flatMap_singleton, ← emitted, ih, h,
      List.take_add_one, List.flatMap_append]
    cases inputs[n]? with
    | none => rfl
    | some input => exact congrArg _ (List.flatMap_singleton ..).symm

end Intake

/-! ## Rounds -/

/-- The call has ended because it has given up waiting. -/
def Job.timedOut {β : Type} (job : Job β) : Bool :=
  match job.result? with
  | some (.error (.timeout _ _)) => true
  | _ => false

namespace Endpoint

variable {type : PayloadType} {β : Type} {e : Endpoint type.Carrier}
  {intake : Intake type.Carrier β} {rounds : List (List type.Carrier → Outcome β)}
  {given : String → List type.Carrier} {pace : Pace} {client : Nat} {known : String → Prop}
  {hasty : Prop} {history : List Act} {jobs past : List (Job β)} {cursor j : String → Nat}

open Act (sentTo takenFrom)

/-- The calls of a task, one for every round. -/
def gatherings (e : Endpoint type.Carrier) (client : Nat) (intake : Intake type.Carrier β)
    (rounds : List (List type.Carrier → Outcome β)) : List (Job β) :=
  rounds.map fun outcome => .new client type e (intake.begun outcome)

/-- A call that has come to `current`. -/
def gathering (e : Endpoint type.Carrier) (client : Nat) (intake : Intake type.Carrier β)
    (outcome : List type.Carrier → Outcome β) (current : Call type.Carrier β) : Job β :=
  .running client type e (intake.begun outcome) current

/-- The call of a number has given up, or it has come to what its round comes to. -/
def Ends (intake : Intake type.Carrier β) (rounds : List (List type.Carrier → Outcome β))
    (given : String → List type.Carrier) (pace : Pace) (m : Nat) (job : Job β) : Prop :=
  pace.quits m = true ∧ intake.outcome? rounds (pace.offer given) m = none ∧
      job.timedOut = true ∨
    pace.quits m = false ∧
      ∃ o, intake.outcome? rounds (pace.offer given) m = some o ∧ job.result? = some o.result

/-- A task whose calls have all ended. -/
structure Settled (e : Endpoint type.Carrier) (intake : Intake type.Carrier β)
    (rounds : List (List type.Carrier → Outcome β)) (given : String → List type.Carrier)
    (pace : Pace) (history : List Act) (past : List (Job β)) (cursor : String → Nat) : Prop where
  ends : ∀ (m : Nat) (job : Job β), past[m]? = some job → Ends intake rounds given pace m job
  ahead : ∀ m ≥ past.length, pace.quits m = false
  aligned : (∀ m < past.length, pace.quits m = false) → ∀ source, cursor source = past.length
  taken : ∀ source ∈ intake.sources, takenFrom e.operator source history =
    e.passage.stream ((given source).take (cursor source))
  sent : ∀ destination, sentTo e.operator destination history =
    intake.emitted rounds (pace.offer given) past.length destination

/-- A task whose last call is for the round behind those of its past calls. -/
structure Gathering (e : Endpoint type.Carrier) (intake : Intake type.Carrier β)
    (rounds : List (List type.Carrier → Outcome β)) (given : String → List type.Carrier)
    (pace : Pace) (history : List Act) (past : List (Job β))
    (outcome : List type.Carrier → Outcome β) (j : String → Nat) (done : List Parcel)
    (current : Call type.Carrier β) : Prop where
  outcome_eq : rounds[past.length]? = some outcome
  stage : Call.Stage outcome
    (intake.incoming e.passage (pace.offer given past.length) j) done current
  ends : ∀ (m : Nat) (job : Job β), past[m]? = some job → Ends intake rounds given pace m job
  ahead : ∀ m ≥ past.length, pace.quits m = false
  le_length : ∀ source ∈ intake.sources,
    j source ≤ (e.passage.chunks (pace.offer given past.length source)).length
  taken : ∀ source ∈ intake.sources, takenFrom e.operator source history =
    e.passage.stream ((given source).take (pace.start past.length source)) ++
      (e.passage.chunks (pace.offer given past.length source)).take (j source)
  sent : ∀ destination, sentTo e.operator destination history =
    intake.emitted rounds (pace.offer given) past.length destination ++
      Parcel.chunksTo destination done

/-- What a task has taken so far can come of the values that some tasks send. -/
structure Feeds (e : Endpoint type.Carrier) (sources : List String)
    (given : String → List type.Carrier) (history : List Act) : Prop where
  roundTrips : ∀ source ∈ sources, ∀ value ∈ given source, e.passage.RoundTrips value
  taken_prefix_stream : ∀ source ∈ sources,
    takenFrom e.operator source history <+: e.passage.stream (given source)

/-- How far a task has come, whatever values it is that feed it. -/
def Gathers (e : Endpoint type.Carrier) (client : Nat) (intake : Intake type.Carrier β)
    (rounds : List (List type.Carrier → Outcome β)) (pace : Pace) (history : List Act)
    (jobs : List (Job β)) : Prop :=
  (∃ cursor, ∀ given, e.Feeds intake.sources given history →
      e.Settled intake rounds given pace history jobs cursor) ∨
    ∃ past outcome j done current, jobs = past ++ [e.gathering client intake outcome current] ∧
      ∀ given, e.Feeds intake.sources given history →
        e.Gathering intake rounds given pace history past outcome j done current

theorem Feeds.before_send {sources : List String} {op : String} {parcel : Parcel}
    (h : e.Feeds sources given (history ++ [.send op parcel])) : e.Feeds sources given history := by
  refine ⟨h.roundTrips, ?_⟩
  intro source hsource
  have hpart := h.taken_prefix_stream source hsource
  rwa [Act.takenFrom_append_send] at hpart

theorem Feeds.before_take {sources : List String} {op origin : String} {chunk : Chunk Bytes}
    (h : e.Feeds sources given (history ++ [.take op origin chunk])) :
    e.Feeds sources given history := by
  refine ⟨h.roundTrips, ?_⟩
  intro source hsource
  have hpart := h.taken_prefix_stream source hsource
  rw [Act.takenFrom_append_take] at hpart
  exact (List.prefix_append _ _).trans hpart

theorem Ends.ended {m : Nat} {job : Job β} (h : Ends intake rounds given pace m job) :
    job.result?.isSome = true := by
  rcases h with ⟨-, -, hlate⟩ | ⟨-, o, -, hresult⟩
  · rw [Job.timedOut] at hlate
    cases hresult : job.result? with
    | none =>
      rw [hresult] at hlate
      cases hlate
    | some result => rfl
  · rw [hresult]
    rfl

/-- How a call has ended does not change with the pace of later ones. -/
theorem Ends.congr {other : Pace} {m : Nat} {job : Job β}
    (h : Ends intake rounds given pace m job) (hquits : other.quits m = pace.quits m)
    (hoffer : other.offer given m = pace.offer given m) :
    Ends intake rounds given other m job := by
  rw [Ends, hquits, intake.outcome?_congr hoffer]
  exact h

/-- One more call has ended. -/
theorem ends_append {job : Job β}
    (h : ∀ (m : Nat) (job : Job β), past[m]? = some job → Ends intake rounds given pace m job)
    (hjob : Ends intake rounds given pace past.length job) :
    ∀ (m : Nat) (other : Job β), (past ++ [job])[m]? = some other →
      Ends intake rounds given pace m other := by
  intro m other hother
  rcases Nat.lt_or_ge m past.length with hlt | hge
  · rw [List.getElem?_append_left hlt] at hother
    exact h m other hother
  · rw [List.getElem?_append_right hge, List.getElem?_singleton] at hother
    split at hother
    · next hm =>
      obtain rfl := Option.some.inj hother
      obtain rfl : m = past.length := by omega
      exact hjob
    · cases hother

/-- A call that goes on is the last one, and is at work. -/
theorem Gathers.last {job : Job β}
    (h : e.Gathers client intake rounds pace history (past ++ [job]))
    (hfeeds : e.Feeds intake.sources given history) (hopen : job.result? = none) :
    ∃ outcome j done current, job = e.gathering client intake outcome current ∧
      ∀ given, e.Feeds intake.sources given history →
        e.Gathering intake rounds given pace history past outcome j done current := by
  rcases h with ⟨cursor, h⟩ | ⟨before, outcome, j, done, current, hjobs, h⟩
  · have hended := ((h given hfeeds).ends past.length job (by simp)).ended
    rw [hopen] at hended
    cases hended
  · obtain ⟨rfl, hjob⟩ := List.append_inj' hjobs rfl
    exact ⟨outcome, j, done, current, List.singleton_inj.1 hjob, h⟩

theorem Settled.start (e : Endpoint type.Carrier) (intake : Intake type.Carrier β)
    (rounds : List (List type.Carrier → Outcome β)) (given : String → List type.Carrier) :
    e.Settled intake rounds given .steady [] [] fun _ => 0 where
  ends := nofun
  ahead _ _ := rfl
  aligned _ _ := rfl
  taken _ _ := rfl
  sent _ := rfl

/-- The next call starts where the ones before it have left the streams. -/
theorem Settled.begin (h : e.Settled intake rounds given pace history past cursor)
    (hp : e.passage.converter.Lawful) {outcome : List type.Carrier → Outcome β}
    (hnext : rounds[past.length]? = some outcome) :
    e.Gathering intake rounds given (pace.resume past.length cursor h.aligned) history past outcome
      (fun _ => 0) [] (intake.begun outcome) := by
  have hoffer : ∀ m < past.length,
      (pace.resume past.length cursor h.aligned).offer given m = pace.offer given m := by
    intro m hm
    exact Pace.offer_resume h.aligned given (Nat.ne_of_lt hm)
  refine ⟨hnext, ?_, ?_, h.ahead, fun _ _ => Nat.zero_le _, ?_, ?_⟩
  · rw [intake.incoming_zero hp]
    exact intake.stage_begun outcome
  · intro m job hjob
    exact (h.ends m job hjob).congr rfl (hoffer m (List.getElem?_eq_some_iff.1 hjob).1)
  · intro source hsource
    have hstart : (pace.resume past.length cursor h.aligned).start past.length source =
        cursor source :=
      congrFun (Function.update_self ..) source
    rw [hstart, h.taken source hsource, List.take_zero, List.append_nil]
  · intro destination
    rw [intake.emitted_congr hoffer, h.sent, Parcel.chunksTo_nil, List.append_nil]

namespace Gathering

variable {outcome : List type.Carrier → Outcome β} {done : List Parcel}
  {current next : Call type.Carrier β}

theorem outcome?_eq
    (h : e.Gathering intake rounds given pace history past outcome j done current)
    {values : List type.Carrier}
    (hvalues : (intake.incoming e.passage (pace.offer given past.length) j).mapM Incoming.value? =
      some values) :
    intake.outcome? rounds (pace.offer given) past.length = some (outcome values) := by
  rw [Intake.outcome?, h.outcome_eq, Option.bind_some, (intake.of_mapM_incoming hvalues).1,
    Option.map_some]

theorem offer_eq
    (h : e.Gathering intake rounds given pace history past outcome j done current)
    (source : String) :
    pace.offer given past.length source = (given source)[pace.start past.length source]? :=
  congrFun (Pace.offer_of_runs (h.ahead past.length (Nat.le_refl _))) source

/-- Once the call has its result, it has taken a value from every task. -/
theorem ended (h : e.Gathering intake rounds given pace history past outcome j done current)
    (hended : current.result?.isSome = true) :
    e.Settled intake rounds given pace history
      (past ++ [e.gathering client intake outcome current])
      fun source => pace.start past.length source + 1 := by
  obtain ⟨result, hresult⟩ := Option.isSome_iff_exists.1 hended
  obtain ⟨values, hvalues, hparcels, rfl⟩ := h.stage.result hresult
  have houtcome := h.outcome?_eq hvalues
  have hruns := h.ahead past.length (Nat.le_refl _)
  have hlength : (past ++ [e.gathering client intake outcome current]).length = past.length + 1 :=
    List.length_append
  refine ⟨ends_append h.ends (.inr ⟨hruns, _, houtcome, ?_⟩), ?_, ?_, ?_, ?_⟩
  · rw [gathering, Job.result?_running, hresult]
  · intro m hm
    exact h.ahead m (by omega)
  · intro hall source
    rw [hlength, pace.aligned past.length fun m hm => hall m (by omega)]
  · intro source hsource
    rw [h.taken source hsource, (intake.of_mapM_incoming hvalues).2 source hsource,
      List.take_length, Passage.chunks, ← Passage.stream_append, List.take_add_one,
      h.offer_eq source]
  · intro destination
    rw [hlength, h.sent, intake.emitted_succ houtcome, hparcels]

/-- A call that gives up leaves each stream in front of a value, if a value is one chunk. -/
theorem giveUp (h : e.Gathering intake rounds given pace history past outcome j done current)
    (hwhole : ∀ value, (e.passage.wire value).length = 1) {source : String}
    (hawaits : source ∈ current.awaits) {job : Job β} (hlate : job.timedOut = true) :
    e.Settled intake rounds given (pace.quit past.length) history (past ++ [job])
      fun source => pace.start past.length source + j source := by
  obtain ⟨rfl, incoming, hincoming⟩ := h.stage.of_mem_awaits hawaits
  obtain ⟨origin, horigin, -⟩ := List.mem_map.1 hincoming
  have hlength : (past ++ [job]).length = past.length + 1 := List.length_append
  have hquits : (pace.quit past.length).quits past.length = true := Function.update_self ..
  have hnone : intake.outcome? rounds ((pace.quit past.length).offer given) past.length = none :=
    intake.outcome?_eq_none horigin (Pace.offer_of_quits hquits)
  have hoffer : ∀ m < past.length,
      (pace.quit past.length).offer given m = pace.offer given m := by
    intro m hm
    exact Pace.offer_quit given (Nat.ne_of_lt hm)
  refine ⟨ends_append ?_ (.inl ⟨hquits, hnone, hlate⟩), ?_, ?_, ?_, ?_⟩
  · intro m other hother
    have hlt := (List.getElem?_eq_some_iff.1 hother).1
    exact (h.ends m other hother).congr (Function.update_of_ne (Nat.ne_of_lt hlt) ..) (hoffer m hlt)
  · intro m hm
    have hne : m ≠ past.length := by omega
    have hahead := h.ahead m (by omega)
    rwa [← Function.update_of_ne hne true pace.quits] at hahead
  · intro hall
    have hruns := hall past.length (by omega)
    rw [hquits] at hruns
    cases hruns
  · intro other hother
    have hone : (e.passage.chunks (given other)[pace.start past.length other]?).length ≤ 1 := by
      cases hvalue : (given other)[pace.start past.length other]? with
      | none => exact Nat.zero_le 1
      | some value =>
        rw [Passage.chunks_some]
        exact Nat.le_of_eq (hwhole value)
    have hle := h.le_length other hother
    rw [h.offer_eq other] at hle
    rw [h.taken other hother, h.offer_eq other]
    rcases Nat.le_one_iff_eq_zero_or_eq_one.1 (Nat.le_trans hle hone) with hj | hj
    · rw [hj, List.take_zero, List.append_nil, Nat.add_zero]
    · rw [hj, List.take_of_length_le hone, Passage.chunks, ← Passage.stream_append,
        List.take_add_one]
  · intro destination
    rw [hlength, intake.emitted_succ_of_none hnone, intake.emitted_congr hoffer, h.sent,
      Parcel.chunksTo_nil, List.append_nil]

theorem send (h : e.Gathering intake rounds given pace history past outcome j done current)
    {parcel : Parcel} (hsent : current.sent? = some (parcel, next)) :
    e.Gathering intake rounds given pace (history ++ [.send e.operator parcel]) past outcome j
      (done ++ [parcel]) next := by
  refine ⟨h.outcome_eq, (h.stage.send hsent).1, h.ends, h.ahead, h.le_length, ?_, ?_⟩
  · intro source hsource
    rw [Act.takenFrom_append_send, h.taken source hsource]
  · intro destination
    rw [Act.sentTo_append_send, h.sent, Parcel.chunksTo_append, List.append_assoc,
      Parcel.chunksTo_cons, Parcel.chunksTo_nil, List.append_nil]
    simp only [true_and]

/-- The chunk that is taken from a task is the next one of the value that the call reads there. -/
theorem take (hp : e.passage.converter.Lawful) (hnodup : intake.sources.Nodup)
    (h : e.Gathering intake rounds given pace history past outcome j done current)
    {source : String} {chunk : Chunk Bytes}
    (htake : current.take? e.passage source chunk = some next)
    (hfeeds : e.Feeds intake.sources given (history ++ [.take e.operator source chunk])) :
    e.Gathering intake rounds given pace (history ++ [.take e.operator source chunk]) past outcome
      (Function.update j source (j source + 1)) [] next := by
  obtain ⟨rfl, answer, hanswer, hstage⟩ := h.stage.take htake
  obtain ⟨arrival, hmem, hsource⟩ := Call.exists_underway_of_gatherChunk hanswer
  obtain ⟨origin, horigin, harrival⟩ := List.mem_map.1 hmem
  obtain rfl : origin = source := (Incoming.source_of_after harrival).symm.trans hsource
  have hoffer := h.offer_eq origin
  have hpiece := hfeeds.taken_prefix_stream origin horigin
  rw [Act.takenFrom_append_take, if_pos ⟨rfl, rfl⟩, h.taken origin horigin] at hpiece
  rw [hoffer] at hpiece
  obtain ⟨value, hvalue⟩ := Passage.exists_of_chunk hpiece
  rw [hvalue] at hoffer hpiece
  have hchunks : e.passage.chunks (pace.offer given past.length origin) = e.passage.wire value := by
    rw [hoffer, Passage.chunks_some]
  have hopen : j origin < (e.passage.wire value).length := by
    have hle := h.le_length origin horigin
    rw [hchunks] at hle
    refine Nat.lt_of_le_of_ne hle ?_
    intro hj
    rw [hoffer, Incoming.after, if_pos hj] at harrival
    cases harrival
  rw [Passage.chunks_some] at hpiece
  have hchunk := Passage.getElem?_wire_of_stream hvalue hopen hpiece
  have hround := hfeeds.roundTrips origin horigin value (List.mem_of_getElem? hvalue)
  have hgather : Call.gatherChunk e.passage origin chunk
      (intake.incoming e.passage (pace.offer given past.length) j) =
        some (.ok (intake.incoming e.passage (pace.offer given past.length)
          (Function.update j origin (j origin + 1)))) :=
    Call.gatherChunk_after hp hnodup horigin hoffer hround hchunk
  obtain rfl := Option.some.inj (hanswer.symm.trans hgather)
  refine ⟨h.outcome_eq, hstage _ rfl, h.ends, h.ahead, ?_, ?_, ?_⟩
  · intro other hother
    by_cases hsame : other = origin
    · subst hsame
      rw [Function.update_self, hchunks]
      exact hopen
    · rw [Function.update_of_ne hsame]
      exact h.le_length other hother
  · intro other hother
    by_cases hsame : other = origin
    · subst hsame
      rw [Act.takenFrom_append_take, if_pos ⟨rfl, rfl⟩, h.taken other hother, hchunks,
        Function.update_self, List.take_add_one, hchunk, Option.toList_some, List.append_assoc]
    · rw [Act.takenFrom_append_take, if_neg fun hand => hsame hand.2.symm, List.append_nil,
        Function.update_of_ne hsame, h.taken other hother]
  · intro destination
    rw [Act.sentTo_append_take]
    exact h.sent destination

end Gathering

/-- A task that is fed takes one value from each of some tasks in every call, unless it gives up. -/
theorem gathers_of_course (hp : e.passage.converter.Lawful) (hnodup : intake.sources.Nodup)
    (hwhole : hasty → ∀ value, (e.passage.wire value).length = 1)
    (hknown : ∀ outcome ∈ rounds, ∀ values, ∀ parcel ∈ (outcome values).parcels,
      known parcel.destination)
    (h : Course known hasty (e.gatherings client intake rounds) history jobs)
    (hfeeds : e.Feeds intake.sources given history) :
    ∃ pace : Pace, (hasty ∨ ∀ m, pace.quits m = false) ∧
      e.Gathers client intake rounds pace history jobs := by
  induction h with
  | start =>
    exact ⟨.steady, .inr fun _ => rfl, .inl ⟨_, fun given _ => .start e intake rounds given⟩⟩
  | @begin history jobs job _ hended hnext ih =>
    rw [gatherings, List.getElem?_map, Option.map_eq_some_iff] at hnext
    obtain ⟨outcome, houtcome, rfl⟩ := hnext
    obtain ⟨pace, hsteady, hgathers⟩ := ih hfeeds
    obtain ⟨cursor, hsettled⟩ : ∃ cursor, ∀ given, e.Feeds intake.sources given history →
        e.Settled intake rounds given pace history jobs cursor := by
      rcases hgathers with hsettled | ⟨past, before, j, done, current, rfl, h⟩
      · exact hsettled
      · have hdone : (e.gathering client intake before current).result?.isSome = true :=
          hended _ (by simp)
        rw [gathering, Job.result?_running] at hdone
        exact ⟨_, fun given hfeeds => (h given hfeeds).ended hdone⟩
    exact ⟨pace.resume jobs.length cursor (hsettled given hfeeds).aligned, hsteady,
      .inr ⟨jobs, outcome, _, _, _, rfl, fun given hfeeds =>
        (hsettled given hfeeds).begin hp houtcome⟩⟩
  | @send history past job parcel rest _ hsent _ ih =>
    have hopen : job.result? = none := by rw [Job.result?_eq, Call.result?_of_sent? hsent]
    obtain ⟨pace, hsteady, hgathers⟩ := ih hfeeds.before_send
    obtain ⟨outcome, j, done, current, rfl, h⟩ := hgathers.last hfeeds.before_send hopen
    exact ⟨pace, hsteady, .inr ⟨past, outcome, j, _, rest, rfl, fun given hfeeds =>
      (h given hfeeds.before_send).send hsent⟩⟩
  | @refuse history past job parcel rest error _ hsent hunknown ih =>
    have hopen : job.result? = none := by rw [Job.result?_eq, Call.result?_of_sent? hsent]
    obtain ⟨pace, hsteady, hgathers⟩ := ih hfeeds
    obtain ⟨outcome, j, done, current, rfl, h⟩ := hgathers.last hfeeds hopen
    obtain ⟨values, hparcel⟩ := ((h given hfeeds).stage.send hsent).2
    exact absurd (hknown outcome (List.mem_of_getElem? (h given hfeeds).outcome_eq) values parcel
      hparcel) hunknown
  | @take history past job source chunk call _ htake ih =>
    have hopen : job.result? = none := by rw [Job.result?_eq, Call.result?_of_take? htake]
    obtain ⟨pace, hsteady, hgathers⟩ := ih hfeeds.before_take
    obtain ⟨outcome, j, done, current, rfl, h⟩ := hgathers.last hfeeds.before_take hopen
    exact ⟨pace, hsteady, .inr ⟨past, outcome, _, [], call, rfl, fun given hfeeds =>
      (h given hfeeds.before_take).take hp hnodup htake hfeeds⟩⟩
  | @giveUp history past job source hhasty _ hawaits ih =>
    have hopen : job.result? = none := by rw [Job.result?_eq, Call.result?_of_mem_awaits hawaits]
    obtain ⟨pace, hsteady, hgathers⟩ := ih hfeeds
    obtain ⟨outcome, j, done, current, rfl, h⟩ := hgathers.last hfeeds hopen
    exact ⟨pace.quit past.length, .inl hhasty, .inl ⟨_, fun given hfeeds =>
      (h given hfeeds).giveUp (hwhole hhasty) hawaits rfl⟩⟩

/-- How a call has ended. -/
theorem Gathers.ends {n : Nat} {job : Job β}
    (h : e.Gathers client intake rounds pace history jobs)
    (hfeeds : e.Feeds intake.sources given history)
    (hjob : jobs[n]? = some job) (hended : job.result?.isSome = true) :
    Ends intake rounds given pace n job := by
  rcases h with ⟨cursor, h⟩ | ⟨past, outcome, j, done, current, rfl, h⟩
  · exact (h given hfeeds).ends n job hjob
  · rcases Nat.lt_or_ge n past.length with hlt | hge
    · rw [List.getElem?_append_left hlt] at hjob
      exact (h given hfeeds).ends n job hjob
    · have hlast := hjob
      rw [List.getElem?_append_right hge, List.getElem?_singleton] at hlast
      split at hlast
      · obtain rfl := Option.some.inj hlast
        rw [gathering, Job.result?_running] at hended
        exact ((h given hfeeds).ended hended).ends n _ hjob
      · cases hlast

/-- So it is whatever queues the calls hold. -/
theorem Gathers.ends_released {n : Nat} {job : Job β}
    (h : e.Gathers client intake rounds pace history (jobs.map Job.released))
    (hfeeds : e.Feeds intake.sources given history) (hjob : jobs[n]? = some job)
    (hended : job.result?.isSome = true) : Ends intake rounds given pace n job := by
  have hreleased : (jobs.map Job.released)[n]? = some job.released := by
    rw [List.getElem?_map, hjob, Option.map_some]
  have hends := h.ends hfeeds hreleased (by rwa [job.released_result?])
  rw [Ends, Job.timedOut, job.released_result?] at hends
  exact hends

/-- Only calls that have ended and given up have quit. -/
theorem runs_of_ends {n : Nat}
    (hends : ∀ m job, past[m]? = some job → Ends intake rounds given pace m job)
    (hahead : ∀ m ≥ past.length, pace.quits m = false)
    (hpatient : ∀ job, past[n]? = some job → job.timedOut = false) : pace.quits n = false := by
  rcases Nat.lt_or_ge n past.length with hlt | hge
  · have hjob := List.getElem?_eq_getElem hlt
    rcases hends n _ hjob with ⟨-, -, hlate⟩ | ⟨hruns, -⟩
    · rw [hpatient _ hjob] at hlate
      cases hlate
    · exact hruns
  · exact hahead n hge

theorem Gathers.runs {n : Nat} (h : e.Gathers client intake rounds pace history jobs)
    (hfeeds : e.Feeds intake.sources given history)
    (hpatient : ∀ job, jobs[n]? = some job → job.timedOut = false) : pace.quits n = false := by
  rcases h with ⟨cursor, h⟩ | ⟨past, outcome, j, done, current, rfl, h⟩
  · exact runs_of_ends (h given hfeeds).ends (h given hfeeds).ahead hpatient
  · refine runs_of_ends (h given hfeeds).ends (h given hfeeds).ahead ?_
    intro job hjob
    apply hpatient job
    rw [List.getElem?_append_left (List.getElem?_eq_some_iff.1 hjob).1, hjob]

/-- All that a task has sent is what its calls send for their rounds. -/
theorem Gathers.sent_prefix_emitted (h : e.Gathers client intake rounds pace history jobs)
    (hfeeds : e.Feeds intake.sources given history) (destination : String) :
    sentTo e.operator destination history <+:
      intake.emitted rounds (pace.offer given) jobs.length destination := by
  rcases h with ⟨cursor, h⟩ | ⟨past, outcome, j, done, current, rfl, h⟩
  · rw [(h given hfeeds).sent]
  · have hlength : (past ++ [e.gathering client intake outcome current]).length = past.length + 1 :=
      List.length_append
    have h := h given hfeeds
    rw [h.sent, hlength]
    have hstage := h.stage
    cases hstage with
    | gathering =>
      rw [Parcel.chunksTo_nil, List.append_nil]
      exact intake.emitted_prefix_succ rounds (pace.offer given) past.length destination
    | receiving =>
      rw [Parcel.chunksTo_nil, List.append_nil]
      exact intake.emitted_prefix_succ rounds (pace.offer given) past.length destination
    | @sending values _ rest hvalues hparcels =>
      rw [intake.emitted_succ (h.outcome?_eq hvalues), hparcels, Parcel.chunksTo_append,
        ← List.append_assoc]
      exact List.prefix_append _ _

/-! ## Rounds without haste -/

/-- The calls of a task come to what some inputs make of them, each to what its own one does. -/
structure Performs {γ : Type} (e : Endpoint type.Carrier) (inputs : List γ) (out : γ → Outcome β)
    (history : List Act) (jobs : List (Job β)) : Prop where
  result : ∀ (n : Nat) (job : Job β) (result : Except GroupError β), jobs[n]? = some job →
    job.result? = some result → ∃ input, inputs[n]? = some input ∧ result = (out input).result
  sent_prefix_inputs : ∀ destination, sentTo e.operator destination history <+:
    inputs.flatMap fun input => Parcel.chunksTo destination (out input).parcels

/-- Where nobody gives up, the call with number `m` is settled by the values with number `m`. -/
theorem performs_of_course {γ : Type} {inputs : List γ} {out : γ → Outcome β}
    (hp : e.passage.converter.Lawful) (hnodup : intake.sources.Nodup)
    (hknown : ∀ outcome ∈ rounds, ∀ values, ∀ parcel ∈ (outcome values).parcels,
      known parcel.destination)
    (h : Course known False (e.gatherings client intake rounds) history jobs)
    (hfeeds : e.Feeds intake.sources given history)
    (hout : ∀ m, intake.outcome? rounds (Pace.steady.offer given) m = inputs[m]?.map out) :
    e.Performs inputs out history jobs := by
  obtain ⟨pace, hsteady, hgathers⟩ := gathers_of_course hp hnodup False.elim hknown h hfeeds
  have hruns : ∀ m, pace.quits m = false := hsteady.resolve_left id
  have hoffer : pace.offer given = Pace.steady.offer given := by
    funext m
    rw [Pace.offer_of_steady fun k _ => hruns k, Pace.offer_of_steady fun _ _ => rfl]
  constructor
  · intro n job result hjob hresult
    rcases hgathers.ends hfeeds hjob (Option.isSome_of_eq_some hresult) with
      ⟨hquits, -⟩ | ⟨-, o, houtcome, ho⟩
    · rw [hruns n] at hquits
      cases hquits
    · rw [hoffer, hout] at houtcome
      obtain ⟨input, hinput, rfl⟩ := Option.map_eq_some_iff.1 houtcome
      exact ⟨input, hinput, Option.some.inj (hresult.symm.trans ho)⟩
  · intro destination
    have hsent := hgathers.sent_prefix_emitted hfeeds destination
    rw [hoffer, intake.emitted_eq_flatMap hout] at hsent
    exact hsent.trans (List.IsPrefix.flatMap (List.take_prefix _ _) _)

end Endpoint

end Collective
