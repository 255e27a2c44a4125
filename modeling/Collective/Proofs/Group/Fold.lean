import Collective.Proofs.Group.Gather
import Collective.Proofs.Group.Partial
import Collective.Proofs.Group.Tree

/-!
# Calls that fold

A task of a reduction gathers the values of its children, folds them with its own, and sends the
result to its parent; the root only folds. A call whose fold fails sends nothing, though it has
taken the values, and neither does one that gives up; the task goes on with its next call. So what a
task sends is counted by its calls that have not failed.
-/

namespace Collective

namespace Endpoint

variable {type : PayloadType} {e : Endpoint type.Carrier} {parent : String}
  {fold : List type.Carrier → Except ReductionError type.Carrier} {sources : List String}

/-- How the call of a task ends that folds its own value with those of its children. -/
def passUp (e : Endpoint type.Carrier)
    (fold : List type.Carrier → Except ReductionError type.Carrier) (parent : String)
    (value : type.Carrier) (others : List type.Carrier) : Outcome (Option type.Carrier) :=
  match fold (value :: others) with
  | .error error => ⟨[], .error (.reduction error)⟩
  | .ok result =>
    match e.passage.frames result with
    | .error error => ⟨[], .error (.serialization error)⟩
    | .ok frames => ⟨frames.map (Parcel.mk parent), .ok none⟩

/-- How the call of the root ends that folds the values of its children. -/
def total (fold : List type.Carrier → Except ReductionError type.Carrier)
    (others : List type.Carrier) : Outcome (Option type.Carrier) :=
  ⟨[], ((fold others).mapError .reduction).map some⟩

theorem map_gatherFrom {α β γ : Type} (f : β → γ) (sources : List String)
    (next : List α → Call α β) :
    (Call.gatherFrom sources next).map f =
      .gatherFrom sources fun values => (next values).map f := by
  cases sources <;> rfl

theorem map_sendReduce (hparent : e.place.parent = some parent) (value : type.Carrier) :
    (e.sendReduce fold value).map (fun _ => (none : Option type.Carrier)) =
      .gatherFrom e.place.children fun others => (e.passUp fold parent value others).call := by
  rw [sendReduce, withParent, hparent]
  dsimp only
  rw [map_gatherFrom]
  congr 1
  funext others
  rw [passUp]
  cases fold (value :: others) with
  | error error => rfl
  | ok result =>
    dsimp only
    rw [Call.sendValue]
    cases e.passage.frames result with
    | error error => rfl
    | ok frames =>
      dsimp only
      rw [Call.map_sendAll, List.flatMap_singleton]
      rfl

theorem map_receiveReduce :
    (e.receiveReduce fold).map some =
      .gatherFrom e.place.children fun others => (total fold others).call := by
  rw [receiveReduce, map_gatherFrom]
  rfl

theorem destination_of_mem_passUp {value : type.Carrier} {others : List type.Carrier}
    {parcel : Parcel} (h : parcel ∈ (e.passUp fold parent value others).parcels) :
    parcel.destination = parent := by
  rw [passUp] at h
  cases hfold : fold (value :: others) with
  | error error =>
    rw [hfold] at h
    cases h
  | ok result =>
    rw [hfold] at h
    dsimp only at h
    cases hframes : e.passage.frames result with
    | error error =>
      rw [hframes] at h
      cases h
    | ok frames =>
      rw [hframes] at h
      obtain ⟨_, -, rfl⟩ := List.mem_map.1 h
      rfl

/-- What a call comes to that folds, if its task and its children have a value for it. -/
theorem outcome?_passUp (own : List type.Carrier) (offer : Nat → String → Option type.Carrier)
    (m : Nat) :
    (Intake.gather sources).outcome? (own.map (e.passUp fold parent)) offer m =
      own[m]?.bind fun value => (sources.mapM (offer m)).map (e.passUp fold parent value) := by
  rw [Intake.outcome?, List.getElem?_map]
  cases own[m]? <;> rfl

/-- A call in which a task passes something on sends this, and has not failed. -/
theorem outcome?_of_passes (e : Endpoint type.Carrier) (parent : String)
    {own : List type.Carrier} {offer : Nat → String → Option type.Carrier} {m : Nat}
    {result : type.Carrier}
    (h : passes fold own (fun m => sources.mapM (offer m)) m = some result)
    (hround : e.passage.RoundTrips result) :
    (Intake.gather sources).outcome? (own.map (e.passUp fold parent)) offer m =
      some ⟨(e.passage.wire result).map (Parcel.mk parent), .ok none⟩ := by
  obtain ⟨value, others, hvalue, hothers, hfold⟩ := passes_eq_some_iff.1 h
  rw [outcome?_passUp, hvalue, Option.bind_some, hothers, Option.map_some, passUp, hfold]
  dsimp only
  rw [hround.frames_eq]

/-- A call that has ended in which a task passes on nothing has failed. -/
theorem outcome?_of_passes_eq_none (e : Endpoint type.Carrier) (parent : String)
    {own : List type.Carrier} {offer : Nat → String → Option type.Carrier} {m : Nat}
    (h : passes fold own (fun m => sources.mapM (offer m)) m = none) :
    (Intake.gather sources).outcome? (own.map (e.passUp fold parent)) offer m = none ∨
      ∃ error, (Intake.gather sources).outcome? (own.map (e.passUp fold parent)) offer m =
        some ⟨[], .error error⟩ := by
  rw [outcome?_passUp]
  cases hvalue : own[m]? with
  | none => exact .inl rfl
  | some value =>
    cases hothers : sources.mapM (offer m) with
    | none => exact .inl rfl
    | some others =>
      cases hfold : fold (value :: others) with
      | error error =>
        refine .inr ⟨.reduction error, ?_⟩
        rw [Option.bind_some, Option.map_some, passUp, hfold]
      | ok result =>
        rw [passes_eq_some_iff.2 ⟨value, others, hvalue, hothers, hfold⟩] at h
        cases h

/-- What a task sends its parent is the stream of what it passes on. -/
theorem emitted_passUp {own : List type.Carrier} {offer : Nat → String → Option type.Carrier}
    {n : Nat}
    (hround : ∀ result ∈ (passedOn fold own (fun m => sources.mapM (offer m)) n).map Prod.snd,
      e.passage.RoundTrips result) :
    (Intake.gather sources).emitted (own.map (e.passUp fold parent)) offer n parent =
      e.passage.stream
        ((passedOn fold own (fun m => sources.mapM (offer m)) n).map Prod.snd) := by
  rw [Intake.emitted, Passage.stream, passedOn, List.map_filterMap,
    List.filterMap_eq_flatMap_toList, List.flatMap_assoc]
  apply List.flatMap_congr
  intro m hm
  cases hpasses : passes fold own (fun m => sources.mapM (offer m)) m with
  | none =>
    rcases e.outcome?_of_passes_eq_none parent hpasses with hnone | ⟨error, herror⟩
    · rw [hnone]
      rfl
    · rw [herror]
      rfl
  | some result =>
    have hpassed := mem_passedOn_iff.2 ⟨List.mem_range.1 hm, hpasses⟩
    rw [e.outcome?_of_passes parent hpasses (hround result (List.mem_map_of_mem hpassed)),
      Option.elim_some, Parcel.chunksTo_map_mk, if_pos rfl]
    exact (List.append_nil _).symm

end Endpoint

/-! ## Calls that have not failed -/

/-- The call has ended with an error. -/
def Job.failed {β : Type} (job : Job β) : Bool :=
  match job.result? with
  | some (.error _) => true
  | _ => false

theorem Job.failed_of_timedOut {β : Type} {job : Job β} (h : job.timedOut = true) :
    job.failed = true := by
  rw [timedOut] at h
  split at h
  · next hresult => rw [failed, hresult]
  · cases h

/-- Calls that are all among those that are counted, and all of them but for the last one, come
first among those. -/
theorem filterMap_range_prefix {f : Nat → Option Nat} {p : Nat → Bool} {n : Nat}
    (hsome : ∀ m < n, ∀ k, f m = some k → k = m ∧ p m = true)
    (hnone : ∀ m, m + 1 < n → f m = none → p m = false) :
    (List.range n).filterMap f <+: (List.range n).filter p := by
  cases n with
  | zero => exact List.prefix_rfl
  | succ n =>
    have hpast : (List.range n).filterMap f = (List.range n).filter p := by
      rw [← List.filterMap_eq_filter]
      apply List.filterMap_congr
      intro m hm
      have hlt := List.mem_range.1 hm
      cases hf : f m with
      | none => rw [Option.guard, hnone m (by omega) hf]; rfl
      | some k =>
        obtain ⟨rfl, hp⟩ := hsome m (by omega) k hf
        rw [Option.guard, hp]
        rfl
    rw [List.range_succ, List.filterMap_append, List.filter_append, hpast,
      List.prefix_append_right_inj]
    cases hf : f n with
    | none =>
      rw [List.filterMap_cons_none hf]
      exact List.nil_prefix
    | some k =>
      obtain ⟨rfl, hp⟩ := hsome n (by omega) k hf
      rw [List.filterMap_cons_some hf, List.filter_singleton, hp]
      exact List.prefix_rfl

namespace System

variable {β : Type}

/-- What each task of a tree passes on in the calls that it has begun. -/
def partials {α : Type} (s : System β) (t : Topology) (fold : List α → Except ReductionError α)
    (values : String → List α) (paces : String → Pace) : String → List (Nat × α) :=
  t.partials fold values paces fun task => (s.callsOf task).length

/-- The numbers of the calls of a task that have not failed. -/
def passing (s : System β) (task : String) : List Nat :=
  (List.range (s.callsOf task).length).filter fun m =>
    ((s.callsOf task)[m]?).any fun job => !job.failed

/-- No call of a task before the one of a number has given up. -/
def patient (s : System β) (task : String) (n : Nat) : Prop :=
  ∀ m < n, ∀ job, (s.callsOf task)[m]? = some job → job.timedOut = false

theorem patient_of_passed {s : System β} {task : String} {n : Nat}
    (h : ∀ m ≤ n, ∀ job, (s.callsOf task)[m]? = some job → job.failed = false) :
    s.patient task n := by
  intro m hm job hjob
  cases hlate : job.timedOut with
  | false => rfl
  | true => exact (Job.failed_of_timedOut hlate).symm.trans (h m (Nat.le_of_lt hm) job hjob)

/-- If no call up to a number has failed, the call of that number is the one with that place among
those that have not failed. -/
theorem eq_of_passing {s : System β} {task : String} {n m : Nat}
    (h : ∀ k ≤ n, ∀ job, (s.callsOf task)[k]? = some job → job.failed = false)
    (hm : (s.passing task)[n]? = some m) : m = n := by
  rw [passing] at hm
  rcases Nat.lt_or_ge n (s.callsOf task).length with hlt | hge
  · obtain ⟨more, hmore⟩ := Nat.exists_eq_add_of_le (Nat.succ_le_of_lt hlt)
    have hfirst : (List.range (n + 1)).filter (fun k =>
        ((s.callsOf task)[k]?).any fun job => !job.failed) = List.range (n + 1) := by
      rw [List.filter_eq_self]
      intro k hk
      have hle := Nat.lt_succ_iff.1 (List.mem_range.1 hk)
      have hjob := List.getElem?_eq_getElem (Nat.lt_of_le_of_lt hle hlt)
      rw [hjob, Option.any_some, h k hle _ hjob]
      rfl
    rw [hmore, List.range_add, List.filter_append, hfirst,
      List.getElem?_append_left (by rw [List.length_range]; exact Nat.lt_succ_self n),
      List.getElem?_range (Nat.lt_succ_self n)] at hm
    exact (Option.some.inj hm).symm
  · have hlength := List.length_filter_le (fun k =>
      ((s.callsOf task)[k]?).any fun job => !job.failed) (List.range (s.callsOf task).length)
    rw [List.length_range] at hlength
    rw [List.getElem?_eq_none (Nat.le_trans hlength hge)] at hm
    cases hm

end System

end Collective
