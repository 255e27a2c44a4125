import Collective.Proofs.Group.Exchange
import Collective.Proofs.Group.Tree

/-!
# Plans

A plan says for each of several rounds what every task sends to every other one. Where each call of
a task does its part in its round, what the task has sent and taken is what the plan has for the
rounds before the one to which it has come, and a part of what it has for that one. No task takes
anything that the plan does not have for it: it would have been sent by another task that keeps to
the plan.
-/

namespace Collective

/-- A round of an operator: what every task sends to every other one. -/
structure Exchange where
  operator : String
  traffic : (source destination : String) → List (Chunk Bytes)

namespace Exchange

variable {plan : List Exchange} {x : Exchange} {operator source destination task : String}
  {tasks : List String} {m n : Nat}

/-- The chunks of an operator that a task sends to another one in the rounds of a plan. -/
def flow (plan : List Exchange) (operator source destination : String) : List (Chunk Bytes) :=
  plan.flatMap fun x => if x.operator = operator then x.traffic source destination else []

/-- No task is left out of a round and nobody else takes part in it, and the tasks can be reached
along the traffic from those that are sent nothing. -/
structure Orderly (x : Exchange) (tasks : List String) : Prop where
  known : ∀ source destination, x.traffic source destination ≠ [] →
    source ∈ tasks ∧ destination ∈ tasks
  active : ∀ task ∈ tasks, ∃ other, x.traffic task other ≠ [] ∨ x.traffic other task ≠ []
  induct : ∀ P : String → Prop,
    (∀ task ∈ tasks, (∀ source ∈ tasks, x.traffic source task ≠ [] → P source) → P task) →
    ∀ task ∈ tasks, P task

theorem flow_append (plan more : List Exchange) (operator source destination : String) :
    flow (plan ++ more) operator source destination =
      flow plan operator source destination ++ flow more operator source destination :=
  List.flatMap_append

theorem flow_take_succ (h : plan[n]? = some x) (operator source destination : String) :
    flow (plan.take (n + 1)) operator source destination =
      flow (plan.take n) operator source destination ++
        if x.operator = operator then x.traffic source destination else [] := by
  rw [List.take_add_one, h, Option.toList_some, flow_append]
  exact congrArg (_ ++ ·) (List.flatMap_singleton _ _)

/-- What the plan has for fewer rounds comes first in what it has for more. -/
theorem flow_take_prefix (h : m ≤ n) (plan : List Exchange)
    (operator source destination : String) :
    flow (plan.take m) operator source destination <+:
      flow (plan.take n) operator source destination := by
  obtain ⟨more, hmore⟩ := List.take_prefix_take_left (l := plan) h
  exact ⟨flow more operator source destination, by rw [← flow_append, hmore]⟩

theorem flow_take_prefix_flow (plan : List Exchange) (n : Nat)
    (operator source destination : String) :
    flow (plan.take n) operator source destination <+: flow plan operator source destination := by
  obtain ⟨more, hmore⟩ := List.take_prefix n plan
  exact ⟨flow more operator source destination, by rw [← flow_append, hmore]⟩

theorem exists_of_flow_ne_nil (h : flow plan operator source destination ≠ []) :
    ∃ x ∈ plan, x.traffic source destination ≠ [] := by
  obtain ⟨chunk, hchunk⟩ := List.exists_mem_of_ne_nil _ h
  obtain ⟨x, hx, hmem⟩ := List.mem_flatMap.1 hchunk
  refine ⟨x, hx, ?_⟩
  split at hmem
  · exact List.ne_nil_of_mem hmem
  · cases hmem

theorem known_of_flow_ne_nil (horderly : ∀ x ∈ plan, x.Orderly tasks)
    (h : flow (plan.take n) operator source destination ≠ []) :
    source ∈ tasks ∧ destination ∈ tasks := by
  obtain ⟨x, hx, hne⟩ := exists_of_flow_ne_nil h
  exact (horderly x (List.mem_of_mem_take hx)).known source destination hne

end Exchange

/-- A call that is about to do the part of a task in a round. -/
def Job.Performs {β : Type} (job : Job β) (x : Exchange) (task : String) : Prop :=
  job.operator = x.operator ∧ job.held = [] ∧
    ∃ outs, job.call.Exchanges job.passage (fun source => x.traffic source task) outs ∧
      ∀ destination, Parcel.chunksTo destination outs = x.traffic task destination

open Act (sentTo takenFrom)
open Exchange (flow)

/-! ## One task -/

section Task

variable {β : Type} {plan : List Exchange} {task : String} {tasks : List String}
  {history : List Act} {past jobs : List (Job β)} {job : Job β} {x : Exchange}
  {ins : String → List (Chunk Bytes)} {outs : List Parcel} {source : String} {chunk : Chunk Bytes}

/-- How far a task has come whose last call is part of a round: the calls before have succeeded,
and of what the plan has for the rounds up to this one, what the call still has to exchange is
missing. -/
structure Amid (plan : List Exchange) (task : String) (history : List Act) (past : List (Job β))
    (job : Job β) (x : Exchange) (ins : String → List (Chunk Bytes)) (outs : List Parcel) :
    Prop where
  ended : ∀ j ∈ past, ∃ value, j.result? = some (.ok value)
  turn : plan[past.length]? = some x
  operator_eq : job.operator = x.operator
  exchanges : job.call.Exchanges job.passage ins outs
  sent : ∀ operator destination, sentTo operator destination history ++
    (if x.operator = operator then Parcel.chunksTo destination outs else []) =
      flow (plan.take (past.length + 1)) operator task destination
  taken : ∀ operator source, takenFrom operator source history ++
    (if x.operator = operator then ins source else []) =
      flow (plan.take (past.length + 1)) operator source task
  sent_past : ∀ operator destination,
    flow (plan.take past.length) operator task destination <+: sentTo operator destination history
  taken_past : ∀ operator source,
    flow (plan.take past.length) operator source task <+: takenFrom operator source history

/-- What a task has done and the calls that it has begun keep to a plan. -/
def Conforms (plan : List Exchange) (task : String) (history : List Act) (jobs : List (Job β)) :
    Prop :=
  history = [] ∧ jobs = [] ∨
    ∃ past job x ins outs, jobs = past ++ [job] ∧ Amid plan task history past job x ins outs

namespace Amid

theorem send (h : Amid plan task history past job x ins outs) {parcel : Parcel}
    {rest : Call job.type.Carrier β} (hsent : job.call.sent? = some (parcel, rest)) :
    ∃ more, outs = parcel :: more ∧ Amid plan task (history ++ [.send job.operator parcel]) past
      { job with call := rest } x ins more := by
  obtain ⟨more, rfl, hrest⟩ := h.exchanges.of_sent? hsent
  refine ⟨more, rfl, h.ended, h.turn, h.operator_eq, hrest, ?_, ?_, ?_, ?_⟩
  · intro operator destination
    rw [← h.sent operator destination, Act.sentTo_append_send, h.operator_eq]
    by_cases hop : x.operator = operator
    · simp only [hop, true_and, if_true, Parcel.chunksTo_cons, List.append_assoc]
    · simp only [hop, false_and, if_false, List.append_nil]
  · intro operator source
    rw [Act.takenFrom_append_send]
    exact h.taken operator source
  · intro operator destination
    rw [Act.sentTo_append_send]
    exact (h.sent_past operator destination).trans (List.prefix_append _ _)
  · intro operator source
    rw [Act.takenFrom_append_send]
    exact h.taken_past operator source

/-- A call takes the chunk that is due, for what its task takes is a part of what the plan has for
it. -/
theorem take (h : Amid plan task history past job x ins outs)
    {call : Call job.type.Carrier β} (htake : job.call.take? job.passage source chunk = some call)
    (hpart : takenFrom job.operator source (history ++ [.take job.operator source chunk]) <+:
      flow plan job.operator source task) :
    ∃ more, ins source = chunk :: more ∧
      Amid plan task (history ++ [.take job.operator source chunk]) past { job with call } x
        (Function.update ins source more) outs := by
  obtain ⟨first, more, hins, hnext⟩ := h.exchanges.of_take? htake
  have htaken := h.taken job.operator source
  rw [if_pos h.operator_eq.symm, hins] at htaken
  have hfirst : first = chunk := by
    have hdue := Exchange.flow_take_prefix_flow plan (past.length + 1) job.operator source task
    rw [← htaken, List.append_cons] at hdue
    have hlonger := (List.prefix_append _ _).trans hdue
    rw [Act.takenFrom_append_take, if_pos ⟨rfl, rfl⟩] at hpart
    have hsame : takenFrom job.operator source history ++ [first] =
        takenFrom job.operator source history ++ [chunk] := by
      apply (List.prefix_of_prefix_length_le hlonger hpart ?_).eq_of_length
      · rw [List.length_append, List.length_append, List.length_singleton, List.length_singleton]
      · rw [List.length_append, List.length_append, List.length_singleton, List.length_singleton]
    exact List.head_eq_of_cons_eq (List.append_cancel_left hsame)
  subst hfirst
  refine ⟨more, hins, h.ended, h.turn, h.operator_eq, hnext rfl, ?_, ?_, ?_, ?_⟩
  · intro operator destination
    rw [Act.sentTo_append_take]
    exact h.sent operator destination
  · intro operator other
    rw [← h.taken operator other, Act.takenFrom_append_take, h.operator_eq]
    by_cases hop : x.operator = operator
    · by_cases hother : source = other
      · subst hother
        simp only [hop, and_self, if_true, Function.update_self, hins, List.append_assoc,
          List.singleton_append]
      · simp only [hop, hother, and_false, if_true, if_false, List.append_nil,
          Function.update_of_ne (Ne.symm hother)]
    · simp only [hop, false_and, if_false, List.append_nil]
  · intro operator destination
    rw [Act.sentTo_append_take]
    exact h.sent_past operator destination
  · intro operator other
    rw [Act.takenFrom_append_take]
    exact (h.taken_past operator other).trans (List.prefix_append _ _)

/-- What a call still has to send is for a task. -/
theorem destination_mem (h : Amid plan task history past job x ins outs)
    (horderly : ∀ x ∈ plan, x.Orderly tasks) {parcel : Parcel} (hmem : parcel ∈ outs) :
    parcel.destination ∈ tasks := by
  have hdue : Parcel.chunksTo parcel.destination outs ≠ [] :=
    List.ne_nil_of_mem (List.mem_filterMap.2 ⟨parcel, hmem, if_pos rfl⟩)
  have hflow := List.append_ne_nil_of_right_ne_nil
    (sentTo x.operator parcel.destination history) hdue
  have hsent := h.sent x.operator parcel.destination
  rw [if_pos rfl] at hsent
  rw [hsent] at hflow
  exact (Exchange.known_of_flow_ne_nil horderly hflow).2

/-- What a call still has to take comes from a task that sends it in the same round. -/
theorem traffic_ne_nil (h : Amid plan task history past job x ins outs)
    (hins : ins source ≠ []) : x.traffic source task ≠ [] := by
  intro hnone
  have htaken := h.taken x.operator source
  rw [Exchange.flow_take_succ h.turn, if_pos rfl, if_pos rfl, hnone, List.append_nil] at htaken
  have hpast := (h.taken_past x.operator source).length_le
  rw [← htaken, List.length_append] at hpast
  exact hins (List.length_eq_zero_iff.1 (by omega))

end Amid

namespace Conforms

theorem last (h : Conforms plan task history (past ++ [job])) :
    ∃ x ins outs, Amid plan task history past job x ins outs := by
  rcases h with ⟨-, hnil⟩ | ⟨past', job', x, ins, outs, hjobs, hamid⟩
  · cases past <;> cases hnil
  · obtain ⟨rfl, hjob⟩ := List.append_inj' hjobs rfl
    obtain rfl := List.head_eq_of_cons_eq hjob
    exact ⟨x, ins, outs, hamid⟩

/-- No call of a task that keeps to a plan has failed. -/
theorem not_failed (h : Conforms plan task history jobs) (hjob : job ∈ jobs) (e : GroupError) :
    job.result? ≠ some (.error e) := by
  intro hfailed
  rcases h with ⟨-, rfl⟩ | ⟨past, last, x, ins, outs, rfl, hamid⟩
  · cases hjob
  · rcases List.mem_append.1 hjob with hpast | hlast
    · obtain ⟨value, hvalue⟩ := hamid.ended job hpast
      rw [hvalue] at hfailed
      cases hfailed
    · obtain rfl := List.mem_singleton.1 hlast
      rw [Job.result?_eq] at hfailed
      obtain ⟨⟨value, hvalue⟩, -⟩ := hamid.exchanges.of_result? hfailed
      cases hvalue

/-- When all calls have ended, all that the plan has for their rounds has been exchanged. -/
theorem settled (h : Conforms plan task history jobs)
    (hended : ∀ j ∈ jobs, j.result?.isSome = true) :
    (∀ j ∈ jobs, ∃ value, j.result? = some (.ok value)) ∧
      (∀ operator destination, sentTo operator destination history =
        flow (plan.take jobs.length) operator task destination) ∧
      ∀ operator source, takenFrom operator source history =
        flow (plan.take jobs.length) operator source task := by
  have hok : ∀ j ∈ jobs, ∃ value, j.result? = some (.ok value) := by
    intro j hj
    obtain ⟨result, hresult⟩ := Option.isSome_iff_exists.1 (hended j hj)
    cases result with
    | ok value => exact ⟨value, hresult⟩
    | error e => exact absurd hresult (h.not_failed hj e)
  refine ⟨hok, ?_⟩
  rcases h with ⟨rfl, rfl⟩ | ⟨past, job, x, ins, outs, rfl, hamid⟩
  · exact ⟨fun _ _ => rfl, fun _ _ => rfl⟩
  · obtain ⟨value, hvalue⟩ := hok job (List.mem_append_right _ (List.mem_singleton.2 rfl))
    rw [Job.result?_eq] at hvalue
    obtain ⟨-, hins, rfl⟩ := hamid.exchanges.of_result? hvalue
    rw [List.length_append, List.length_singleton]
    constructor
    · intro operator destination
      rw [← hamid.sent operator destination, Parcel.chunksTo_nil, ite_self, List.append_nil]
    · intro operator source
      rw [← hamid.taken operator source, hins, ite_self, List.append_nil]

/-- The next call has all of its round to do. -/
theorem begin (h : Conforms plan task history jobs)
    (hended : ∀ j ∈ jobs, j.result?.isSome = true) (hx : plan[jobs.length]? = some x)
    (hjob : job.Performs x task) :
    ∃ outs, Amid plan task history jobs job x (fun source => x.traffic source task) outs := by
  obtain ⟨hok, hsent, htaken⟩ := h.settled hended
  obtain ⟨hoperator, -, outs, hexchanges, houts⟩ := hjob
  refine ⟨outs, hok, hx, hoperator, hexchanges, ?_, ?_, ?_, ?_⟩
  · intro operator destination
    rw [Exchange.flow_take_succ hx, hsent, houts]
  · intro operator source
    rw [Exchange.flow_take_succ hx, htaken]
  · intro operator destination
    exact ⟨[], by rw [List.append_nil, hsent]⟩
  · intro operator source
    exact ⟨[], by rw [List.append_nil, htaken]⟩

/-- A task sends nothing but what the plan has for it. -/
theorem sent_prefix_flow (h : Conforms plan task history jobs) (operator destination : String) :
    sentTo operator destination history <+: flow plan operator task destination := by
  rcases h with ⟨rfl, -⟩ | ⟨past, job, x, ins, outs, -, hamid⟩
  · exact List.nil_prefix
  · have hpart := Exchange.flow_take_prefix_flow plan (past.length + 1) operator task destination
    rw [← hamid.sent operator destination] at hpart
    exact (List.prefix_append _ _).trans hpart

end Conforms

/-- A task whose calls do their parts keeps to the plan as long as it takes nothing but what the
plan has for it. -/
theorem conforms_of_course {script : List (Job β)} (horderly : ∀ x ∈ plan, x.Orderly tasks)
    (hscript : List.Forall₂ (fun job x => job.Performs x task) script plan)
    (hcourse : Course (· ∈ tasks) False script history jobs)
    (hpart : ∀ operator, ∀ source ∈ tasks,
      takenFrom operator source history <+: flow plan operator source task) :
    Conforms plan task history jobs := by
  induction hcourse with
  | start => exact .inl ⟨rfl, rfl⟩
  | @begin history jobs job _ hended hnext ih =>
    obtain ⟨hlt, rfl⟩ := List.getElem?_eq_some_iff.1 hnext
    have hlength := hscript.length_eq
    have hx := List.getElem?_eq_getElem (hlength ▸ hlt)
    obtain ⟨outs, hamid⟩ := (ih hpart).begin hended hx (hscript.get hlt (hlength ▸ hlt))
    exact .inr ⟨jobs, _, _, _, outs, rfl, hamid⟩
  | @send history past job parcel rest _ hsent _ ih =>
    have hbefore : ∀ operator, ∀ source ∈ tasks,
        takenFrom operator source history <+: flow plan operator source task := by
      intro operator source hsource
      have hsame := hpart operator source hsource
      rwa [Act.takenFrom_append_send] at hsame
    obtain ⟨x, ins, outs, hamid⟩ := (ih hbefore).last
    obtain ⟨more, -, hnext⟩ := hamid.send hsent
    exact .inr ⟨past, _, x, ins, more, rfl, hnext⟩
  | @refuse history past job parcel rest e _ hsent hunknown ih =>
    obtain ⟨x, ins, outs, hamid⟩ := (ih hpart).last
    obtain ⟨more, rfl, -⟩ := hamid.send hsent
    exact absurd (hamid.destination_mem horderly List.mem_cons_self) hunknown
  | @take history past job source chunk call _ htake ih =>
    have hbefore : ∀ operator, ∀ source ∈ tasks,
        takenFrom operator source history <+: flow plan operator source task := by
      intro operator other hother
      have hlater := hpart operator other hother
      rw [Act.takenFrom_append_take] at hlater
      exact (List.prefix_append _ _).trans hlater
    obtain ⟨x, ins, outs, hamid⟩ := (ih hbefore).last
    have hsource : source ∈ tasks := by
      obtain ⟨first, more, hins, -⟩ := hamid.exchanges.of_take? htake
      have hdue : ins source ≠ [] := by
        rw [hins]
        exact List.cons_ne_nil _ _
      have hround := horderly x (List.mem_of_getElem? hamid.turn)
      exact (hround.known source task (hamid.traffic_ne_nil hdue)).1
    obtain ⟨more, -, hnext⟩ := hamid.take htake (hpart job.operator source hsource)
    exact .inr ⟨past, _, x, _, outs, rfl, hnext⟩
  | giveUp hhasty => exact hhasty.elim

end Task

/-! ## All tasks -/

section Tasks

variable {β : Type} {plan : List Exchange} {tasks : List String} {script : Nat → List (Job β)}
  {group task : String} {epoch : UInt64} {history later : Nat → List Act} {s t : System β}
  {start : Session} {i : Nat}

/-- Every call of every task does the part of the task in its round. -/
structure Planned (script : Nat → List (Job β)) (tasks : List String) (plan : List Exchange) :
    Prop where
  orderly : ∀ x ∈ plan, x.Orderly tasks
  performs : ∀ i task, tasks[i]? = some task →
    List.Forall₂ (fun job x => job.Performs x task) (script i) plan
  client_eq : ∀ i, ∀ job ∈ script i, job.client = i
  absent : ∀ i, tasks[i]? = none → script i = []

/-- No task has taken anything that the plan does not have for it. -/
def Within (plan : List Exchange) (tasks : List String) (history : Nat → List Act) : Prop :=
  ∀ i task, tasks[i]? = some task → ∀ operator, ∀ source ∈ tasks,
    takenFrom operator source (history i) <+: flow plan operator source task

namespace Planned

variable (h : Planned script tasks plan)

include h

theorem held_eq_nil (i : Nat) : ∀ job ∈ script i, job.held = [] := by
  intro job hjob
  cases htask : tasks[i]? with
  | none =>
    rw [h.absent i htask] at hjob
    cases hjob
  | some task =>
    obtain ⟨n, hlt, rfl⟩ := List.getElem_of_mem hjob
    have hall := h.performs i task htask
    exact (hall.get hlt (hall.length_eq ▸ hlt)).2.1

theorem conforms (htraced : s.Traced False script tasks group epoch history)
    (hwithin : Within plan tasks history) (hi : tasks[i]? = some task) :
    Conforms plan task (history i) ((s.jobsOf i).map Job.released) :=
  conforms_of_course h.orderly (h.performs i task hi) (htraced.course i) (hwithin i task hi)

/-- What a task takes next has been sent by a task that keeps to the plan. -/
theorem within_of_grows (htraced : s.Traced False script tasks group epoch history)
    (hgrows : Act.Grows history later) (hlater : t.Traced False script tasks group epoch later)
    (hwithin : Within plan tasks history) : Within plan tasks later := by
  rcases hgrows with rfl | ⟨client, act, rfl⟩
  · exact hwithin
  · intro i task hi operator source hsource
    obtain ⟨j, hj⟩ := List.getElem?_of_mem hsource
    cases act with
    | send op parcel =>
      rw [Act.takenFrom_log_send]
      exact hwithin i task hi operator source hsource
    | take op src chunk =>
      have hsent := (h.conforms htraced hwithin hj).sent_prefix_flow operator task
      have hflow := hlater.flow operator j i source task hj hi
      rw [Act.sentTo_log_take, List.append_assoc] at hflow
      rw [hflow] at hsent
      exact (List.prefix_append _ _).trans hsent

end Planned

/-- In a run that follows the script of a plan, no task takes anything that the plan does not have
for it. -/
theorem Planned.exists_within (h : Planned script start.tasks plan)
    (hstart : start.Connected group epoch) (hempty : ∀ c ∈ start.clients, c.mailboxes = .empty)
    (hrun : System.Reachable (System.Follows script) (.idle start) s) :
    ∃ history, s.Traced False script start.tasks group epoch history ∧
      Within plan start.tasks history := by
  refine System.Traced.exists_of_reachable hstart hempty h.held_eq_nil ?_ ?_
    (System.keeps_of_follows False hrun)
  · intro i task _ operator source _
    exact List.nil_prefix
  · intro s t history later htraced hgrows hlater hwithin
    exact h.within_of_grows htraced hgrows hlater hwithin

end Tasks

end Collective
