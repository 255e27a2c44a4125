import Collective.Proofs.Group.Plan
import Mathlib.Data.Nat.Find

/-!
# No task waits for ever

A group that keeps to a plan does not come to a stop before every task is through: somebody can
send, a message can arrive, or one that waits can be taken. Of the tasks that are not through, look
at those that are furthest behind. One of them waits for nothing, or it waits for chunks that
another task sends in the same round. That one has sent them if it is further on. If it is not, it
is one of those furthest behind, and closer to the tasks of the round that are sent nothing.
-/

namespace Collective

variable {β : Type}

namespace System

/-- The steps of a client that nobody else notices: it begins a call, or asks for a queue. -/
def Event.prepares : Event β → Prop
  | .begin _ | .hold _ _ => True
  | _ => False

/-- The steps that move a chunk: one is sent, arrives or is taken. -/
def Event.communicates : Event β → Prop
  | .send _ | .deliver _ | .take _ _ => True
  | _ => False

/-- A chunk can be sent, arrive or be taken, as soon as clients have got ready for it. -/
def CanMove (script : Nat → List (Job β)) (s : System β) : Prop :=
  ∃ u event t, Reachable (fun s event => s.Follows script event ∧ event.prepares) s u ∧
    event.communicates ∧ u.step? event = some t

/-- A client has begun all calls of so many rounds, and they have ended. -/
def Finished (s : System β) (i rounds : Nat) : Prop :=
  (s.jobsOf i).length = rounds ∧ s.isIdle i = true

/-- What a client does next is to go on with a call, which it has begun or is about to begin. -/
def Pending (s : System β) (script : Nat → List (Job β)) (i : Nat) (job : Job β) : Prop :=
  job.client = i ∧
    ((∃ current, current ∈ s.jobs ∧ current.released = job) ∨
      s.isIdle i = true ∧ (script i)[(s.jobsOf i).length]? = some job ∧ job.held = [])

section Steps

variable {script : Nat → List (Job β)} {tasks : List String} {group source : String}
  {epoch : UInt64} {history : Nat → List Act} {s u : System β} {number i : Nat}
  {job : Job β} {c : Client}

theorem CanMove.of_step {t : System β}
    (hready : Reachable (fun s event => s.Follows script event ∧ event.prepares) s u)
    (event : Event β) (hevent : event.communicates) (ht : u.step? event = some t) :
    s.CanMove script :=
  ⟨u, event, t, hready, hevent, ht⟩

/-! ## Single steps -/

theorem exists_send? {parcel : Parcel} {rest : Call job.type.Carrier β}
    (hjob : s.jobs[number]? = some job) (hc : s.client? job.client = some c)
    (hsent : job.call.sent? = some (parcel, rest)) : ∃ t, s.send? number = some t := by
  rw [send?, hjob]
  dsimp only [bind, Option.bind]
  rw [hsent]
  dsimp only
  rw [hc]
  dsimp only
  cases c.resolve s.session.names parcel.destination with
  | error e => exact ⟨_, rfl⟩
  | ok address =>
    dsimp only
    cases s.listener? address with
    | none => exact ⟨_, rfl⟩
    | some receiver => exact ⟨_, rfl⟩

/-- The first message under way can arrive. -/
theorem WellFormed.exists_deliver? (h : s.WellFormed tasks group epoch) (hsome : s.transit ≠ []) :
    ∃ t, s.deliver? 0 = some t := by
  obtain ⟨letter, rest, htransit⟩ := List.exists_cons_of_ne_nil hsome
  obtain ⟨hsource, hdestination, -, -⟩ := h.addressed letter (by rw [htransit]; simp)
  obtain ⟨d, hd, -⟩ := Option.map_eq_some_iff.1 ((h.getElem?_tasks _).symm.trans hsource)
  obtain ⟨c, hc, -⟩ := Option.map_eq_some_iff.1 ((h.getElem?_tasks _).symm.trans hdestination)
  obtain ⟨home, hhome, -⟩ :=
    Client.isPublished_iff.1 (h.connected.published d (List.mem_of_getElem? hd))
  have hfirst : s.transit[0]? = some letter := by rw [htransit]; rfl
  rw [deliver?, hfirst]
  dsimp only [bind, Option.bind]
  rw [hc]
  dsimp only
  rw [hd]
  dsimp only
  rw [hhome]
  exact ⟨_, if_neg nofun⟩

/-- A call that holds the queue of a task for which it waits can take what waits there. -/
theorem WellFormed.exists_take? {queue : Nat} (h : s.WellFormed tasks group epoch)
    (hjob : s.jobs[number]? = some job) (hawaits : source ∈ job.call.awaits)
    (hheld : job.held.lookup source = some queue)
    (hsome : s.waitingFrom job.operator source job.client ≠ []) :
    ∃ t, s.take? number source = some t := by
  obtain ⟨c, hc, hbox⟩ := h.held job (List.mem_of_getElem? hjob) source queue hheld
  have hqueue : job.queue? source = some queue := by rw [Job.queue?, if_pos hawaits, hheld]
  rw [waitingFrom_eq hc, ne_eq, List.map_eq_nil_iff, Mailboxes.waiting, hbox] at hsome
  obtain ⟨m, rest, hfirst⟩ := List.exists_cons_of_ne_nil hsome
  have hpop : c.mailboxes.pop? queue =
      some (m, { c.mailboxes with queues := c.mailboxes.queues.set queue rest }) := by
    have hcons : c.mailboxes.queue queue = m :: rest := hfirst
    rw [Mailboxes.pop?, hcons]
  obtain ⟨call, hcall⟩ :=
    Call.exists_take?_of_mem_awaits job.passage hawaits ⟨m.chunk, m.payload⟩
  rw [take?, hjob]
  dsimp only [bind, Option.bind]
  rw [hqueue]
  dsimp only
  rw [hc]
  dsimp only
  rw [Client.pop?, hpop]
  dsimp only [Option.map]
  by_cases hfresh : c.epoch ≤ m.epoch
  · rw [if_pos hfresh]
    dsimp only
    rw [hcall]
    exact ⟨_, rfl⟩
  · rw [if_neg hfresh]
    exact ⟨_, rfl⟩

/-- A call can ask for the queue of a task for which it waits, and then it holds it. -/
theorem exists_hold? (hjob : s.jobs[number]? = some job) (hc : s.client? job.client = some c)
    (hawaits : source ∈ job.call.awaits) (hheld : job.held.lookup source = none) :
    ∃ t queue, s.hold? number source = some t ∧
      t.jobs[number]? = some { job with held := (source, queue) :: job.held } ∧
      t.waitingFrom job.operator source job.client =
        s.waitingFrom job.operator source job.client := by
  obtain ⟨hlt, -⟩ := List.getElem?_eq_some_iff.1 hjob
  refine ⟨(s.putClient job.client (c.openQueue ⟨job.operator, source⟩).1).putJob number
    { job with held := (source, (c.openQueue ⟨job.operator, source⟩).2) :: job.held },
    (c.openQueue ⟨job.operator, source⟩).2, ?_, ?_, ?_⟩
  · rw [hold?, hjob]
    dsimp only [bind, Option.bind]
    rw [hc]
    dsimp only
    rw [if_pos ⟨hawaits, hheld⟩]
  · exact List.getElem?_set_self hlt
  · exact waitingFrom_openQueue hc ⟨job.operator, source⟩ job.operator source job.client

/-! ## Getting ready -/

/-- A client can begin the call that it is to go on with. -/
theorem Traced.exists_begun (h : s.Traced False script tasks group epoch history)
    (hpending : s.Pending script i job) :
    ∃ (u : System β) (number : Nat) (held : List (String × Nat)),
      Reachable (fun s event => s.Follows script event ∧ event.prepares) s u ∧
      u.Traced False script tasks group epoch history ∧
      u.jobs[number]? = some { job with held } ∧ u.waitingFrom = s.waitingFrom := by
  obtain ⟨rfl, ⟨current, hmem, rfl⟩ | ⟨hidle, hnext, hheld⟩⟩ := hpending
  · obtain ⟨number, hnumber⟩ := List.getElem?_of_mem hmem
    exact ⟨s, number, current.held, .start, h, hnumber, rfl⟩
  · have hallowed : s.Follows script (.begin job) ∧ (Event.begin job).prepares :=
      ⟨⟨hidle, hnext⟩, trivial⟩
    exact ⟨{ s with jobs := s.jobs ++ [job] }, s.jobs.length, job.held,
      .step .start hallowed rfl, h.begin hheld hidle hnext, List.getElem?_concat_length, rfl⟩

theorem WellFormed.exists_client (h : s.WellFormed tasks group epoch) (hi : i < tasks.length) :
    ∃ c, s.client? i = some c := by
  obtain ⟨c, hc, -⟩ := Option.map_eq_some_iff.1
    ((h.getElem?_tasks i).symm.trans (List.getElem?_eq_getElem hi))
  exact ⟨c, hc⟩

/-- A call that is to send can send. -/
theorem Traced.canMove_of_sent? (h : s.Traced False script tasks group epoch history)
    (hpending : s.Pending script i job) (hi : i < tasks.length) {parcel : Parcel}
    {rest : Call job.type.Carrier β} (hsent : job.call.sent? = some (parcel, rest)) :
    s.CanMove script := by
  obtain ⟨u, number, held, hready, hu, hcurrent, -⟩ := h.exists_begun hpending
  obtain ⟨rfl, -⟩ := hpending
  obtain ⟨c, hc⟩ := hu.exists_client hi
  obtain ⟨t, ht⟩ := exists_send? hcurrent hc hsent
  exact .of_step hready (.send number) trivial ht

/-- A call that waits for a task can take what waits in the task's mailbox. -/
theorem Traced.canMove_of_waiting (h : s.Traced False script tasks group epoch history)
    (hpending : s.Pending script i job) (hawaits : source ∈ job.call.awaits)
    (hi : i < tasks.length) (hsome : s.waitingFrom job.operator source i ≠ []) :
    s.CanMove script := by
  obtain ⟨u, number, held, hready, hu, hcurrent, hwaiting⟩ := h.exists_begun hpending
  obtain ⟨rfl, -⟩ := hpending
  rw [← hwaiting] at hsome
  cases hheld : held.lookup source with
  | some queue =>
    obtain ⟨t, ht⟩ := hu.exists_take? hcurrent hawaits hheld hsome
    exact .of_step hready (.take number source) trivial ht
  | none =>
    -- the call asks for the queue first, and what waits there stays the same
    obtain ⟨c, hc⟩ := hu.exists_client hi
    obtain ⟨v, queue, hv, hholds, hsame⟩ := exists_hold? hcurrent hc hawaits hheld
    have hallowed : u.Follows script (.hold number source) ∧
        (Event.hold number source : Event β).prepares := ⟨trivial, trivial⟩
    have hasked := hready.step hallowed hv
    rw [← hsame] at hsome
    obtain ⟨t, ht⟩ := (hu.hold hv).exists_take? hholds hawaits List.lookup_cons_self hsome
    exact .of_step hasked (.take number source) trivial ht

end Steps

end System

/-! ## The tasks that are furthest behind -/

section Rounds

variable {plan : List Exchange} {tasks : List String} {script : Nat → List (Job β)}
  {group task : String} {epoch : UInt64} {history : Nat → List Act} {s : System β} {i j n : Nat}

open Act (sentTo takenFrom)
open Exchange (flow)

/-- The task of a client has come to a round of a plan, and its call for it has not ended. -/
def System.Stands (s : System β) (script : Nat → List (Job β)) (plan : List Exchange)
    (history : Nat → List Act) (i : Nat) (task : String) (n : Nat) : Prop :=
  ∃ past job x ins outs, past.length = n ∧ Amid plan task (history i) past job x ins outs ∧
    job.result? = none ∧ s.Pending script i job

/-- All calls of an idle client have ended. -/
theorem System.ended_of_isIdle (hidle : s.isIdle i = true) :
    ∀ job ∈ (s.jobsOf i).map Job.released, job.result?.isSome = true := by
  intro job hjob
  obtain ⟨current, hcurrent, rfl⟩ := List.mem_map.1 hjob
  rw [Job.released_result?]
  exact List.all_eq_true.1 hidle current hcurrent

theorem Conforms.length_le {jobs : List (Job β)} {acts : List Act}
    (h : Conforms plan task acts jobs) : jobs.length ≤ plan.length := by
  rcases h with ⟨-, rfl⟩ | ⟨past, job, x, ins, outs, rfl, hamid⟩
  · exact Nat.zero_le _
  · rw [List.length_append, List.length_singleton]
    exact (List.getElem?_eq_some_iff.1 hamid.turn).1

namespace Planned

variable (h : Planned script tasks plan)
  (htraced : s.Traced False script tasks group epoch history)
  (hwithin : Within plan tasks history)

include h

/-- A call has something to do in every round. -/
theorem result?_of_performs {job : Job β} {x : Exchange} (hx : x ∈ plan) (htask : task ∈ tasks)
    (hjob : job.Performs x task) : job.result? = none := by
  obtain ⟨-, -, outs, hexchanges, houts⟩ := hjob
  rw [Job.result?_eq]
  apply hexchanges.result?_eq_none
  obtain ⟨other, hout | hin⟩ := (h.orderly x hx).active task htask
  · left
    rintro rfl
    exact hout (houts other).symm
  · exact .inr ⟨other, hin⟩

include htraced hwithin

/-- A task is through, or it stands at a round. -/
theorem finished_or_stands (hi : tasks[i]? = some task) :
    s.Finished i plan.length ∨ ∃ n, s.Stands script plan history i task n := by
  have hconforms := h.conforms htraced hwithin hi
  have hscript := h.performs i task hi
  cases hidle : s.isIdle i with
  | true =>
    have hle := hconforms.length_le
    rw [List.length_map] at hle
    rcases Nat.eq_or_lt_of_le hle with heq | hlt
    · exact .inl ⟨heq, hidle⟩
    · right
      have hnext : (s.jobsOf i).length < (script i).length := by rwa [hscript.length_eq]
      have hjob := List.getElem?_eq_getElem hnext
      have hx : plan[((s.jobsOf i).map Job.released).length]? =
          some plan[(s.jobsOf i).length] := by
        rw [List.length_map]
        exact List.getElem?_eq_getElem hlt
      have hperforms := hscript.get hnext hlt
      obtain ⟨outs, hamid⟩ := hconforms.begin (System.ended_of_isIdle hidle) hx hperforms
      refine ⟨_, _, _, _, _, outs, rfl, hamid, ?_, h.client_eq i _ (List.getElem_mem hnext),
        .inr ⟨hidle, hjob, hperforms.2.1⟩⟩
      exact h.result?_of_performs (List.getElem_mem hlt) (List.mem_of_getElem? hi) hperforms
  | false =>
    right
    obtain ⟨current, hcurrent, hopen⟩ := List.all_eq_false.1 hidle
    rw [Bool.not_eq_true, Option.isSome_eq_false_iff, Option.isNone_iff_eq_none] at hopen
    obtain ⟨past, post, hjobs⟩ := List.append_of_mem hcurrent
    have hcourse := htraced.course i
    rw [hjobs, List.map_append, List.map_cons] at hcourse hconforms
    have hlast := hcourse.last_of_open (by rw [Job.released_result?, hopen])
    rw [hlast] at hconforms
    obtain ⟨x, ins, outs, hamid⟩ := hconforms.last
    obtain ⟨hmem, hclient⟩ := List.mem_filter.1 hcurrent
    exact ⟨_, _, _, _, _, _, rfl, hamid, (Job.released_result? current).trans hopen,
      of_decide_eq_true hclient, .inl ⟨current, hmem, rfl⟩⟩

/-- A task that is further on has sent all that the plan has for a round. -/
theorem flow_prefix_sent (hi : tasks[i]? = some task) {m : Nat} (hm : m ≤ plan.length)
    (hahead : ∀ n, s.Stands script plan history i task n → m ≤ n) (operator destination : String) :
    flow (plan.take m) operator task destination <+: sentTo operator destination (history i) := by
  rcases h.finished_or_stands htraced hwithin hi with ⟨hlength, hidle⟩ | ⟨n, hstands⟩
  · obtain ⟨-, hsent, -⟩ :=
      (h.conforms htraced hwithin hi).settled (System.ended_of_isIdle hidle)
    rw [hsent, List.length_map, hlength]
    exact Exchange.flow_take_prefix hm plan operator task destination
  · have hle := hahead n hstands
    obtain ⟨past, job, x, ins, outs, rfl, hamid, -, -⟩ := hstands
    exact (Exchange.flow_take_prefix hle plan operator task destination).trans
      (hamid.sent_past operator destination)

/-- Where no task stands at an earlier round, a chunk can move if one stands at this one. -/
theorem canMove_of_stands (hbehind : ∀ m < n, ∀ i task, tasks[i]? = some task →
      ¬ s.Stands script plan history i task m) :
    ∀ task ∈ tasks, ∀ i, tasks[i]? = some task → s.Stands script plan history i task n →
      s.CanMove script := by
  cases hx : plan[n]? with
  | none =>
    rintro task - i hi ⟨past, job, y, ins, outs, rfl, hamid, -⟩
    rw [hamid.turn] at hx
    cases hx
  | some x =>
  refine (h.orderly x (List.mem_of_getElem? hx)).induct _ ?_
  rintro task - ih i hi ⟨past, job, y, ins, outs, rfl, hamid, hopen, hpending⟩
  obtain rfl := Option.some.inj (hx.symm.trans hamid.turn)
  obtain ⟨hlt, -⟩ := List.getElem?_eq_some_iff.1 hi
  rw [Job.result?_eq] at hopen
  rcases hamid.exchanges.of_open hopen with ⟨parcel, rest, hsent⟩ | ⟨source, hawaits, hins⟩
  · exact htraced.canMove_of_sent? hpending hlt hsent
  by_cases htransit : s.transit = []
  swap
  · obtain ⟨t, ht⟩ := htraced.exists_deliver? htransit
    exact .of_step .start (.deliver 0) trivial ht
  by_cases hwaiting : s.waitingFrom job.operator source i = []
  swap
  · exact htraced.canMove_of_waiting hpending hawaits hlt hwaiting
  -- nothing is on its way, so the task has taken all that the source has sent
  have htraffic := hamid.traffic_ne_nil hins
  obtain ⟨hsource, -⟩ :=
    (h.orderly x (List.mem_of_getElem? hx)).known source task htraffic
  obtain ⟨j, hj⟩ := List.getElem?_of_mem hsource
  have hflow := htraced.flow job.operator j i source task hj hi
  have hnone : Letter.pieces job.operator j i s.transit = [] := by rw [htransit]; rfl
  rw [hwaiting, hnone, List.append_nil, List.append_nil] at hflow
  by_cases hsame : s.Stands script plan history j source past.length
  · exact ih source hsource htraffic j hj hsame
  -- the source is further on, and yet it has not sent what is due
  have hahead : ∀ m, s.Stands script plan history j source m → past.length + 1 ≤ m := by
    intro m hm
    by_contra hlow
    rcases Nat.eq_or_lt_of_le (Nat.le_of_lt_succ (Nat.lt_of_not_ge hlow)) with rfl | hless
    · exact hsame hm
    · exact hbehind m hless j source hj hm
  have hround := (List.getElem?_eq_some_iff.1 hx).1
  have hsent := h.flow_prefix_sent htraced hwithin hj hround hahead job.operator task
  have htaken := hamid.taken job.operator source
  rw [if_pos hamid.operator_eq.symm] at htaken
  have hlength := hsent.length_le
  rw [hflow, ← htaken, List.length_append] at hlength
  exact absurd (List.length_eq_zero_iff.1 (by omega)) hins

/-- A group that keeps to a plan can go on until all tasks are through. -/
theorem canMove (hi : tasks[i]? = some task) (hopen : ¬ s.Finished i plan.length) :
    s.CanMove script := by
  have hsome : ∃ n, ∃ i task, tasks[i]? = some task ∧ s.Stands script plan history i task n := by
    obtain ⟨n, hn⟩ := (h.finished_or_stands htraced hwithin hi).resolve_left hopen
    exact ⟨n, i, task, hi, hn⟩
  classical
  obtain ⟨j, other, hj, hstands⟩ := Nat.find_spec hsome
  refine h.canMove_of_stands htraced hwithin ?_ other (List.mem_of_getElem? hj) j hj hstands
  intro m hm k third hk hearlier
  exact Nat.find_min hsome hm ⟨k, third, hk, hearlier⟩

/-- In a group that keeps to a plan no call fails. -/
theorem not_failed {job : Job β} (hjob : job ∈ s.jobs) (e : GroupError) :
    job.result? ≠ some (.error e) := by
  have hmem : job ∈ s.jobsOf job.client := List.mem_filter.2 ⟨hjob, decide_eq_true rfl⟩
  have hreleased : job.released ∈ (s.jobsOf job.client).map Job.released :=
    List.mem_map_of_mem hmem
  cases htask : tasks[job.client]? with
  | some task =>
    rw [← Job.released_result?]
    exact (h.conforms htraced hwithin htask).not_failed hreleased e
  | none =>
    have hle := (htraced.course job.client).length_le
    rw [h.absent _ htask] at hle
    rw [List.length_eq_zero_iff.1 (Nat.le_zero.1 hle)] at hreleased
    cases hreleased

end Planned

end Rounds

end Collective
