import Collective.Group.System
import Mathlib.Logic.Function.Basic

/-!
# Histories of a task

Seen from one task, a run is the list of chunks that it sends and takes. `Course` says to what such
a history brings the calls that the task makes from a script, one at a time: it does not mention
other tasks, mailboxes or messages under way, so what a call does is settled by what it is given
and, where receivers are hasty, by when it gives up.
-/

namespace Collective

/-- A chunk that a task sends or takes for one of its calls. -/
inductive Act where
  | send (operator : String) (parcel : Parcel)
  | take (operator source : String) (chunk : Chunk Bytes)
  deriving DecidableEq, Repr

namespace Act

variable {operator destination source : String}

/-- The chunks that a history sends to a task for an operator. -/
def sentTo (operator destination : String) (history : List Act) : List (Chunk Bytes) :=
  history.filterMap fun
    | .send op parcel =>
      if op = operator ∧ parcel.destination = destination then some parcel.chunk else none
    | .take .. => none

/-- The chunks that a history takes from a task for an operator. -/
def takenFrom (operator source : String) (history : List Act) : List (Chunk Bytes) :=
  history.filterMap fun
    | .send .. => none
    | .take op src chunk => if op = operator ∧ src = source then some chunk else none

@[simp] theorem sentTo_append_send (history : List Act) (op : String) (parcel : Parcel) :
    sentTo operator destination (history ++ [.send op parcel]) =
      sentTo operator destination history ++
        if op = operator ∧ parcel.destination = destination then [parcel.chunk] else [] := by
  rw [sentTo, List.filterMap_append, ← sentTo]
  split <;> simp_all

@[simp] theorem sentTo_append_take (history : List Act) (op src : String) (chunk : Chunk Bytes) :
    sentTo operator destination (history ++ [.take op src chunk]) =
      sentTo operator destination history := by
  simp [sentTo, List.filterMap_append]

@[simp] theorem takenFrom_append_send (history : List Act) (op : String) (parcel : Parcel) :
    takenFrom operator source (history ++ [.send op parcel]) =
      takenFrom operator source history := by
  simp [takenFrom, List.filterMap_append]

@[simp] theorem takenFrom_append_take (history : List Act) (op src : String)
    (chunk : Chunk Bytes) :
    takenFrom operator source (history ++ [.take op src chunk]) =
      takenFrom operator source history ++
        if op = operator ∧ src = source then [chunk] else [] := by
  rw [takenFrom, List.filterMap_append, ← takenFrom]
  split <;> simp_all

/-- The histories of all tasks after one more act of a client. -/
def log (history : Nat → List Act) (client : Nat) (act : Act) : Nat → List Act :=
  Function.update history client (history client ++ [act])

/-- The histories of all tasks after one more act of a client, or after none. -/
def Grows (history later : Nat → List Act) : Prop :=
  later = history ∨ ∃ client act, later = log history client act

variable {history : Nat → List Act} {client i : Nat}

theorem sentTo_log_send (op : String) (parcel : Parcel) :
    sentTo operator destination (log history client (.send op parcel) i) =
      sentTo operator destination (history i) ++
        if i = client ∧ op = operator ∧ parcel.destination = destination then [parcel.chunk]
        else [] := by
  by_cases h : i = client
  · subst h
    rw [log, Function.update_self, sentTo_append_send]
    simp only [true_and]
  · rw [log, Function.update_of_ne h, if_neg fun hi => h hi.1, List.append_nil]

theorem takenFrom_log_send (op : String) (parcel : Parcel) :
    takenFrom operator source (log history client (.send op parcel) i) =
      takenFrom operator source (history i) := by
  by_cases h : i = client
  · subst h
    rw [log, Function.update_self, takenFrom_append_send]
  · rw [log, Function.update_of_ne h]

theorem sentTo_log_take (op src : String) (chunk : Chunk Bytes) :
    sentTo operator destination (log history client (.take op src chunk) i) =
      sentTo operator destination (history i) := by
  by_cases h : i = client
  · subst h
    rw [log, Function.update_self, sentTo_append_take]
  · rw [log, Function.update_of_ne h]

theorem takenFrom_log_take (op src : String) (chunk : Chunk Bytes) :
    takenFrom operator source (log history client (.take op src chunk) i) =
      takenFrom operator source (history i) ++
        if i = client ∧ op = operator ∧ src = source then [chunk] else [] := by
  by_cases h : i = client
  · subst h
    rw [log, Function.update_self, takenFrom_append_take]
    simp only [true_and]
  · rw [log, Function.update_of_ne h, if_neg fun hi => h hi.1, List.append_nil]

end Act

namespace Call

variable {α β : Type}

/-- What a call has come to, if it has ended. -/
def result? : Call α β → Option (Except GroupError β)
  | .finished result => some result
  | _ => none

theorem result?_of_sent? {call : Call α β} {parcel : Parcel} {rest : Call α β}
    (h : call.sent? = some (parcel, rest)) : call.result? = none := by
  cases call <;> first | rfl | cases h

theorem result?_of_take? {p : Passage α} {source : String} {chunk : Chunk Bytes}
    {call next : Call α β} (h : call.take? p source chunk = some next) : call.result? = none := by
  cases call <;> first | rfl | cases h

theorem result?_of_mem_awaits {call : Call α β} {source : String} (h : source ∈ call.awaits) :
    call.result? = none := by
  cases call <;> first | rfl | cases h

/-- A call takes any chunk from a task for which it waits. -/
theorem exists_take?_of_mem_awaits {call : Call α β} {source : String} (p : Passage α)
    (h : source ∈ call.awaits) (chunk : Chunk Bytes) :
    ∃ next, call.take? p source chunk = some next := by
  cases call with
  | finished => cases h
  | send => cases h
  | receive arrival relay next =>
    obtain rfl := List.mem_singleton.1 h
    exact ⟨_, if_pos rfl⟩
  | gather incoming next =>
    have hanswer : ∃ answer, gatherChunk p source chunk incoming = some answer := by
      rw [awaits] at h
      induction incoming with
      | nil => cases h
      | cons first rest ih =>
        cases first with
        | complete value =>
          obtain ⟨answer, hanswer⟩ := ih h
          exact ⟨_, by rw [gatherChunk, hanswer]; rfl⟩
        | underway arrival =>
          rw [gatherChunk]
          split
          · exact ⟨_, rfl⟩
          · next hother =>
            obtain ⟨answer, hanswer⟩ := ih ((List.mem_cons.1 h).resolve_left (Ne.symm hother))
            exact ⟨_, by rw [hanswer]; rfl⟩
    obtain ⟨answer, hanswer⟩ := hanswer
    exact ⟨_, by rw [take?, hanswer]; rfl⟩

end Call

namespace Job

variable {β : Type}

theorem result?_eq (job : Job β) : job.result? = job.call.result? := by
  obtain ⟨client, operator, type, passage, begun, call, held⟩ := job
  cases call <;> rfl

/-- A call that a client has begun and that has come to `current`. -/
def running (client : Nat) (type : PayloadType) (e : Endpoint type.Carrier)
    (begun current : Call type.Carrier β) : Job β :=
  { new client type e begun with call := current }

theorem result?_running (client : Nat) (type : PayloadType) (e : Endpoint type.Carrier)
    (begun current : Call type.Carrier β) :
    (running client type e begun current).result? = current.result? :=
  result?_eq _

/-- The call without the queues that it has asked for. -/
def released (job : Job β) : Job β := { job with held := [] }

@[simp] theorem released_result? (job : Job β) : job.released.result? = job.result? := by
  rw [result?_eq, result?_eq, released]

/-- A call takes from a queue that it holds, and only what it waits for. -/
theorem of_queue? {job : Job β} {source : String} {queue : Nat}
    (h : job.queue? source = some queue) :
    source ∈ job.call.awaits ∧ job.held.lookup source = some queue := by
  rw [queue?] at h
  split at h
  · next hawaits => exact ⟨hawaits, h⟩
  · cases h

theorem released_of_held {job : Job β} (h : job.held = []) : job.released = job := by
  rw [released, ← h]

end Job

section Course

variable {β : Type}

/-- The calls to which a history brings a task that makes the calls of a script, each when the one
before it has ended. Only known tasks can be sent anything; a send to another one ends its call. So
does a receiver that gives up, if it is hasty. -/
inductive Course (known : String → Prop) (hasty : Prop) (script : List (Job β)) :
    List Act → List (Job β) → Prop
  | start : Course known hasty script [] []
  | begin {history : List Act} {jobs : List (Job β)} {job : Job β} :
    Course known hasty script history jobs → (∀ j ∈ jobs, j.result?.isSome = true) →
      script[jobs.length]? = some job → Course known hasty script history (jobs ++ [job])
  | send {history : List Act} {past : List (Job β)} {job : Job β} {parcel : Parcel}
      {rest : Call job.type.Carrier β} :
    Course known hasty script history (past ++ [job]) → job.call.sent? = some (parcel, rest) →
      known parcel.destination →
      Course known hasty script (history ++ [.send job.operator parcel])
        (past ++ [{ job with call := rest }])
  | refuse {history : List Act} {past : List (Job β)} {job : Job β} {parcel : Parcel}
      {rest : Call job.type.Carrier β} (e : GroupError) :
    Course known hasty script history (past ++ [job]) → job.call.sent? = some (parcel, rest) →
      ¬ known parcel.destination → Course known hasty script history (past ++ [job.fail e])
  | take {history : List Act} {past : List (Job β)} {job : Job β} {source : String}
      {chunk : Chunk Bytes} {call : Call job.type.Carrier β} :
    Course known hasty script history (past ++ [job]) →
      job.call.take? job.passage source chunk = some call →
      Course known hasty script (history ++ [.take job.operator source chunk])
        (past ++ [{ job with call }])
  | giveUp {history : List Act} {past : List (Job β)} {job : Job β} {source : String} :
    hasty → Course known hasty script history (past ++ [job]) → source ∈ job.call.awaits →
      Course known hasty script history (past ++ [job.fail (.timeout job.operator source)])

namespace Course

variable {known : String → Prop} {hasty : Prop} {script : List (Job β)} {history : List Act}
  {jobs : List (Job β)}

/-- Only the last call of a task can still go on. -/
theorem ended_before_last (h : Course known hasty script history jobs) :
    ∀ job ∈ jobs.dropLast, job.result?.isSome = true := by
  induction h with
  | start => simp
  | begin _ hended _ _ => simpa using hended
  | send _ _ _ ih => simpa using ih
  | refuse _ _ _ _ ih => simpa using ih
  | take _ _ ih => simpa using ih
  | giveUp _ _ _ ih => simpa using ih

/-- A task begins no more calls than its script has. -/
theorem length_le (h : Course known hasty script history jobs) :
    jobs.length ≤ script.length := by
  induction h with
  | start => exact Nat.zero_le _
  | begin _ _ hnext _ =>
    rw [List.length_append, List.length_singleton]
    exact (List.getElem?_eq_some_iff.1 hnext).1
  | send _ _ _ ih => simpa using ih
  | refuse _ _ _ _ ih => simpa using ih
  | take _ _ ih => simpa using ih
  | giveUp _ _ _ ih => simpa using ih

theorem last_of_open {pre post : List (Job β)} {job : Job β}
    (h : Course known hasty script history (pre ++ job :: post)) (hopen : job.result? = none) :
    post = [] := by
  cases post with
  | nil => rfl
  | cons next rest =>
    have hmem : job ∈ (pre ++ job :: next :: rest).dropLast := by simp
    have hended := h.ended_before_last job hmem
    rw [hopen] at hended
    cases hended

end Course

end Course

end Collective
