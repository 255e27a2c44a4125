import Collective.Proofs.Group.History
import Collective.Proofs.Group.Network

/-!
# Runs of a group

In a run that follows a script, every client makes the calls of its script one after the other and
nothing fails; in one that keeps to it, receivers may be hasty and give up. Such a run splits into
one history per task. `Traced` says how the histories and the state fit together: the calls of a
client are those to which its history brings its script, and what one task has sent to another is
what the other one has taken, then what waits in its mailbox, then what is under way.
-/

namespace Collective.System

variable {β : Type}

/-- Every client makes the calls of its script, one at a time; no receiver gives up, no bundle
changes and no client leaves. -/
def Follows (script : Nat → List (Job β)) (s : System β) : Event β → Prop
  | .begin job =>
    s.isIdle job.client = true ∧
      (script job.client)[(s.jobsOf job.client).length]? = some job
  | .send _ | .hold _ _ | .take _ _ | .deliver _ => True
  | .giveUp _ _ | .reconfigure _ _ | .install _ | .shutdown _ => False

/-- Every client makes the calls of its script, one at a time; receivers give up only if they are
hasty, no bundle changes and no client leaves. -/
def Keeps (hasty : Prop) (script : Nat → List (Job β)) (s : System β) : Event β → Prop
  | .giveUp _ _ => hasty
  | event => s.Follows script event

theorem Follows.keeps {hasty : Prop} {script : Nat → List (Job β)} {s : System β}
    {event : Event β} (h : s.Follows script event) : s.Keeps hasty script event := by
  cases event with
  | giveUp number source => cases h
  | _ => exact h

/-- A run that follows a script keeps to it. -/
theorem keeps_of_follows (hasty : Prop) {script : Nat → List (Job β)} {start s : System β}
    (h : Reachable (Follows script) start s) : Reachable (Keeps hasty script) start s := by
  induction h with
  | start => exact .start
  | step _ hallowed ht ih => exact .step ih hallowed.keeps ht

/-- Histories of the tasks that explain the state of a system. -/
structure Traced (hasty : Prop) (script : Nat → List (Job β)) (tasks : List String)
    (group : String) (epoch : UInt64) (history : Nat → List Act) (s : System β) : Prop
    extends s.WellFormed tasks group epoch where
  course : ∀ i, Course (· ∈ tasks) hasty (script i) (history i) ((s.jobsOf i).map Job.released)
  sent : ∀ operator i j destination, tasks[j]? = some destination →
    Letter.pieces operator i j s.sent = Act.sentTo operator destination (history i)
  flow : ∀ operator i j source destination,
    tasks[i]? = some source → tasks[j]? = some destination →
    Act.sentTo operator destination (history i) =
      Act.takenFrom operator source (history j) ++ s.waitingFrom operator source j ++
        Letter.pieces operator i j s.transit

namespace Traced

variable {hasty : Prop} {script : Nat → List (Job β)} {tasks : List String} {group : String}
  {epoch : UInt64} {history : Nat → List Act} {s t : System β} {number : Nat}

/-- A step of a call that goes on is one of the course of its client. -/
theorem course_putJob (h : Traced hasty script tasks group epoch history s) {job : Job β}
    (hjob : s.jobs[number]? = some job) (hopen : job.result? = none) (job' : Job β)
    (hclient : job'.client = job.client) {acts : List Act}
    (hstep : ∀ past, Course (· ∈ tasks) hasty (script job.client) (history job.client)
      (past ++ [job.released]) →
      Course (· ∈ tasks) hasty (script job.client) acts (past ++ [job'.released])) (i : Nat) :
    Course (· ∈ tasks) hasty (script i) (Function.update history job.client acts i)
      (((s.putJob number job').jobsOf i).map Job.released) := by
  obtain ⟨pre, post, hbefore, hafter⟩ := jobsOf_putJob hjob
  obtain ⟨hown, hother⟩ := hafter job' hclient
  by_cases hi : i = job.client
  · subst hi
    have hcourse := h.course job.client
    rw [hbefore, List.map_append, List.map_cons] at hcourse
    have hlast := hcourse.last_of_open (by rw [Job.released_result?, hopen])
    rw [List.map_eq_nil_iff] at hlast
    subst hlast
    rw [Function.update_self, hown, List.map_append, List.map_singleton]
    exact hstep _ hcourse
  · rw [Function.update_of_ne hi, hother i hi]
    exact h.course i

theorem begin (h : Traced hasty script tasks group epoch history s) {job : Job β}
    (hheld : job.held = []) (hidle : s.isIdle job.client = true)
    (hnext : (script job.client)[(s.jobsOf job.client).length]? = some job) :
    Traced hasty script tasks group epoch history { s with jobs := s.jobs ++ [job] } := by
  refine { h with held := ?_, course := ?_ }
  · intro job' hjob' source number hlookup
    rcases List.mem_append.1 hjob' with hold | hnew
    · exact h.held job' hold source number hlookup
    · obtain rfl := List.mem_singleton.1 hnew
      rw [hheld] at hlookup
      cases hlookup
  · intro i
    rw [jobsOf_append]
    split
    · next hi =>
      subst hi
      rw [List.map_append, List.map_singleton, Job.released_of_held hheld]
      refine (h.course job.client).begin ?_ (by rw [List.length_map]; exact hnext)
      intro j hj
      obtain ⟨k, hk, rfl⟩ := List.mem_map.1 hj
      rw [Job.released_result?]
      exact List.all_eq_true.1 hidle k hk
    · exact h.course i

theorem send (h : Traced hasty script tasks group epoch history s) (ht : s.send? number = some t) :
    ∃ later, Act.Grows history later ∧ Traced hasty script tasks group epoch later t := by
  obtain ⟨job, hjob, ht⟩ := Option.bind_eq_some_iff.1 ht
  obtain ⟨⟨parcel, rest⟩, hsent, ht⟩ := Option.bind_eq_some_iff.1 ht
  obtain ⟨c, hc, ht⟩ := Option.bind_eq_some_iff.1 ht
  have hopen : job.result? = none := by rw [Job.result?_eq, Call.result?_of_sent? hsent]
  have hheld := h.held job (List.mem_of_getElem? hjob)
  dsimp only at ht
  by_cases hmem : parcel.destination ∈ tasks
  · obtain ⟨address, receiver, hresolve, hlistener, hreceiver⟩ := h.exists_listener hc hmem
    rw [hresolve] at ht
    dsimp only at ht
    rw [hlistener] at ht
    obtain rfl := Option.some.inj ht
    have hwf := h.putJob number { job with call := rest } hheld
    have hcourse := h.course_putJob hjob hopen { job with call := rest } rfl
      fun past hpast => hpast.send hsent hmem
    refine ⟨Act.log history job.client (.send job.operator parcel), .inr ⟨_, _, rfl⟩,
      ⟨{ hwf with addressed := ?_ }, hcourse, ?_, ?_⟩⟩
    · intro l hl
      rcases List.mem_append.1 hl with hl | hl
      · exact h.addressed l hl
      · obtain rfl := List.mem_singleton.1 hl
        have hattends := h.connected.attends c (List.mem_of_getElem? hc)
        exact ⟨by rw [h.getElem?_tasks, hc]; rfl, hreceiver, hattends.group_eq, hattends.epoch_eq⟩
    · intro operator i j destination hj
      rw [Letter.pieces_append, Act.sentTo_log_send, h.pieces_stamp hreceiver hj]
      exact congrArg (· ++ _) (h.sent operator i j destination hj)
    · intro operator i j source destination hi hj
      rw [Letter.pieces_append, Act.sentTo_log_send, Act.takenFrom_log_send,
        h.pieces_stamp hreceiver hj, h.flow operator i j source destination hi hj,
        ← List.append_assoc]
      rfl
  · obtain ⟨e, hresolve⟩ := h.exists_error hc hmem
    rw [hresolve] at ht
    obtain rfl := Option.some.inj ht
    refine ⟨history, .inl rfl,
      ⟨h.putJob number (job.fail e) (fun _ _ hlookup => nomatch hlookup), ?_, h.sent, h.flow⟩⟩
    intro i
    have hcourse := h.course_putJob hjob hopen (job.fail e) rfl
      (fun past hpast => hpast.refuse e hsent hmem) i
    rwa [Function.update_eq_self] at hcourse

theorem hold {source : String} (h : Traced hasty script tasks group epoch history s)
    (ht : s.hold? number source = some t) : Traced hasty script tasks group epoch history t := by
  obtain ⟨job, hjob, ht⟩ := Option.bind_eq_some_iff.1 ht
  obtain ⟨c, hc, ht⟩ := Option.bind_eq_some_iff.1 ht
  split at ht
  · next hawaits =>
    obtain rfl := Option.some.inj ht
    have hclient := h.openQueue hc ⟨job.operator, source⟩
    have hqueue : (c.openQueue ⟨job.operator, source⟩).1.mailboxes.number? ⟨job.operator, source⟩ =
        some (c.openQueue ⟨job.operator, source⟩).2 := by
      have hnumber := Mailboxes.number?_opened c.mailboxes ⟨job.operator, source⟩
      rw [Client.openQueue, hnumber, if_pos rfl]
    refine ⟨hclient.putJob number _ ?_, ?_, h.sent, ?_⟩
    · intro src queue hlookup
      by_cases hsrc : src = source
      · subst hsrc
        rw [List.lookup_cons_self] at hlookup
        obtain rfl := Option.some.inj hlookup
        exact ⟨_, by rw [client?_putClient hc, if_pos rfl], hqueue⟩
      · rw [List.lookup_cons, beq_false_of_ne hsrc] at hlookup
        exact hclient.held job (List.mem_of_getElem? hjob) src queue hlookup
    · intro i
      have hopen : job.result? = none := by
        rw [Job.result?_eq, Call.result?_of_mem_awaits hawaits.1]
      have hcourse := h.course_putJob hjob hopen
        { job with held := (source, (c.openQueue ⟨job.operator, source⟩).2) :: job.held } rfl
        (fun _ hpast => hpast) i
      rwa [Function.update_eq_self] at hcourse
    · intro operator i j src dst hi hj
      rw [h.flow operator i j src dst hi hj,
        ← waitingFrom_openQueue hc ⟨job.operator, source⟩ operator src j]
      rfl
  · cases ht

theorem take {source : String} (h : Traced hasty script tasks group epoch history s)
    (ht : s.take? number source = some t) :
    ∃ later, Act.Grows history later ∧ Traced hasty script tasks group epoch later t := by
  obtain ⟨job, hjob, ht⟩ := Option.bind_eq_some_iff.1 ht
  obtain ⟨queue, hqueue, ht⟩ := Option.bind_eq_some_iff.1 ht
  obtain ⟨c, hc, ht⟩ := Option.bind_eq_some_iff.1 ht
  obtain ⟨⟨d, message⟩, hpop, ht⟩ := Option.bind_eq_some_iff.1 ht
  obtain ⟨⟨m, mailboxes⟩, hfirst, hd⟩ := Option.map_eq_some_iff.1 hpop
  obtain ⟨rfl, rfl⟩ := Prod.mk.inj hd
  have hmem := List.mem_of_getElem? hc
  have hheld := h.held job (List.mem_of_getElem? hjob)
  obtain ⟨hawaits, hlookup⟩ := Job.of_queue? hqueue
  have hbox : c.mailboxes.number? ⟨job.operator, source⟩ = some queue := by
    obtain ⟨c', hc', hbox⟩ := hheld source queue hlookup
    obtain rfl := Option.some.inj (hc.symm.trans hc')
    exact hbox
  obtain ⟨hstamp, hclient⟩ := h.pop hc hbox hfirst
  -- the stamp is the client's own epoch, so the message is not skipped
  have hfresh : c.epoch ≤ m.epoch := by
    rw [hstamp, (h.connected.attends c hmem).epoch_eq]
    exact UInt64.le_refl epoch
  dsimp only at ht
  rw [if_pos hfresh] at ht
  obtain ⟨call, hcall, ht⟩ := Option.bind_eq_some_iff.1 ht
  obtain rfl := Option.some.inj ht
  have hopen : job.result? = none := by rw [Job.result?_eq, Call.result?_of_mem_awaits hawaits]
  refine ⟨Act.log history job.client (.take job.operator source m.piece), .inr ⟨_, _, rfl⟩,
    ⟨hclient.putJob number _ ?_, ?_, ?_, ?_⟩⟩
  · intro src q hsrc
    exact hclient.held job (List.mem_of_getElem? hjob) src q (lookup_of_lookup_filter hsrc)
  · intro i
    exact h.course_putJob hjob hopen
      { job with call, held := job.held.filter (·.1 ≠ source) } rfl
      (fun _ hpast => hpast.take hcall) i
  · intro operator i j destination hj
    rw [Act.sentTo_log_take]
    exact h.sent operator i j destination hj
  · intro operator i j src dst hi hj
    rw [Act.sentTo_log_take, Act.takenFrom_log_take, h.flow operator i j src dst hi hj,
      waitingFrom_pop hc (h.mailboxes c hmem) hbox hfirst, ← List.append_assoc]
    rfl

theorem deliver (h : Traced hasty script tasks group epoch history s)
    (ht : s.deliver? number = some t) : Traced hasty script tasks group epoch history t := by
  obtain ⟨letter, hletter, ht⟩ := Option.bind_eq_some_iff.1 ht
  obtain ⟨c, hc, ht⟩ := Option.bind_eq_some_iff.1 ht
  obtain ⟨d, hd, ht⟩ := Option.bind_eq_some_iff.1 ht
  obtain ⟨home, hhome, ht⟩ := Option.bind_eq_some_iff.1 ht
  dsimp only at ht
  split at ht
  · cases ht
  · next hahead =>
    obtain rfl := Option.some.inj ht
    have hmem := List.mem_of_getElem? hc
    obtain ⟨before, after, htransit, herase, hbefore⟩ : ∃ before after,
        s.transit = before ++ letter :: after ∧ s.transit.eraseIdx number = before ++ after ∧
          ∀ l ∈ before, ¬ (l.sender = letter.sender ∧ l.receiver = letter.receiver) := by
      obtain ⟨hlt, hget⟩ := List.getElem?_eq_some_iff.1 hletter
      refine ⟨s.transit.take number, s.transit.drop (number + 1), ?_,
        List.eraseIdx_eq_take_drop_succ _ _, ?_⟩
      · rw [← hget, ← List.drop_eq_getElem_cons hlt, List.take_append_drop]
      · simpa using hahead
    obtain ⟨hsource, hdestination, hgroup, hepoch⟩ := h.addressed letter (by simp [htransit])
    have htask : letter.message.destination = c.task := by
      rw [h.getElem?_tasks, hc] at hdestination
      exact (Option.some.inj hdestination).symm
    rw [(h.connected.attends c hmem).hear_eq home hgroup htask]
    have hclient := h.toWellFormed.deliver hc hepoch
    refine ⟨{ hclient with addressed := ?_ }, h.course, h.sent, ?_⟩
    · intro l hl
      exact h.addressed l (List.mem_of_mem_eraseIdx hl)
    · intro operator i j src dst hi hj
      have hmatch : letter.receiver = j ∧ letter.message.operator = operator ∧
          letter.message.source = src ↔
          letter.sender = i ∧ letter.receiver = j ∧ letter.message.operator = operator := by
        rw [h.number_eq_iff hsource hi]
        tauto
      rw [h.flow operator i j src dst hi hj, htransit, Letter.pieces_first hbefore,
        ← if_congr hmatch rfl rfl, ← List.append_assoc, List.append_assoc (Act.takenFrom ..),
        ← waitingFrom_deliver hc (h.mailboxes c hmem), ← herase]
      rfl

/-- A receiver that gives up has waited too long, for its client has not left. -/
theorem giveUp {source : String} (h : Traced hasty script tasks group epoch history s)
    (hhasty : hasty) (ht : s.giveUp? number source = some t) :
    Traced hasty script tasks group epoch history t := by
  obtain ⟨job, hjob, ht⟩ := Option.bind_eq_some_iff.1 ht
  obtain ⟨queue, hqueue, ht⟩ := Option.bind_eq_some_iff.1 ht
  obtain ⟨c, hc, ht⟩ := Option.bind_eq_some_iff.1 ht
  obtain ⟨hawaits, -⟩ := Job.of_queue? hqueue
  have hpresent := (h.connected.attends c (List.mem_of_getElem? hc)).present
  have hlate : c.giveUp ⟨job.operator, source⟩ = .timeout job.operator source := by
    rw [Client.giveUp, hpresent]
    rfl
  split at ht
  · obtain rfl := Option.some.inj ht
    rw [hlate]
    refine ⟨h.putJob number _ (fun _ _ hlookup => nomatch hlookup), ?_, h.sent, h.flow⟩
    intro i
    have hopen : job.result? = none := by rw [Job.result?_eq, Call.result?_of_mem_awaits hawaits]
    have hcourse := h.course_putJob hjob hopen (job.fail (.timeout job.operator source)) rfl
      (fun past hpast => by
        have hlast := hpast.giveUp hhasty hawaits
        exact hlast) i
    rwa [Function.update_eq_self] at hcourse
  · cases ht

/-- A step that keeps to a script adds at most one act to the histories. -/
theorem step (h : Traced hasty script tasks group epoch history s) {event : Event β}
    (hscript : ∀ i, ∀ job ∈ script i, job.held = []) (hallowed : s.Keeps hasty script event)
    (ht : s.step? event = some t) :
    ∃ later, Act.Grows history later ∧ Traced hasty script tasks group epoch later t := by
  cases event with
  | begin job =>
    obtain rfl := Option.some.inj ht
    obtain ⟨hidle, hnext⟩ := hallowed
    exact ⟨history, .inl rfl, h.begin (hscript _ job (List.mem_of_getElem? hnext)) hidle hnext⟩
  | send number => exact h.send ht
  | hold number source => exact ⟨history, .inl rfl, h.hold ht⟩
  | take number source => exact h.take ht
  | deliver number => exact ⟨history, .inl rfl, h.deliver ht⟩
  | giveUp number source => exact ⟨history, .inl rfl, h.giveUp hallowed ht⟩
  | reconfigure client bundle => cases hallowed
  | install number => cases hallowed
  | shutdown task => cases hallowed

/-- Before the first step of a connected session nothing has been sent. -/
theorem idle {start : Session} (hstart : start.Connected group epoch)
    (hempty : ∀ c ∈ start.clients, c.mailboxes = .empty) :
    Traced hasty script start.tasks group epoch (fun _ => []) (System.idle start) := by
  refine ⟨⟨hstart, rfl, ?_, ?_, nofun, nofun⟩, fun _ => .start, ?_, ?_⟩
  · intro c hc
    rw [hempty c hc]
    exact Mailboxes.wellFormed_empty
  · intro c hc box m hm
    rw [hempty c hc] at hm
    cases hm
  · intro operator i j destination _
    rfl
  · intro operator i j source destination _ hj
    obtain ⟨c, hc, -⟩ := Option.map_eq_some_iff.1 ((start.getElem?_tasks j).symm.trans hj)
    have hclient : (System.idle start : System β).client? j = some c := hc
    rw [waitingFrom_eq hclient, hempty c (List.mem_of_getElem? hc)]
    rfl

/-- A run that keeps to a script from a connected session has histories, and of these holds whatever
holds before the first step and is kept by every one. -/
theorem exists_of_reachable {start : Session} {P : (Nat → List Act) → Prop}
    (hstart : start.Connected group epoch) (hempty : ∀ c ∈ start.clients, c.mailboxes = .empty)
    (hscript : ∀ i, ∀ job ∈ script i, job.held = []) (hnone : P fun _ => [])
    (hgrows : ∀ s t history later, Traced hasty script start.tasks group epoch history s →
      Act.Grows history later → Traced hasty script start.tasks group epoch later t →
      P history → P later)
    (h : Reachable (Keeps hasty script) (System.idle start) s) :
    ∃ history, Traced hasty script start.tasks group epoch history s ∧ P history := by
  refine h.induct (P := fun s =>
    ∃ history, Traced hasty script start.tasks group epoch history s ∧ P history) ?_ ?_
  · exact ⟨_, idle hstart hempty, hnone⟩
  · rintro s t event ⟨history, htraced, hholds⟩ hallowed ht
    obtain ⟨later, hlater, hnext⟩ := htraced.step hscript hallowed ht
    exact ⟨later, hnext, hgrows s t history later htraced hlater hnext hholds⟩

/-- A run that keeps to a script from a connected session has histories. -/
theorem of_reachable {start : Session} (hstart : start.Connected group epoch)
    (hempty : ∀ c ∈ start.clients, c.mailboxes = .empty)
    (hscript : ∀ i, ∀ job ∈ script i, job.held = [])
    (h : Reachable (Keeps hasty script) (System.idle start) s) :
    ∃ history, Traced hasty script start.tasks group epoch history s := by
  obtain ⟨history, htraced, -⟩ := exists_of_reachable (P := fun _ => True) hstart hempty hscript
    trivial (fun _ _ _ _ _ _ _ _ => trivial) h
  exact ⟨history, htraced⟩

end Traced

end Collective.System
