import Collective.Proofs.Group.History
import Collective.Proofs.Group.Network

/-!
# What reaches a receiver

Messages reach a client for many operators and from many tasks, also such that are meant for others,
while calls ask for queues and take messages and bundles are installed. A mailbox that no bundle
drops is nevertheless one queue: what has been taken from it, and what still waits in it, is what
has arrived for it, in order. Whether a message that is taken is skipped depends on its stamp and
the client's epoch at that moment, and on nothing else.
-/

namespace Collective

/-! ## Queues and mailboxes -/

namespace Mailboxes

variable {ms rest : Mailboxes} {box key : Mailbox} {number : Nat} {m : Message}

/-- A queue that has been given out for a key is the present queue of a mailbox if it is the
mailbox of that key, and never else. -/
structure Assigns (ms : Mailboxes) (box key : Mailbox) (number : Nat) : Prop where
  lt_length : number < ms.queues.length
  iff : key = box ↔ ms.number? box = some number

/-- A queue that has just been asked for. -/
theorem assigns_opened (h : ms.WellFormed) (box key : Mailbox) :
    (ms.opened key).1.Assigns box key (ms.opened key).2 := by
  have hself : (ms.opened key).1.number? key = some (ms.opened key).2 := by
    rw [number?_opened, if_pos rfl]
  refine ⟨(h.opened key).lt_length _ _ hself, ?_, ?_⟩
  · rintro rfl
    exact hself
  · exact (h.opened key).injective _ _ _ hself

/-- Opening another mailbox gives it a queue that nobody has been given yet. -/
theorem Assigns.opened (h : ms.Assigns box key number) (other : Mailbox) :
    (ms.opened other).1.Assigns box key number := by
  cases hother : ms.number? other with
  | some _ => rwa [Mailboxes.opened, hother]
  | none =>
    have hlength : (ms.opened other).1.queues.length = ms.queues.length + 1 := by
      simp [Mailboxes.opened, hother]
    have hnew : (ms.opened other).2 = ms.queues.length := by simp only [Mailboxes.opened, hother]
    have hlt := h.lt_length
    refine ⟨by omega, ?_⟩
    rw [number?_opened, hnew]
    split
    · next hbox =>
      subst hbox
      rw [h.iff, hother]
      simp only [reduceCtorEq, Option.some.injEq, false_iff]
      omega
    · exact h.iff

/-- A change that gives out no queue. -/
theorem Assigns.of_eq (h : ms.Assigns box key number)
    (hlength : rest.queues.length = ms.queues.length)
    (hnumber : rest.number? box = ms.number? box) : rest.Assigns box key number := by
  refine ⟨?_, ?_⟩
  · rw [hlength]
    exact h.lt_length
  · rw [hnumber]
    exact h.iff

theorem Assigns.deliver (h : ms.Assigns box key number) (m : Message) :
    (ms.deliver m).Assigns box key number :=
  (h.opened m.mailbox).of_eq (by simp [Mailboxes.deliver]) rfl

theorem Assigns.queue_eq (h : ms.Assigns box key number) (hkey : key = box) :
    ms.queue number = ms.waiting box := by
  rw [waiting, h.iff.1 hkey]
  rfl

end Mailboxes

/-- A message that a call has taken out of a queue of its client. -/
structure Taking where
  box : Mailbox
  message : Message
  /-- The client's epoch at that moment. -/
  epoch : UInt64
  /-- The call has got the message, which has not been skipped. -/
  returned : Bool
  deriving DecidableEq, Repr

namespace System

variable {β : Type}

/-- The system after several steps. -/
def run? (s : System β) (events : List (Event β)) : Option (System β) := events.foldlM step? s

/-- What a call of a client takes in a step. -/
def taking (client : Nat) (s : System β) : Event β → Option Taking
  | .take number source => do
    let job ← s.jobs[number]?
    let queue ← job.queue? source
    let c ← s.client? job.client
    let (m, _) ← c.mailboxes.pop? queue
    let (_, answer) ← c.pop? queue
    if job.client = client then some ⟨⟨job.operator, source⟩, m, c.epoch, answer.isSome⟩ else none
  | _ => none

/-- What the calls of a client take in a run, in order. -/
def takings (client : Nat) : System β → List (Event β) → List Taking
  | _, [] => []
  | s, event :: events =>
    (s.taking client event).toList ++ ((s.step? event).map fun t => takings client t events).getD []

/-- The messages that have reached a client, in order, whomever they were meant for. -/
def heard (client : Nat) (s : System β) : List Message :=
  (s.arrived.filter (·.receiver = client)).map (·.message)

theorem heard_of_arrived {s t : System β} {letter : Letter}
    (h : t.arrived = s.arrived ++ [letter]) (client : Nat) :
    t.heard client = s.heard client ++
      if letter.receiver = client then [letter.message] else [] := by
  rw [heard, h, List.filter_append, List.map_append, ← heard]
  split <;> simp_all

/-- The client of this number has just joined. -/
structure Fresh (s : System β) (client : Nat) (c : Client) : Prop where
  client? : s.client? client = some c
  mailboxes : c.mailboxes = .empty
  hearing : ∀ source, c.manager.observers.hearing source = [()]
  jobs : ∀ job ∈ s.jobs, job.client ≠ client
  installations : ∀ i ∈ s.installations, i.1 ≠ client
  arrived : ∀ l ∈ s.arrived, l.receiver ≠ client

/-- In a step the client does not leave, and a call begins without a queue. -/
def Serves (client : Nat) (s : System β) : Event β → Prop
  | .begin job => job.held = []
  | .shutdown task => s.session.present.get? task ≠ some client
  | _ => True

end System

theorem System.Serves.of_present {β : Type} {client : Nat} {s t : System β} {event : Event β}
    (h : s.Serves client event) (hpresent : t.session.present = s.session.present) :
    t.Serves client event := by
  cases event with
  | shutdown task =>
    show t.session.present.get? task ≠ some client
    rw [hpresent]
    exact h
  | _ => exact h

/-- A message is meant for a client and for one of its mailboxes. -/
def Client.Expects (c : Client) (box : Mailbox) (m : Message) : Prop :=
  m.group = c.group ∧ m.destination = c.task ∧ m.mailbox = box

instance (c : Client) (box : Mailbox) : DecidablePred (c.Expects box) := fun m =>
  inferInstanceAs (Decidable (m.group = c.group ∧ m.destination = c.task ∧ m.mailbox = box))

/-- What a client hears bears on its mailboxes only. -/
theorem Client.hear_same (c : Client) (source : Address) (m : Message) :
    (c.hear source m).group = c.group ∧ (c.hear source m).task = c.task ∧
      (c.hear source m).manager = c.manager := by
  obtain ⟨mailboxes, hhear⟩ := c.exists_hear_eq source m
  rw [hhear]
  exact ⟨rfl, rfl, rfl⟩

namespace System

variable {β : Type} {s t : System β} {client number : Nat} {box : Mailbox} {c d e : Client}
  {log : List Taking}

/-- What has been taken from a mailbox and what waits in it is what has arrived for it. -/
structure Serving (client : Nat) (box : Mailbox) (c : Client) (log : List Taking) (s : System β)
    (d : Client) : Prop where
  client? : s.client? client = some d
  group_eq : d.group = c.group
  task_eq : d.task = c.task
  hearing : ∀ source, d.manager.observers.hearing source = [()]
  mailboxes : d.mailboxes.WellFormed
  flow : (log.filter (·.box = box)).map (·.message) ++ d.mailboxes.waiting box =
    (s.heard client).filter (c.Expects box)
  held : ∀ job ∈ s.jobs, job.client = client → ∀ {source : String} {queue : Nat},
    job.held.lookup source = some queue → d.mailboxes.Assigns box ⟨job.operator, source⟩ queue
  returned : ∀ taking ∈ log, taking.returned = true ↔ taking.epoch ≤ taking.message.epoch

/-- No bundle that the client has begun to install drops the mailbox; bundles of other tasks are
turned away. -/
def Spares (client : Nat) (c : Client) (box : Mailbox) (s : System β) : Prop :=
  ∀ {bundle : Bundle} {installation : Installation},
    (client, bundle, installation) ∈ s.installations → bundle.task = c.task →
      installation ≠ .start → box.source ∈ bundle.neighbors

/-- What a run never undoes: which client is the present one of a task, and that a client has begun
to install a bundle. -/
structure Continues (s t : System β) : Prop where
  present_eq : t.session.present = s.session.present
  begun : ∀ {i : Nat} {bundle : Bundle} {installation : Installation},
    (i, bundle, installation) ∈ s.installations → installation ≠ .start →
      ∃ later, (i, bundle, later) ∈ t.installations ∧ later ≠ .start

theorem Continues.of_eq (hpresent : t.session.present = s.session.present)
    (hinstallations : t.installations = s.installations) : s.Continues t where
  present_eq := hpresent
  begun hmem hbegun := ⟨_, hinstallations ▸ hmem, hbegun⟩

theorem continues_of_install? (ht : s.install? number = some t) : s.Continues t := by
  obtain ⟨⟨i, bundle, installation⟩, hinstallation, ht⟩ := Option.bind_eq_some_iff.1 ht
  obtain ⟨e, -, ht⟩ := Option.bind_eq_some_iff.1 ht
  obtain ⟨⟨f, next⟩, hstep, ht⟩ := Option.bind_eq_some_iff.1 ht
  obtain rfl := Option.some.inj ht
  have hnext : next ≠ .start := by
    rintro rfl
    cases installation with
    | start =>
      rw [Installation.step?] at hstep
      split at hstep <;> cases hstep
    | _ => cases hstep
  refine ⟨rfl, ?_⟩
  intro j other earlier hmem hbegun
  obtain ⟨k, hk⟩ := List.mem_iff_getElem?.1 hmem
  by_cases hsame : number = k
  · subst hsame
    obtain ⟨rfl, rfl, -⟩ := Option.some.inj (hinstallation.symm.trans hk)
    exact ⟨next, List.mem_set (List.getElem?_eq_some_iff.1 hinstallation).1 _, hnext⟩
  · exact ⟨earlier, List.mem_of_getElem? ((List.getElem?_set_ne hsame).trans hk), hbegun⟩

theorem continues_of_step? {event : Event β} (ht : s.step? event = some t) : s.Continues t := by
  cases event with
  | begin job =>
    obtain rfl := Option.some.inj ht
    exact .of_eq rfl rfl
  | send number =>
    obtain ⟨job, -, ht⟩ := Option.bind_eq_some_iff.1 ht
    obtain ⟨⟨parcel, rest⟩, -, ht⟩ := Option.bind_eq_some_iff.1 ht
    obtain ⟨e, -, ht⟩ := Option.bind_eq_some_iff.1 ht
    split at ht
    · obtain rfl := Option.some.inj ht
      exact .of_eq rfl rfl
    · split at ht <;> obtain rfl := Option.some.inj ht <;> exact .of_eq rfl rfl
  | hold number source =>
    obtain ⟨job, -, ht⟩ := Option.bind_eq_some_iff.1 ht
    obtain ⟨e, -, ht⟩ := Option.bind_eq_some_iff.1 ht
    split at ht
    · obtain rfl := Option.some.inj ht
      exact .of_eq rfl rfl
    · cases ht
  | take number source =>
    obtain ⟨job, -, ht⟩ := Option.bind_eq_some_iff.1 ht
    obtain ⟨queue, -, ht⟩ := Option.bind_eq_some_iff.1 ht
    obtain ⟨e, -, ht⟩ := Option.bind_eq_some_iff.1 ht
    obtain ⟨⟨f, answer⟩, -, ht⟩ := Option.bind_eq_some_iff.1 ht
    cases answer with
    | none =>
      obtain rfl := Option.some.inj ht
      exact .of_eq rfl rfl
    | some m =>
      obtain ⟨call, -, ht⟩ := Option.bind_eq_some_iff.1 ht
      obtain rfl := Option.some.inj ht
      exact .of_eq rfl rfl
  | giveUp number source =>
    obtain ⟨job, -, ht⟩ := Option.bind_eq_some_iff.1 ht
    obtain ⟨queue, -, ht⟩ := Option.bind_eq_some_iff.1 ht
    obtain ⟨e, -, ht⟩ := Option.bind_eq_some_iff.1 ht
    split at ht
    · obtain rfl := Option.some.inj ht
      exact .of_eq rfl rfl
    · cases ht
  | deliver number =>
    obtain ⟨letter, -, ht⟩ := Option.bind_eq_some_iff.1 ht
    obtain ⟨e, -, ht⟩ := Option.bind_eq_some_iff.1 ht
    obtain ⟨sender, -, ht⟩ := Option.bind_eq_some_iff.1 ht
    obtain ⟨home, -, ht⟩ := Option.bind_eq_some_iff.1 ht
    dsimp only at ht
    split at ht
    · cases ht
    · obtain rfl := Option.some.inj ht
      exact .of_eq rfl rfl
  | reconfigure i bundle =>
    obtain rfl := Option.some.inj ht
    exact ⟨rfl, fun hmem hbegun => ⟨_, List.mem_append_left _ hmem, hbegun⟩⟩
  | install number => exact continues_of_install? ht
  | shutdown task =>
    obtain rfl := Option.some.inj ht
    refine .of_eq ?_ rfl
    show (s.session.shutdown task).present = s.session.present
    rw [Session.shutdown]
    split <;> rfl

theorem Spares.of_step? (h : t.Spares client c box) {event : Event β}
    (ht : s.step? event = some t) : s.Spares client c box := by
  intro bundle installation hmem htask hbegun
  obtain ⟨later, hlater, hnext⟩ := (continues_of_step? ht).begun hmem hbegun
  exact h hlater htask hnext

theorem Spares.of_run? (h : t.Spares client c box) {events : List (Event β)}
    (hrun : s.run? events = some t) : s.Spares client c box := by
  induction events generalizing s with
  | nil =>
    obtain rfl := Option.some.inj hrun
    exact h
  | cons event events ih =>
    rw [run?, List.foldlM_cons] at hrun
    obtain ⟨u, hstep, hrest⟩ := Option.bind_eq_some_iff.1 hrun
    exact Spares.of_step? (ih hrest) hstep

namespace Serving

theorem of_fresh (h : s.Fresh client c) : Serving client box c [] s c where
  client? := h.client?
  group_eq := rfl
  task_eq := rfl
  hearing := h.hearing
  mailboxes := by
    rw [h.mailboxes]
    exact Mailboxes.wellFormed_empty
  flow := by
    have hnone : s.arrived.filter (·.receiver = client) = [] := by
      rw [List.filter_eq_nil_iff]
      intro l hl
      simpa using h.arrived l hl
    rw [heard, hnone, h.mailboxes]
    rfl
  held job hjob hclient := absurd hclient (h.jobs job hjob)
  returned := nofun

/-- A step that touches neither what the client hears and holds nor any call. -/
theorem of_eq (h : Serving client box c log s d) (hclient : t.client? client = s.client? client)
    (harrived : t.arrived = s.arrived) (hjobs : t.jobs = s.jobs) :
    Serving client box c log t d where
  client? := hclient.trans h.client?
  group_eq := h.group_eq
  task_eq := h.task_eq
  hearing := h.hearing
  mailboxes := h.mailboxes
  flow := by
    rw [h.flow, heard, heard, harrived]
  held job hjob := h.held job (hjobs ▸ hjob)
  returned := h.returned

/-- A call goes on, and holds no queue but such as its client has given out for its sources. -/
theorem putJob (h : Serving client box c log s d) {job : Job β}
    (hheld : job.client = client → ∀ {source : String} {queue : Nat},
      job.held.lookup source = some queue → d.mailboxes.Assigns box ⟨job.operator, source⟩ queue) :
    Serving client box c log (s.putJob number job) d :=
  { h with
    held := fun other hother => by
      rcases List.mem_or_eq_of_mem_set hother with hother | rfl
      · exact h.held other hother
      · exact hheld }

/-- Another client does something. -/
theorem putClient_other (h : Serving client box c log s d) {i : Nat} (hi : i ≠ client)
    (hd : s.client? i = some e) (f : Client) : Serving client box c log (s.putClient i f) d :=
  h.of_eq (by rw [client?_putClient hd, if_neg hi]) rfl rfl

/-- The client does something by which nothing is heard. -/
theorem putClient (h : Serving client box c log s d) {more : List Taking}
    (hgroup : e.group = d.group) (htask : e.task = d.task)
    (hmanager : e.manager = d.manager) (hmailboxes : e.mailboxes.WellFormed)
    (hflow : (more.filter (·.box = box)).map (·.message) ++ e.mailboxes.waiting box =
      d.mailboxes.waiting box)
    (hassigns : ∀ {key : Mailbox} {queue : Nat}, d.mailboxes.Assigns box key queue →
      e.mailboxes.Assigns box key queue)
    (hreturned : ∀ taking ∈ more, taking.returned = true ↔ taking.epoch ≤ taking.message.epoch) :
    Serving client box c (log ++ more) (s.putClient client e) e where
  client? := by rw [client?_putClient h.client?, if_pos rfl]
  group_eq := hgroup.trans h.group_eq
  task_eq := htask.trans h.task_eq
  hearing source := by
    rw [hmanager]
    exact h.hearing source
  mailboxes := hmailboxes
  flow := by
    rw [List.filter_append, List.map_append, List.append_assoc, hflow]
    exact h.flow
  held job hjob hclient _ _ hlookup := hassigns (h.held job hjob hclient hlookup)
  returned taking htaking := by
    rcases List.mem_append.1 htaking with htaking | htaking
    · exact h.returned taking htaking
    · exact hreturned taking htaking

/-! ## Steps -/

theorem begin (h : Serving client box c log s d) {job : Job β} (hheld : job.held = []) :
    Serving client box c log { s with jobs := s.jobs ++ [job] } d :=
  { h with
    held := fun other hother => by
      rcases List.mem_append.1 hother with hother | hother
      · exact h.held other hother
      · obtain rfl := List.mem_singleton.1 hother
        intro _ source queue hlookup
        rw [hheld] at hlookup
        cases hlookup }

theorem send (h : Serving client box c log s d) (ht : s.send? number = some t) :
    Serving client box c log t d := by
  obtain ⟨job, hjob, ht⟩ := Option.bind_eq_some_iff.1 ht
  obtain ⟨⟨parcel, rest⟩, hsent, ht⟩ := Option.bind_eq_some_iff.1 ht
  obtain ⟨e, he, ht⟩ := Option.bind_eq_some_iff.1 ht
  have hheld := h.held job (List.mem_of_getElem? hjob)
  split at ht
  · obtain rfl := Option.some.inj ht
    exact h.putJob fun _ _ _ hlookup => nomatch hlookup
  · split at ht
    · obtain rfl := Option.some.inj ht
      exact h.putJob fun _ _ _ hlookup => nomatch hlookup
    · obtain rfl := Option.some.inj ht
      have hput : Serving client box c log (s.putJob number { job with call := rest }) d :=
        h.putJob hheld
      exact hput.of_eq rfl rfl rfl

theorem giveUp {source : String} (h : Serving client box c log s d)
    (ht : s.giveUp? number source = some t) : Serving client box c log t d := by
  obtain ⟨job, hjob, ht⟩ := Option.bind_eq_some_iff.1 ht
  obtain ⟨queue, hqueue, ht⟩ := Option.bind_eq_some_iff.1 ht
  obtain ⟨e, he, ht⟩ := Option.bind_eq_some_iff.1 ht
  split at ht
  · obtain rfl := Option.some.inj ht
    exact h.putJob fun _ _ _ hlookup => nomatch hlookup
  · cases ht

/-- A call that asks for a queue is given the present one of the mailbox. -/
theorem hold {source : String} (h : Serving client box c log s d)
    (ht : s.hold? number source = some t) : ∃ e, Serving client box c log t e := by
  obtain ⟨job, hjob, ht⟩ := Option.bind_eq_some_iff.1 ht
  obtain ⟨e, he, ht⟩ := Option.bind_eq_some_iff.1 ht
  split at ht
  · obtain rfl := Option.some.inj ht
    have hheld := h.held job (List.mem_of_getElem? hjob)
    by_cases hclient : job.client = client
    · rw [hclient] at he ⊢
      obtain rfl := Option.some.inj (h.client?.symm.trans he)
      have hput : Serving client box c (log ++ [])
          (s.putClient client (d.openQueue ⟨job.operator, source⟩).1) _ :=
        h.putClient rfl rfl rfl (h.mailboxes.opened _) (d.mailboxes.waiting_opened _ _)
          (fun hassigns => hassigns.opened _) nofun
      rw [List.append_nil] at hput
      refine ⟨_, hput.putJob fun _ other queue hlookup => ?_⟩
      by_cases hother : other = source
      · subst hother
        rw [List.lookup_cons_self] at hlookup
        obtain rfl := Option.some.inj hlookup
        exact Mailboxes.assigns_opened h.mailboxes box _
      · rw [List.lookup_cons, beq_false_of_ne hother] at hlookup
        exact (hheld hclient hlookup).opened _
    · exact ⟨d, (h.putClient_other hclient he _).putJob fun hsame => absurd hsame hclient⟩
  · cases ht

/-- What a call takes leaves its queue, and no other one. -/
theorem take {source : String} (h : Serving client box c log s d)
    (ht : s.take? number source = some t) :
    ∃ e, Serving client box c (log ++ (s.taking client (.take number source)).toList) t e := by
  obtain ⟨job, hjob, ht⟩ := Option.bind_eq_some_iff.1 ht
  obtain ⟨queue, hqueue, ht⟩ := Option.bind_eq_some_iff.1 ht
  obtain ⟨e, he, ht⟩ := Option.bind_eq_some_iff.1 ht
  obtain ⟨⟨f, answer⟩, hpop, ht⟩ := Option.bind_eq_some_iff.1 ht
  obtain ⟨⟨m, mailboxes⟩, hfirst, hf⟩ := Option.map_eq_some_iff.1 hpop
  obtain ⟨rfl, hanswer⟩ := Prod.mk.inj hf
  obtain ⟨-, hlookup⟩ := Job.of_queue? hqueue
  have hheld := h.held job (List.mem_of_getElem? hjob)
  have htaking : s.taking client (.take number source) =
      if job.client = client then some ⟨⟨job.operator, source⟩, m, e.epoch, answer.isSome⟩
      else none := by
    simp only [taking, hjob, hqueue, he, hfirst, hpop, Option.bind_eq_bind, Option.bind_some]
  have hput : ∃ f, Serving client box c (log ++ (s.taking client (.take number source)).toList)
      (s.putClient job.client { e with mailboxes }) f ∧
        (job.client = client → f.mailboxes.queues.length = d.mailboxes.queues.length ∧
          f.mailboxes.number? box = d.mailboxes.number? box) := by
    rw [htaking]
    split
    · next hclient =>
      rw [hclient] at he ⊢
      obtain rfl := Option.some.inj (h.client?.symm.trans he)
      obtain ⟨hrest, hnumber, hlength, hother⟩ := h.mailboxes.pop? hfirst
      refine ⟨_, h.putClient (e := { d with mailboxes }) rfl rfl rfl hrest ?_
        (fun hassigns => hassigns.of_eq hlength (hnumber box)) ?_, fun _ => ⟨hlength, hnumber box⟩⟩
      · have hassigns := hheld hclient hlookup
        by_cases hkey : (⟨job.operator, source⟩ : Mailbox) = box
        · obtain ⟨-, -, hwaiting, -⟩ := h.mailboxes.pop?_eq (hassigns.iff.1 hkey) hfirst
          rw [hwaiting]
          simp [hkey]
        · rw [hother box fun hsame => hkey (hassigns.iff.2 hsame)]
          simp [hkey]
      · intro taking htaken
        obtain rfl := List.mem_singleton.1 htaken
        rw [← hanswer]
        dsimp only
        split
        · next hle => exact ⟨fun _ => hle, fun _ => rfl⟩
        · next hle => exact ⟨nofun, fun hlt => absurd hlt hle⟩
    · next hclient =>
      rw [Option.toList_none, List.append_nil]
      exact ⟨d, h.putClient_other hclient he _, fun hsame => absurd hsame hclient⟩
  obtain ⟨f, hserving, hsame⟩ := hput
  cases answer with
  | none =>
    obtain rfl := Option.some.inj ht
    exact ⟨f, hserving⟩
  | some first =>
    obtain ⟨call, -, ht⟩ := Option.bind_eq_some_iff.1 ht
    obtain rfl := Option.some.inj ht
    refine ⟨f, hserving.putJob fun hclient other q hother => ?_⟩
    obtain ⟨hlength, hnumber⟩ := hsame hclient
    exact (hheld hclient (lookup_of_lookup_filter hother)).of_eq hlength hnumber

/-- A message that is meant for the client joins its mailbox, and no other one. -/
theorem waiting_hear (h : Serving client box c log s d) (source : Address) (m : Message) :
    (d.hear source m).mailboxes.WellFormed ∧
      (d.hear source m).mailboxes.waiting box =
        d.mailboxes.waiting box ++ [m].filter (c.Expects box) ∧
      (∀ {key : Mailbox} {queue : Nat}, d.mailboxes.Assigns box key queue →
        (d.hear source m).mailboxes.Assigns box key queue) := by
  rw [Client.hear, h.hearing source, List.foldl_cons, List.foldl_nil, Client.route, h.group_eq,
    h.task_eq]
  split
  · next hmeant =>
    refine ⟨h.mailboxes.deliver m, ?_, fun hassigns => hassigns.deliver m⟩
    rw [h.mailboxes.waiting_deliver]
    by_cases hbox : m.mailbox = box
    · rw [if_pos hbox, List.filter_cons_of_pos (by simpa using ⟨hmeant.1, hmeant.2, hbox⟩),
        List.filter_nil]
    · rw [if_neg hbox, List.filter_cons_of_neg (by simpa using fun hall => hbox hall.2.2),
        List.filter_nil, List.append_nil]
  · next hmeant =>
    refine ⟨h.mailboxes, ?_, id⟩
    rw [List.filter_cons_of_neg (by simpa using fun hall => hmeant ⟨hall.1, hall.2.1⟩),
      List.filter_nil, List.append_nil]

/-- A message that arrives joins its mailbox, if it is meant for the client. -/
theorem deliver (h : Serving client box c log s d) (ht : s.deliver? number = some t) :
    ∃ e, Serving client box c log t e := by
  obtain ⟨letter, hletter, ht⟩ := Option.bind_eq_some_iff.1 ht
  obtain ⟨e, he, ht⟩ := Option.bind_eq_some_iff.1 ht
  obtain ⟨sender, hsender, ht⟩ := Option.bind_eq_some_iff.1 ht
  obtain ⟨home, hhome, ht⟩ := Option.bind_eq_some_iff.1 ht
  dsimp only at ht
  split at ht
  · cases ht
  · obtain rfl := Option.some.inj ht
    by_cases hclient : letter.receiver = client
    · rw [hclient] at he ⊢
      obtain rfl := Option.some.inj (h.client?.symm.trans he)
      obtain ⟨hmailboxes, hwaiting, hassigns⟩ := h.waiting_hear home letter.message
      obtain ⟨hgroup, htask, hmanager⟩ := d.hear_same home letter.message
      refine ⟨d.hear home letter.message, ?_⟩
      refine ⟨?_, hgroup.trans h.group_eq, htask.trans h.task_eq, ?_, hmailboxes, ?_, ?_,
        h.returned⟩
      · exact (client?_putClient h.client? _ client).trans (if_pos rfl)
      · rw [hmanager]
        exact h.hearing
      · rw [heard_of_arrived (s := s) rfl, if_pos hclient, hwaiting, List.filter_append,
          ← List.append_assoc, h.flow]
      · intro job hjob hown source queue hlookup
        exact hassigns (h.held job hjob hown hlookup)
    · have hother := h.putClient_other hclient he (e.hear home letter.message)
      refine ⟨d, { hother with flow := ?_ }⟩
      rw [heard_of_arrived (s := s) rfl, if_neg hclient, List.append_nil]
      exact h.flow

/-- Installing a bundle goes on, which does not drop the mailbox. -/
theorem install (h : Serving client box c log s d) (hspares : t.Spares client c box)
    (ht : s.install? number = some t) : ∃ e, Serving client box c log t e := by
  obtain ⟨⟨i, bundle, installation⟩, hinstallation, ht⟩ := Option.bind_eq_some_iff.1 ht
  obtain ⟨e, he, ht⟩ := Option.bind_eq_some_iff.1 ht
  obtain ⟨⟨f, next⟩, hstep, ht⟩ := Option.bind_eq_some_iff.1 ht
  obtain rfl := Option.some.inj ht
  have hmem : (i, bundle, next) ∈ s.installations.set number (i, bundle, next) :=
    List.mem_set (List.getElem?_eq_some_iff.1 hinstallation).1 _
  by_cases hi : i = client
  · subst hi
    obtain rfl := Option.some.inj (h.client?.symm.trans he)
    have hput : ∃ e, Serving i box c (log ++ []) (s.putClient i f) e := by
      cases installation with
      | start =>
        rw [Installation.step?] at hstep
        split at hstep
        · next htask =>
          obtain ⟨rfl, rfl⟩ := Prod.mk.inj (Option.some.inj hstep)
          have hsource : box.source ∈ bundle.neighbors :=
            hspares hmem (htask.trans h.task_eq) nofun
          have hnumber : (d.mailboxes.retain bundle.neighbors).number? box =
              d.mailboxes.number? box := by
            rw [Mailboxes.number?_retain, if_pos hsource]
          exact ⟨_, h.putClient rfl rfl rfl (h.mailboxes.retain _)
            (Mailboxes.waiting_retain hsource) (fun hassigns => hassigns.of_eq rfl hnumber) nofun⟩
        · obtain ⟨rfl, rfl⟩ := Prod.mk.inj (Option.some.inj hstep)
          exact ⟨_, h.putClient rfl rfl rfl h.mailboxes rfl id nofun⟩
      | raise =>
        obtain ⟨rfl, rfl⟩ := Prod.mk.inj (Option.some.inj hstep)
        exact ⟨_, h.putClient rfl rfl rfl h.mailboxes rfl id nofun⟩
      | replace =>
        obtain ⟨rfl, rfl⟩ := Prod.mk.inj (Option.some.inj hstep)
        exact ⟨_, h.putClient rfl rfl rfl h.mailboxes rfl id nofun⟩
      | done result => cases hstep
    rw [List.append_nil] at hput
    obtain ⟨e, hserving⟩ := hput
    exact ⟨e, hserving.of_eq rfl rfl rfl⟩
  · exact ⟨d, (h.putClient_other hi he f).of_eq rfl rfl rfl⟩

/-- Another client leaves. -/
theorem shutdown (h : Serving client box c log s d) {task : String}
    (htask : s.session.present.get? task ≠ some client) :
    Serving client box c log { s with session := s.session.shutdown task } d := by
  refine h.of_eq ?_ rfl rfl
  show (s.session.shutdown task).clients[client]? = s.session.clients[client]?
  rw [Session.shutdown]
  split
  · next number e hpresent =>
    obtain ⟨other, hother, hclient⟩ := Option.bind_eq_some_iff.1 hpresent
    obtain ⟨e', he, heq⟩ := Option.map_eq_some_iff.1 hclient
    obtain ⟨rfl, rfl⟩ := Prod.mk.inj heq
    refine List.getElem?_set_ne ?_
    rintro rfl
    exact htask hother
  · rfl

/-- The step lemma. -/
theorem step (h : Serving client box c log s d) {event : Event β} (hserves : s.Serves client event)
    (hspares : t.Spares client c box) (ht : s.step? event = some t) :
    ∃ e, Serving client box c (log ++ (s.taking client event).toList) t e := by
  have hnothing : ∀ {u : System β}, (∃ e, Serving client box c log u e) →
      ∃ e, Serving client box c (log ++ []) u e := by
    intro u hu
    rwa [List.append_nil]
  cases event with
  | begin job =>
    obtain rfl := Option.some.inj ht
    exact hnothing ⟨d, h.begin hserves⟩
  | send job => exact hnothing ⟨d, h.send ht⟩
  | hold job source => exact hnothing (h.hold ht)
  | take job source => exact h.take ht
  | giveUp job source => exact hnothing ⟨d, h.giveUp ht⟩
  | deliver letter => exact hnothing (h.deliver ht)
  | reconfigure i bundle =>
    obtain rfl := Option.some.inj ht
    exact hnothing ⟨d, h.of_eq rfl rfl rfl⟩
  | install installation => exact hnothing (h.install hspares ht)
  | shutdown task =>
    obtain rfl := Option.some.inj ht
    exact hnothing ⟨d, h.shutdown hserves⟩

/-- The run lemma. -/
theorem run (h : Serving client box c log s d) {events : List (Event β)}
    (hserves : ∀ event ∈ events, s.Serves client event) (hspares : t.Spares client c box)
    (hrun : s.run? events = some t) :
    ∃ e, Serving client box c (log ++ takings client s events) t e := by
  induction events generalizing s d log with
  | nil =>
    obtain rfl := Option.some.inj hrun
    rw [takings, List.append_nil]
    exact ⟨d, h⟩
  | cons event events ih =>
    rw [run?, List.foldlM_cons] at hrun
    obtain ⟨u, hstep, hrest⟩ := Option.bind_eq_some_iff.1 hrun
    have hspared : u.Spares client c box := hspares.of_run? hrest
    obtain ⟨e, hserving⟩ := h.step (hserves event List.mem_cons_self) hspared hstep
    rw [takings, hstep, Option.map_some, Option.getD_some, ← List.append_assoc]
    refine ih hserving ?_ hrest
    intro other hother
    exact (hserves other (List.mem_cons_of_mem _ hother)).of_present
      (continues_of_step? hstep).present_eq

end Serving

/-- Messages, calls and bundles come to a client in any order. What has been taken from a mailbox
that no bundle drops, followed by what waits in it, is what has arrived of the messages meant for
the client and this mailbox, in order: none of them is lost, even if it comes before anybody asks
for it, none comes twice, and nothing else comes in between. A call gets the message that it takes
if its stamp is not older than the client's epoch at that moment; otherwise the message is skipped.
And a call that waits for the mailbox can take the first message in it. -/
theorem received_in_order {start : System β} {events : List (Event β)}
    (hfresh : start.Fresh client c) (hserves : ∀ event ∈ events, start.Serves client event)
    (hrun : start.run? events = some s) (hspares : s.Spares client c box) :
    ∃ d, s.client? client = some d ∧
      ((takings client start events).filter (·.box = box)).map (·.message) ++
          d.mailboxes.waiting box =
        (s.heard client).filter (c.Expects box) ∧
      (∀ taking ∈ takings client start events,
        taking.returned = true ↔ taking.epoch ≤ taking.message.epoch) ∧
      ∀ {number queue : Nat} {job : Job β} {m : Message} {rest : List Message},
        s.jobs[number]? = some job → job.client = client → job.operator = box.operator →
          job.queue? box.source = some queue → d.mailboxes.waiting box = m :: rest →
            (s.step? (.take number box.source)).isSome ∧
              s.taking client (.take number box.source) =
                some ⟨box, m, d.epoch, d.epoch ≤ m.epoch⟩ := by
  obtain ⟨d, h⟩ := (Serving.of_fresh hfresh).run hserves hspares hrun
  rw [List.nil_append] at h
  refine ⟨d, h.client?, h.flow, h.returned, ?_⟩
  intro number queue job m rest hjob hclient hoperator hqueue hwaiting
  obtain ⟨hawaits, hlookup⟩ := Job.of_queue? hqueue
  have hassigns := h.held job (List.mem_of_getElem? hjob) hclient hlookup
  have hkey : (⟨job.operator, box.source⟩ : Mailbox) = box := by rw [hoperator]
  have hpop : d.mailboxes.pop? queue =
      some (m, { d.mailboxes with queues := d.mailboxes.queues.set queue rest }) := by
    rw [Mailboxes.pop?, hassigns.queue_eq hkey, hwaiting]
  have hd : s.client? job.client = some d := hclient ▸ h.client?
  obtain ⟨call, hcall⟩ :=
    Call.exists_take?_of_mem_awaits job.passage hawaits ⟨m.chunk, m.payload⟩
  have hfound : d.pop? queue = some
      ({ d with mailboxes := { d.mailboxes with queues := d.mailboxes.queues.set queue rest } },
        if d.epoch ≤ m.epoch then some m else none) := by
    rw [Client.pop?, hpop, Option.map_some]
  constructor
  · rw [step?, take?, hjob]
    simp only [Option.bind_eq_bind, Option.bind_some, hqueue, hd, hfound]
    split
    · rfl
    · next first heq =>
      split at heq
      · obtain rfl := Option.some.inj heq
        rw [hcall]
        rfl
      · cases heq
  · simp only [taking, hjob, hqueue, hd, hpop, hfound, Option.bind_eq_bind, Option.bind_some,
      if_pos hclient, hkey]
    split <;> simp_all

end System

/-! A task leaves, and a message from before reaches another one. It comes before anybody asks for
it and is skipped by the call that does, for the new bundle has been installed in between. A message
for another group comes too. -/

namespace Session.Latecomer

def coordinator : Coordinator :=
  .after ⟨"g", 2, 0, [], .empty⟩ [
    .operator "model" ⟨.broadcast, "R", .json, .whole⟩,
    .member (.add "R"), .member (.add "A"), .member (.add "B")]

def renewed : Coordinator := coordinator.after [.member (.remove "B")]

def home : String → Address := localHome ["R", "A", "B"]

def session : Session :=
  (joinAll home 1024 none ["R", "A", "B"] (.new coordinator)).toOption.get (by decide +kernel)

def bundle : Bundle := (renewed.bundle "A").toOption.get (by decide +kernel)

def message (group : String) (epoch : UInt64) : Message where
  group
  epoch
  operator := "model"
  source := "R"
  destination := "A"
  chunk := ⟨0, true⟩
  payload := [53]

/-- The messages are under way when the run begins. -/
def start : System Int32 :=
  { System.idle session with
    transit := [⟨0, 1, message "g" 0⟩, ⟨0, 1, message "h" 1⟩, ⟨0, 1, message "g" 1⟩] }

def reception : Job Int32 :=
  ((bundle.broadcastReceiver (.numeric .i32) "model").toOption.map fun e =>
    .new 1 (.numeric .i32) e e.receiveBroadcast).get (by decide +kernel)

def events : List (System.Event Int32) :=
  [.deliver 0, .begin reception, .reconfigure 1 bundle, .install 0, .install 0, .install 0,
    .hold 0 "R", .deliver 0, .take 0 "R", .deliver 0, .take 0 "R"]

def final : System Int32 := (start.run? events).get (by decide +kernel)

def joined : Client := (start.client? 1).get (by decide +kernel)

/-- The call has skipped the first message and has returned what the last one brought. -/
theorem received_in_order_latecomer :
    start.Fresh 1 joined ∧ (∀ event ∈ events, start.Serves 1 event) ∧
      start.run? events = some final ∧ final.Spares 1 joined ⟨"model", "R"⟩ ∧
      System.takings 1 start events =
        [⟨⟨"model", "R"⟩, message "g" 0, 1, false⟩, ⟨⟨"model", "R"⟩, message "g" 1, 1, true⟩] ∧
      final.jobs.map Job.result? = [some (.ok 5)] ∧
      ∃ d, final.client? 1 = some d ∧
        [message "g" 0, message "g" 1] ++ d.mailboxes.waiting ⟨"model", "R"⟩ =
          (final.heard 1).filter (joined.Expects ⟨"model", "R"⟩) := by
  have hjoined : start.client? 1 = some joined := (Option.some_get _).symm
  have hsession : joinAll home 1024 none ["R", "A", "B"] (.new coordinator) = .ok session := rfl
  have hattends := ((Joined.new coordinator home).joinAll hsession).1.attends joined
    (List.mem_of_getElem? hjoined)
  have hfresh : start.Fresh 1 joined :=
    ⟨hjoined, by decide +kernel, hattends.hearing, nofun, nofun, nofun⟩
  have hserves : ∀ event ∈ events, start.Serves 1 event := by
    simp [events, System.Serves]
    rfl
  have hrun : start.run? events = some final := (Option.some_get _).symm
  have hinstalled : final.installations.map (fun i => i.2.1) = [bundle] := by decide +kernel
  have hspares : final.Spares 1 joined ⟨"model", "R"⟩ := by
    intro other installation hmem _ _
    have hother := List.mem_map_of_mem (f := fun i => i.2.1) hmem
    rw [hinstalled] at hother
    obtain rfl := List.mem_singleton.1 hother
    decide +kernel
  have htakings : System.takings 1 start events =
      [⟨⟨"model", "R"⟩, message "g" 0, 1, false⟩, ⟨⟨"model", "R"⟩, message "g" 1, 1, true⟩] := by
    decide +kernel
  obtain ⟨d, hd, hflow, -, -⟩ := System.received_in_order hfresh hserves hrun hspares
  rw [htakings] at hflow
  exact ⟨hfresh, hserves, hrun, hspares, htakings, by decide +kernel, d, hd, hflow⟩

end Session.Latecomer

end Collective
