import Collective.Group.System
import Collective.Proofs.Group.Connection
import Collective.Proofs.Group.Mailbox

/-!
# Chunks between tasks

A chunk that one task has sent to another is carried by a letter and then waits in a mailbox. In a
well-formed system every letter goes to the task that it names, and a call that has asked for a
queue has the queue of the mailbox. A step on one mailbox keeps the system well formed, and changes
what waits there by at most one chunk.
-/

namespace Collective

/-- The chunk that a message carries. -/
def Message.piece (m : Message) : Chunk Bytes := ⟨m.chunk, m.payload⟩

/-- The chunks of an operator that letters carry from one client to another. -/
def Letter.pieces (operator : String) (sender receiver : Nat) (letters : List Letter) :
    List (Chunk Bytes) :=
  letters.filterMap fun l =>
    if l.sender = sender ∧ l.receiver = receiver ∧ l.message.operator = operator then
      some l.message.piece
    else none

/-- A letter names the tasks of its clients, and bears the group and the epoch. -/
structure Letter.Addressed (tasks : List String) (group : String) (epoch : UInt64) (l : Letter) :
    Prop where
  source_eq : tasks[l.sender]? = some l.message.source
  destination_eq : tasks[l.receiver]? = some l.message.destination
  group_eq : l.message.group = group
  epoch_eq : l.message.epoch = epoch

namespace Letter

variable {operator : String} {sender receiver : Nat}

theorem pieces_append (letters more : List Letter) :
    pieces operator sender receiver (letters ++ more) =
      pieces operator sender receiver letters ++ pieces operator sender receiver more :=
  List.filterMap_append

theorem pieces_singleton (l : Letter) :
    pieces operator sender receiver [l] =
      if l.sender = sender ∧ l.receiver = receiver ∧ l.message.operator = operator then
        [l.message.piece]
      else [] := by
  rw [pieces, List.filterMap_cons, List.filterMap_nil]
  split <;> simp_all

theorem pieces_eq_nil {letters : List Letter}
    (h : ∀ l ∈ letters, ¬ (l.sender = sender ∧ l.receiver = receiver)) :
    pieces operator sender receiver letters = [] := by
  rw [pieces, List.filterMap_eq_nil_iff]
  intro l hl
  rw [if_neg]
  rintro ⟨hsender, hreceiver, _⟩
  exact h l hl ⟨hsender, hreceiver⟩

/-- A letter that no other one between its clients precedes carries their first chunk. -/
theorem pieces_first {before after : List Letter} {letter : Letter}
    (h : ∀ l ∈ before, ¬ (l.sender = letter.sender ∧ l.receiver = letter.receiver)) :
    pieces operator sender receiver (before ++ letter :: after) =
      (if letter.sender = sender ∧ letter.receiver = receiver ∧ letter.message.operator = operator
        then [letter.message.piece] else []) ++
        pieces operator sender receiver (before ++ after) := by
  rw [← List.singleton_append, pieces_append, pieces_append, pieces_append, pieces_singleton]
  split
  · next hmatch =>
    obtain ⟨rfl, rfl, -⟩ := hmatch
    rw [pieces_eq_nil h, List.nil_append, List.nil_append]
  · rw [List.nil_append, List.nil_append]

end Letter

namespace System

variable {β : Type}

/-- The chunks of an operator that wait for a client in the mailbox of a task. -/
def waitingFrom (s : System β) (operator source : String) (receiver : Nat) : List (Chunk Bytes) :=
  ((s.client? receiver).map fun c =>
    (c.mailboxes.waiting ⟨operator, source⟩).map Message.piece).getD []

/-! ## Parts of a state -/

section Parts

variable {s : System β} {number i : Nat} {c : Client} {job : Job β}

/-- A queue that a call still holds after it has let go of another one. -/
theorem lookup_of_lookup_filter {held : List (String × Nat)} {source other : String} {queue : Nat}
    (h : (held.filter (·.1 ≠ source)).lookup other = some queue) :
    held.lookup other = some queue := by
  have hne : other ≠ source := by
    have hsome := congrArg Option.isSome h
    rw [Option.isSome_some, List.lookup_isSome_iff] at hsome
    obtain ⟨entry, hentry, hkey⟩ := hsome
    have hentry := (List.mem_filter.1 hentry).2
    rw [eq_of_beq hkey]
    exact of_decide_eq_true hentry
  induction held with
  | nil => exact h
  | cons entry rest ih =>
    obtain ⟨key, number⟩ := entry
    by_cases hkey : key = source
    · subst hkey
      rw [List.lookup_cons, beq_false_of_ne hne]
      exact ih (by simpa using h)
    · rw [List.filter_cons_of_pos (by simpa using hkey), List.lookup_cons] at h
      rw [List.lookup_cons]
      split
      · next heq => rwa [heq] at h
      · next heq =>
        rw [heq] at h
        exact ih h

theorem client?_putClient (hc : s.client? i = some c) (d : Client) (j : Nat) :
    (s.putClient i d).client? j = if i = j then some d else s.client? j := by
  obtain ⟨hlt, _⟩ := List.getElem?_eq_some_iff.1 hc
  rw [client?, putClient, Session.put, List.getElem?_set, if_pos hlt, client?]

theorem waitingFrom_eq (hc : s.client? i = some c) (operator source : String) :
    s.waitingFrom operator source i =
      (c.mailboxes.waiting ⟨operator, source⟩).map Message.piece := by
  rw [waitingFrom, hc]
  rfl

theorem waitingFrom_putClient (hc : s.client? i = some c) (d : Client) (operator source : String)
    (j : Nat) : (s.putClient i d).waitingFrom operator source j =
      if i = j then (d.mailboxes.waiting ⟨operator, source⟩).map Message.piece
      else s.waitingFrom operator source j := by
  rw [waitingFrom, client?_putClient hc]
  split
  · rfl
  · rw [waitingFrom]

/-- Asking for a queue changes nothing that waits. -/
theorem waitingFrom_openQueue (hc : s.client? i = some c) (box : Mailbox)
    (operator source : String) (j : Nat) :
    (s.putClient i (c.openQueue box).1).waitingFrom operator source j =
      s.waitingFrom operator source j := by
  rw [waitingFrom_putClient hc]
  split
  · next hi =>
    subst hi
    rw [waitingFrom_eq hc]
    exact congrArg _ (c.mailboxes.waiting_opened box _)
  · rfl

/-- Taking a message takes the first chunk that waits in its mailbox. -/
theorem waitingFrom_pop (hc : s.client? i = some c) (hmailboxes : c.mailboxes.WellFormed)
    {box : Mailbox} {queue : Nat} {m : Message} {mailboxes : Mailboxes}
    (hbox : c.mailboxes.number? box = some queue)
    (hpop : c.mailboxes.pop? queue = some (m, mailboxes)) (operator source : String) (j : Nat) :
    s.waitingFrom operator source j =
      (if j = i ∧ box.operator = operator ∧ box.source = source then [m.piece] else []) ++
        (s.putClient i { c with mailboxes }).waitingFrom operator source j := by
  obtain ⟨-, -, hwaiting, hother⟩ := hmailboxes.pop?_eq hbox hpop
  rw [waitingFrom_putClient hc]
  by_cases hj : i = j
  · subst hj
    rw [if_pos rfl, waitingFrom_eq hc]
    by_cases he : (⟨operator, source⟩ : Mailbox) = box
    · subst he
      rw [if_pos ⟨rfl, rfl, rfl⟩, hwaiting, List.map_cons, List.singleton_append]
    · rw [hother _ he, if_neg, List.nil_append]
      rintro ⟨_, rfl, rfl⟩
      exact he rfl
  · rw [if_neg hj, if_neg, List.nil_append]
    rintro ⟨rfl, _⟩
    exact hj rfl

/-- A message that is delivered joins the chunks that wait in its mailbox. -/
theorem waitingFrom_deliver (hc : s.client? i = some c) (hmailboxes : c.mailboxes.WellFormed)
    (m : Message) (operator source : String) (j : Nat) :
    (s.putClient i { c with mailboxes := c.mailboxes.deliver m }).waitingFrom operator source j =
      s.waitingFrom operator source j ++
        if i = j ∧ m.operator = operator ∧ m.source = source then [m.piece] else [] := by
  rw [waitingFrom_putClient hc, hmailboxes.waiting_deliver]
  by_cases hj : i = j
  · subst hj
    rw [if_pos rfl, waitingFrom_eq hc]
    by_cases he : m.mailbox = ⟨operator, source⟩
    · obtain ⟨hoperator, hsource⟩ := Mailbox.mk.inj he
      rw [if_pos he, if_pos ⟨rfl, hoperator, hsource⟩, List.map_append, List.map_singleton]
    · rw [if_neg he, if_neg, List.append_nil]
      rintro ⟨_, rfl, rfl⟩
      exact he rfl
  · rw [if_neg hj, if_neg, List.append_nil]
    rintro ⟨rfl, _⟩
    exact hj rfl

theorem jobsOf_append (s : System β) (job : Job β) (i : Nat) :
    ({ s with jobs := s.jobs ++ [job] } : System β).jobsOf i =
      if job.client = i then s.jobsOf i ++ [job] else s.jobsOf i := by
  by_cases h : job.client = i <;> simp [jobsOf, h]

/-- Where a call stands among those of its client, and what a new state of it changes there. -/
theorem jobsOf_putJob (hjob : s.jobs[number]? = some job) :
    ∃ pre post, s.jobsOf job.client = pre ++ job :: post ∧
      ∀ job', job'.client = job.client →
        (s.putJob number job').jobsOf job.client = pre ++ job' :: post ∧
          ∀ i, i ≠ job.client → (s.putJob number job').jobsOf i = s.jobsOf i := by
  obtain ⟨hlt, rfl⟩ := List.getElem?_eq_some_iff.1 hjob
  obtain ⟨before, after, hjobs, hset⟩ : ∃ before after, s.jobs = before ++ s.jobs[number] :: after ∧
      ∀ job', (s.putJob number job').jobs = before ++ job' :: after := by
    refine ⟨s.jobs.take number, s.jobs.drop (number + 1), ?_, ?_⟩
    · rw [← List.drop_eq_getElem_cons hlt, List.take_append_drop]
    · intro job'
      rw [putJob, List.set_eq_take_append_cons_drop, if_pos hlt]
  generalize s.jobs[number] = job at hjobs
  refine ⟨before.filter (·.client = job.client), after.filter (·.client = job.client), ?_, ?_⟩
  · simp [jobsOf, hjobs]
  · intro job' hclient
    refine ⟨by simp [jobsOf, hset, hclient], ?_⟩
    intro i hi
    have hne : ¬ job.client = i := Ne.symm hi
    simp [jobsOf, hset, hjobs, hclient, hne]

end Parts

/-! ## Well-formed systems -/

/-- A system in which every message is on its way to the task that it names, and every call that has
asked for a queue has the queue of the mailbox. -/
structure WellFormed (tasks : List String) (group : String) (epoch : UInt64) (s : System β) :
    Prop where
  connected : s.session.Connected group epoch
  tasks_eq : s.session.tasks = tasks
  mailboxes : ∀ c ∈ s.session.clients, c.mailboxes.WellFormed
  stamped : ∀ c ∈ s.session.clients, ∀ box, ∀ m ∈ c.mailboxes.waiting box, m.epoch = epoch
  held : ∀ job ∈ s.jobs, ∀ source number, job.held.lookup source = some number →
    ∃ c, s.client? job.client = some c ∧
      c.mailboxes.number? ⟨job.operator, source⟩ = some number
  addressed : ∀ l ∈ s.transit, l.Addressed tasks group epoch

namespace WellFormed

variable {tasks : List String} {group destination : String} {epoch : UInt64} {s : System β}
  {i : Nat} {c : Client}

theorem getElem?_tasks (h : s.WellFormed tasks group epoch) (i : Nat) :
    tasks[i]? = (s.client? i).map (·.task) := by
  rw [← h.tasks_eq, Session.getElem?_tasks, client?]

theorem number_unique (h : s.WellFormed tasks group epoch) {task : String} {i j : Nat}
    (hi : tasks[i]? = some task) (hj : tasks[j]? = some task) : i = j := by
  rw [← h.tasks_eq] at hi hj
  exact h.connected.number_unique hi hj

theorem number_eq_iff (h : s.WellFormed tasks group epoch) {task other : String} {i j : Nat}
    (hi : tasks[i]? = some task) (hj : tasks[j]? = some other) : i = j ↔ task = other := by
  constructor
  · rintro rfl
    exact Option.some.inj (hi.symm.trans hj)
  · rintro rfl
    exact h.number_unique hi hj

/-- Other mailboxes of a client, in which no queue that is in use has changed its number. -/
theorem putClient (h : s.WellFormed tasks group epoch) (hc : s.client? i = some c)
    {mailboxes : Mailboxes} (hmailboxes : mailboxes.WellFormed)
    (hstamped : ∀ box, ∀ m ∈ mailboxes.waiting box, m.epoch = epoch)
    (hnumber : ∀ box number, c.mailboxes.number? box = some number →
      mailboxes.number? box = some number) :
    (s.putClient i { c with mailboxes }).WellFormed tasks group epoch := by
  obtain ⟨hgroup, hepoch, hpresent, hlistens, hhearing⟩ :=
    h.connected.attends c (List.mem_of_getElem? hc)
  have htasks := Session.tasks_put (d := { c with mailboxes }) hc rfl
  refine ⟨h.connected.put hc rfl rfl ⟨hgroup, hepoch, hpresent, hlistens, hhearing⟩,
    htasks.trans h.tasks_eq, ?_, ?_, ?_, h.addressed⟩
  · intro d hd
    rcases List.mem_or_eq_of_mem_set hd with hd | rfl
    · exact h.mailboxes d hd
    · exact hmailboxes
  · intro d hd
    rcases List.mem_or_eq_of_mem_set hd with hd | rfl
    · exact h.stamped d hd
    · exact hstamped
  · intro job hjob source number hlookup
    obtain ⟨d, hd, hbox⟩ := h.held job hjob source number hlookup
    rw [client?_putClient hc]
    split
    · next hi =>
      subst hi
      obtain rfl := Option.some.inj (hc.symm.trans hd)
      exact ⟨_, rfl, hnumber _ _ hbox⟩
    · exact ⟨d, hd, hbox⟩

theorem openQueue (h : s.WellFormed tasks group epoch) (hc : s.client? i = some c)
    (box : Mailbox) : (s.putClient i (c.openQueue box).1).WellFormed tasks group epoch := by
  have hmem := List.mem_of_getElem? hc
  apply h.putClient hc ((h.mailboxes c hmem).opened box)
  · intro other m hm
    rw [c.mailboxes.waiting_opened box other] at hm
    exact h.stamped c hmem other m hm
  · intro other number hother
    exact Mailboxes.number?_opened_of_some hother box

/-- A message that is taken bears the epoch of the group. -/
theorem pop (h : s.WellFormed tasks group epoch) (hc : s.client? i = some c) {box : Mailbox}
    {queue : Nat} {m : Message} {mailboxes : Mailboxes}
    (hbox : c.mailboxes.number? box = some queue)
    (hpop : c.mailboxes.pop? queue = some (m, mailboxes)) :
    m.epoch = epoch ∧ (s.putClient i { c with mailboxes }).WellFormed tasks group epoch := by
  have hmem := List.mem_of_getElem? hc
  obtain ⟨hmailboxes, hnumber, hwaiting, hother⟩ := (h.mailboxes c hmem).pop?_eq hbox hpop
  have hstamped := h.stamped c hmem box
  rw [hwaiting] at hstamped
  refine ⟨hstamped m List.mem_cons_self, ?_⟩
  apply h.putClient hc hmailboxes
  · intro other m' hm'
    by_cases he : other = box
    · subst he
      exact hstamped m' (List.mem_cons_of_mem _ hm')
    · rw [hother other he] at hm'
      exact h.stamped c hmem other m' hm'
  · intro other number hnumbered
    rw [hnumber, hnumbered]

theorem deliver (h : s.WellFormed tasks group epoch) (hc : s.client? i = some c) {m : Message}
    (hepoch : m.epoch = epoch) :
    (s.putClient i { c with mailboxes := c.mailboxes.deliver m }).WellFormed tasks group epoch := by
  have hmem := List.mem_of_getElem? hc
  apply h.putClient hc ((h.mailboxes c hmem).deliver m)
  · intro box m' hm'
    rw [(h.mailboxes c hmem).waiting_deliver] at hm'
    split at hm'
    · rcases List.mem_append.1 hm' with hold | hnew
      · exact h.stamped c hmem box m' hold
      · obtain rfl := List.mem_singleton.1 hnew
        exact hepoch
    · exact h.stamped c hmem box m' hm'
  · intro box number hbox
    exact Mailboxes.number?_opened_of_some hbox _

/-- Another state of a call, with queues of its mailboxes. -/
theorem putJob (h : s.WellFormed tasks group epoch) (number : Nat) (job' : Job β)
    (hheld : ∀ source queue, job'.held.lookup source = some queue →
      ∃ c, s.client? job'.client = some c ∧
        c.mailboxes.number? ⟨job'.operator, source⟩ = some queue) :
    (s.putJob number job').WellFormed tasks group epoch := by
  refine { h with held := ?_ }
  intro job hjob
  rcases List.mem_or_eq_of_mem_set hjob with hjob | rfl
  · exact h.held job hjob
  · exact hheld

/-- The name service sends what is for a task of the group to the client of that task. -/
theorem exists_listener (h : s.WellFormed tasks group epoch) (hc : s.client? i = some c)
    (hmem : destination ∈ tasks) :
    ∃ address receiver, c.resolve s.session.names destination = .ok address ∧
      s.listener? address = some receiver ∧ tasks[receiver]? = some destination := by
  have hpresent := (h.connected.attends c (List.mem_of_getElem? hc)).present
  rw [← h.tasks_eq] at hmem
  obtain ⟨d, hd, rfl⟩ := List.mem_map.1 hmem
  obtain ⟨home, hhome, hlookup⟩ := Client.isPublished_iff.1 (h.connected.published d hd)
  have hlistens := (h.connected.attends d hd).listens
  obtain ⟨receiver, hreceiver⟩ : ∃ receiver, s.listener? home = some receiver := by
    rw [listener?, ← Option.isSome_iff_exists, List.findIdx?_isSome, List.any_eq_true]
    exact ⟨d, hd, by simp [hhome, hlistens]⟩
  obtain ⟨hlt, hfound, _⟩ := List.findIdx?_eq_some_iff_getElem.1 hreceiver
  have hsame : s.session.clients[receiver] = d := by
    apply h.connected.client_unique (List.getElem_mem hlt) hd
    rw [hhome]
    exact of_decide_eq_true (Bool.and_eq_true_iff.1 hfound).1
  refine ⟨home, receiver, ?_, hreceiver, ?_⟩
  · rw [Client.resolve, hpresent, hlookup]
    rfl
  · rw [h.getElem?_tasks, client?, List.getElem?_eq_getElem hlt, hsame]
    rfl

/-- A message of a client is one more chunk for the task to which its letter goes. -/
theorem pieces_stamp (h : s.WellFormed tasks group epoch) {parcel : Parcel} {receiver j : Nat}
    (hreceiver : tasks[receiver]? = some parcel.destination)
    (hj : tasks[j]? = some destination) (c : Client) (op operator : String) (client i : Nat) :
    Letter.pieces operator i j [⟨client, receiver, c.stamp op parcel⟩] =
      if i = client ∧ op = operator ∧ parcel.destination = destination then [parcel.chunk]
      else [] := by
  rw [Letter.pieces_singleton]
  refine if_congr ?_ rfl rfl
  show client = i ∧ receiver = j ∧ op = operator ↔ _
  rw [h.number_eq_iff hreceiver hj, and_comm (a := parcel.destination = destination),
    eq_comm (a := i)]

/-- What is for somebody else cannot be sent. -/
theorem exists_error (h : s.WellFormed tasks group epoch) (hc : s.client? i = some c)
    (hmem : destination ∉ tasks) : ∃ e, c.resolve s.session.names destination = .error e := by
  have hpresent := (h.connected.attends c (List.mem_of_getElem? hc)).present
  cases hlookup : s.session.names.lookup destination with
  | error e =>
    refine ⟨.ofUnresolved e, ?_⟩
    rw [Client.resolve, hpresent, hlookup]
    rfl
  | ok address =>
    rw [← h.tasks_eq] at hmem
    exact absurd (h.connected.mem_of_lookup _ _ hlookup) hmem

end WellFormed

end System

end Collective
