import Collective.Proofs.Group.Mailbox
import Collective.Proofs.Group.Newest

/-!
# Messages that come early

A message may come before its receiver has the bundle under which it was sent. It waits in its
mailbox, whatever bundles are installed until somebody asks for it, as long as each of them names
its source. A bundle that does not name the source drops the mailbox with all that waits in it,
whatever the stamps are, and even if the next bundle names the source.
-/

namespace Collective

namespace Mailboxes

variable {ms : Mailboxes} {box : Mailbox} {number : Nat} {m : Message} {rest : List Message}

/-- The first message of a mailbox can be taken out of its queue. -/
theorem pop?_of_waiting (hbox : ms.number? box = some number)
    (hwaiting : ms.waiting box = m :: rest) :
    ms.pop? number = some (m, { ms with queues := ms.queues.set number rest }) := by
  have hqueue : ms.queue number = m :: rest := by
    rw [← hwaiting, waiting, hbox]
    rfl
  rw [pop?, hqueue]

/-- Nothing waits in a mailbox that has been dropped. -/
theorem waiting_retain_of_not_mem {sources : List String} (h : box.source ∉ sources) :
    (ms.retain sources).waiting box = [] := by
  rw [waiting, number?_retain, if_neg h]
  rfl

end Mailboxes

namespace Client

variable {c : Client} {bundle : Bundle} {box : Mailbox} {queue : Nat} {event : Event}
  {history before later : List Event} {m other : Message} {held taken : List Message}

/-! ## What waits in a mailbox -/

theorem wellFormed_route (h : c.mailboxes.WellFormed) (m : Message) :
    (c.route m).mailboxes.WellFormed := by
  rw [route]
  split
  · exact h.deliver m
  · exact h

/-- Whatever happens to a client, no two mailboxes share a queue. -/
theorem wellFormed_step (h : c.mailboxes.WellFormed) (event : Event) :
    (c.step event).mailboxes.WellFormed := by
  cases event with
  | hear source m =>
    exact hear_induct (P := fun d => d.mailboxes.WellFormed) h fun d hd => wellFormed_route hd m
  | ask box => exact h.opened box
  | take queue =>
    cases hpop : c.mailboxes.pop? queue with
    | none => rwa [step_take_of_none hpop]
    | some found =>
      rw [step_take_of_pop? hpop]
      exact (h.pop? hpop).1
  | reconfigure bundle =>
    by_cases htask : bundle.task = c.task
    · rw [step, mailboxes_given htask]
      exact h.retain bundle.neighbors
    · rwa [step, given_of_ne_task htask]

theorem wellFormed_after (h : c.mailboxes.WellFormed) (history : List Event) :
    (c.after history).mailboxes.WellFormed := by
  induction history generalizing c with
  | nil => exact h
  | cons event history ih => exact ih (wellFormed_step h event)

theorem wellFormed_of_join {manager : Manager Unit} {limit : Option Nat} {names names' : Registry}
    (h : join bundle manager limit names = .ok (c, names')) : c.mailboxes.WellFormed := by
  rw [join] at h
  split at h
  · cases h
  · obtain ⟨rfl, -⟩ := Prod.mk.inj (Except.ok.inj h)
    exact Mailboxes.wellFormed_empty

/-- What waits in a mailbox has waited there before, or it is the message just routed. -/
theorem waiting_route (h : c.mailboxes.WellFormed)
    (hwaits : other ∈ (c.route m).mailboxes.waiting box) :
    other ∈ c.mailboxes.waiting box ∨ other = m := by
  rw [route] at hwaits
  split at hwaits
  · rw [h.waiting_deliver] at hwaits
    split at hwaits
    · exact (List.mem_append.1 hwaits).imp_right List.mem_singleton.1
    · exact .inl hwaits
  · exact .inl hwaits

theorem waiting_hear {source : Address} (h : c.mailboxes.WellFormed)
    (hwaits : other ∈ (c.hear source m).mailboxes.waiting box) :
    other ∈ c.mailboxes.waiting box ∨ other = m := by
  have hheard : (c.hear source m).mailboxes.WellFormed ∧
      (other ∈ (c.hear source m).mailboxes.waiting box →
        other ∈ c.mailboxes.waiting box ∨ other = m) := by
    refine hear_induct (P := fun d => d.mailboxes.WellFormed ∧ (other ∈ d.mailboxes.waiting box →
      other ∈ c.mailboxes.waiting box ∨ other = m)) ⟨h, .inl⟩ ?_
    rintro d ⟨hd, hkept⟩
    exact ⟨wellFormed_route hd m, fun hroute => (waiting_route hd hroute).elim hkept .inr⟩
  exact hheard.2 hwaits

/-- What waits in a mailbox after an event has waited there before, or it has just been heard. -/
theorem waiting_step (h : c.mailboxes.WellFormed)
    (hwaits : other ∈ (c.step event).mailboxes.waiting box) :
    other ∈ c.mailboxes.waiting box ∨ ∃ source, event = .hear source other := by
  cases event with
  | hear source m =>
    cases waiting_hear h hwaits with
    | inl hold => exact .inl hold
    | inr hnew => exact .inr ⟨source, by rw [hnew]⟩
  | ask key =>
    rw [step, openQueue, Mailboxes.waiting_opened] at hwaits
    exact .inl hwaits
  | take number =>
    cases hpop : c.mailboxes.pop? number with
    | none =>
      rw [step_take_of_none hpop] at hwaits
      exact .inl hwaits
    | some found =>
      rw [step_take_of_pop? hpop] at hwaits
      by_cases hbox : c.mailboxes.number? box = some number
      · rw [(h.pop?_eq hbox hpop).2.2.1]
        exact .inl (List.mem_cons_of_mem _ hwaits)
      · rw [← (h.pop? hpop).2.2.2 box hbox]
        exact .inl hwaits
  | reconfigure bundle =>
    by_cases htask : bundle.task = c.task
    · rw [step, mailboxes_given htask] at hwaits
      by_cases hsource : box.source ∈ bundle.neighbors
      · rw [Mailboxes.waiting_retain hsource] at hwaits
        exact .inl hwaits
      · rw [Mailboxes.waiting_retain_of_not_mem hsource] at hwaits
        cases hwaits
    · rw [step, given_of_ne_task htask] at hwaits
      exact .inl hwaits

theorem waiting_after (h : c.mailboxes.WellFormed)
    (hwaits : other ∈ (c.after history).mailboxes.waiting box) :
    other ∈ c.mailboxes.waiting box ∨ ∃ source, .hear source other ∈ history := by
  induction history generalizing c with
  | nil => exact .inl hwaits
  | cons event history ih =>
    cases ih (wellFormed_step h event) hwaits with
    | inl hold =>
      cases waiting_step h hold with
      | inl hold => exact .inl hold
      | inr hnew =>
        obtain ⟨source, rfl⟩ := hnew
        exact .inr ⟨source, List.mem_cons_self⟩
    | inr hnew =>
      obtain ⟨source, hmem⟩ := hnew
      exact .inr ⟨source, List.mem_cons_of_mem _ hmem⟩

/-- A bundle that does not name the source of a mailbox leaves nothing in it: what waits there
later has come since. -/
theorem waiting_after_of_not_mem {early late : List Event} (h : c.mailboxes.WellFormed)
    (htask : bundle.task = c.task) (hsource : box.source ∉ bundle.neighbors)
    (hwaits : other ∈ (c.after (early ++ .reconfigure bundle :: late)).mailboxes.waiting box) :
    ∃ source, .hear source other ∈ late := by
  have hdropped : ((c.after early).step (.reconfigure bundle)).mailboxes.waiting box = [] := by
    have hsame : bundle.task = (c.after early).task := htask.trans (task_after c early).symm
    rw [step, mailboxes_given hsame, Mailboxes.waiting_retain_of_not_mem hsource]
  rw [after_append, after_cons] at hwaits
  cases waiting_after (wellFormed_step (wellFormed_after h early) _) hwaits with
  | inl hold =>
    rw [hdropped] at hold
    cases hold
  | inr hnew => exact hnew

/-! ## What stays -/

/-- A client keeps a mailbox and its queue: what has been taken out of it and what waits in it are
the messages that waited in it at first, and perhaps more behind them. -/
structure Keeps (box : Mailbox) (queue : Nat) (held taken : List Message) (c : Client) : Prop where
  wellFormed : c.mailboxes.WellFormed
  number? : c.mailboxes.number? box = some queue
  flow : held <+: taken ++ c.mailboxes.waiting box

namespace Keeps

theorem route (h : Keeps box queue held taken c) (m : Message) :
    Keeps box queue held taken (c.route m) := by
  refine ⟨wellFormed_route h.wellFormed m, ?_, ?_⟩
  · rw [Client.route]
    split
    · exact Mailboxes.number?_opened_of_some h.number? _
    · exact h.number?
  · rw [Client.route]
    split
    · rw [h.wellFormed.waiting_deliver]
      split
      · rw [← List.append_assoc]
        exact h.flow.trans (List.prefix_append _ _)
      · exact h.flow
    · exact h.flow

/-- The step lemma. -/
theorem step (h : Keeps box queue held taken c)
    (hnames : ∀ b ∈ bundlesFor c.task [event], box.source ∈ b.neighbors) :
    Keeps box queue held (taken ++ c.taking queue event) (c.step event) := by
  have hnothing : ∀ {d : Client}, Keeps box queue held taken d →
      Keeps box queue held (taken ++ []) d := by
    intro d hd
    rwa [List.append_nil]
  cases event with
  | hear source m =>
    exact hnothing (hear_induct (P := Keeps box queue held taken) h fun d hd => hd.route m)
  | ask key =>
    refine hnothing ⟨h.wellFormed.opened key, Mailboxes.number?_opened_of_some h.number? key, ?_⟩
    rw [Client.step, openQueue, Mailboxes.waiting_opened]
    exact h.flow
  | take number =>
    cases hpop : c.mailboxes.pop? number with
    | none =>
      have htaking : c.taking queue (.take number) = [] := by simp [taking, hpop]
      rw [step_take_of_none hpop, htaking]
      exact hnothing h
    | some found =>
      obtain ⟨m, rest⟩ := found
      rw [step_take_of_pop? hpop]
      by_cases hqueue : number = queue
      · subst hqueue
        obtain ⟨hrest, hnumber, hwaiting, -⟩ := h.wellFormed.pop?_eq h.number? hpop
        have htaking : c.taking number (.take number) = [m] := by simp [taking, hpop]
        refine ⟨hrest, (hnumber box).trans h.number?, ?_⟩
        rw [htaking, List.append_assoc, List.singleton_append, ← hwaiting]
        exact h.flow
      · obtain ⟨hrest, hnumber, -, hother⟩ := h.wellFormed.pop? hpop
        have htaking : c.taking queue (.take number) = [] := if_neg hqueue
        have hbox : c.mailboxes.number? box ≠ some number := by
          rw [h.number?]
          simpa using fun hsame => hqueue hsame.symm
        rw [htaking]
        refine hnothing ⟨hrest, (hnumber box).trans h.number?, ?_⟩
        show held <+: taken ++ rest.waiting box
        rw [hother box hbox]
        exact h.flow
  | reconfigure bundle =>
    by_cases htask : bundle.task = c.task
    · have hsource : box.source ∈ bundle.neighbors := hnames bundle (by simp [htask])
      refine hnothing ⟨wellFormed_step h.wellFormed _, ?_, ?_⟩
      · rw [Client.step, mailboxes_given htask, Mailboxes.number?_retain, if_pos hsource, h.number?]
      · rw [Client.step, mailboxes_given htask, Mailboxes.waiting_retain hsource]
        exact h.flow
    · rw [Client.step, given_of_ne_task htask]
      exact hnothing h

/-- The run lemma. -/
theorem after (h : Keeps box queue held taken c)
    (hnames : ∀ b ∈ bundlesFor c.task history, box.source ∈ b.neighbors) :
    Keeps box queue held (taken ++ takings queue c history) (c.after history) := by
  induction history generalizing c taken with
  | nil => rwa [takings, List.append_nil]
  | cons event history ih =>
    rw [← List.singleton_append, bundlesFor_append] at hnames
    have hstep : Keeps box queue held (taken ++ c.taking queue event) (c.step event) :=
      h.step fun b hb => hnames b (List.mem_append_left _ hb)
    rw [takings, ← List.append_assoc]
    refine ih hstep ?_
    rw [task_step]
    exact fun b hb => hnames b (List.mem_append_right _ hb)

/-- A message before which no more has been taken than there was still waits behind the rest. -/
theorem exists_waiting_eq {ahead behind : List Message}
    (h : Keeps box queue (ahead ++ m :: behind) taken c) (htaken : taken.length ≤ ahead.length) :
    ∃ rest, c.mailboxes.waiting box = ahead.drop taken.length ++ m :: rest := by
  obtain ⟨more, hmore⟩ := h.flow
  refine ⟨behind ++ more, ?_⟩
  calc c.mailboxes.waiting box
      = (taken ++ c.mailboxes.waiting box).drop taken.length := List.drop_left.symm
    _ = (ahead ++ (m :: behind ++ more)).drop taken.length := by rw [← hmore, List.append_assoc]
    _ = ahead.drop taken.length ++ m :: (behind ++ more) := List.drop_append_of_le_length htaken

end Keeps

/-- Taking one message after the other leads to every message of a mailbox. -/
theorem pop?_after_takes (h : c.mailboxes.WellFormed)
    (hqueue : c.mailboxes.number? box = some queue) {ahead rest : List Message}
    (hwaiting : c.mailboxes.waiting box = ahead ++ m :: rest) :
    ∃ d, (c.after (.replicate ahead.length (.take queue))).pop? queue =
      some (d, if c.epoch ≤ m.epoch then some m else none) := by
  induction ahead generalizing c with
  | nil =>
    rw [List.length_nil, List.replicate_zero, after_nil, pop?,
      Mailboxes.pop?_of_waiting hqueue hwaiting]
    exact ⟨_, rfl⟩
  | cons first ahead ih =>
    have hpop := Mailboxes.pop?_of_waiting hqueue hwaiting
    obtain ⟨hrest, hnumber, htail, -⟩ := h.pop?_eq hqueue hpop
    rw [List.length_cons, List.replicate_succ, after_cons, step_take_of_pop? hpop]
    refine ih hrest ((hnumber box).trans hqueue) ?_
    rw [hwaiting] at htail
    exact (List.cons.inj htail).2.symm

/-- A message waits in a mailbox while bundles are installed in the order of their epochs. As long as
each of them names its source, it stays there behind those before it that have not been taken, and
whoever asks for the mailbox gets it, if the epoch of the bundle that is installed then is not
later. But if one of them does not name the source, then all that waits in the mailbox has come
since that bundle. -/
theorem early_message_kept {manager : Manager Unit} {limit : Option Nat}
    {names names' : Registry} {ahead behind : List Message}
    (hjoin : join bundle manager limit names = .ok (c, names'))
    (hrising : (accepted bundle (before ++ later)).Pairwise (·.epoch ≤ ·.epoch))
    (hqueue : (c.after before).mailboxes.number? box = some queue)
    (hwaiting : (c.after before).mailboxes.waiting box = ahead ++ m :: behind)
    (htaken : (takings queue (c.after before) later).length ≤ ahead.length) :
    ((∀ b ∈ bundlesFor bundle.task later, box.source ∈ b.neighbors) →
      (c.after (before ++ later)).bundle.epoch ≤ m.epoch →
        (c.after (before ++ later)).openQueue box = (c.after (before ++ later), queue) ∧
        ∃ d, (c.after (before ++ later ++ .replicate
          (ahead.length - (takings queue (c.after before) later).length) (.take queue))).pop? queue =
            some (d, some m)) ∧
    ∀ {b : Bundle} {early late : List Event}, later = early ++ .reconfigure b :: late →
      b.task = bundle.task → box.source ∉ b.neighbors →
        ∀ other ∈ (c.after (before ++ later)).mailboxes.waiting box,
          ∃ source, .hear source other ∈ late := by
  obtain ⟨htask, hjoined⟩ := follows_of_join hjoin
  have hbefore := wellFormed_after (wellFormed_of_join hjoin) before
  have hsame : (c.after before).task = bundle.task := (task_after c before).trans htask
  constructor
  · intro hnames hepoch
    have hkeeps : Keeps box queue (ahead ++ m :: behind) [] (c.after before) :=
      ⟨hbefore, hqueue, by simp [hwaiting]⟩
    have hkept : Keeps box queue (ahead ++ m :: behind) (takings queue (c.after before) later)
        (c.after (before ++ later)) := by
      rw [after_append]
      exact hkeeps.after (hsame ▸ hnames)
    obtain ⟨rest, hlater⟩ := hkept.exists_waiting_eq htaken
    have hnewest : (c.after (before ++ later)).epoch = (c.after (before ++ later)).bundle.epoch := by
      refine (hjoined.after (before ++ later)).epoch_eq_of_pairwise ?_
      rw [htask]
      exact hrising
    constructor
    · rw [openQueue, Mailboxes.opened, hkept.number?]
    · obtain ⟨d, hpop⟩ := pop?_after_takes hkept.wellFormed hkept.number? hlater
      rw [List.length_drop, ← after_append, hnewest, if_pos hepoch] at hpop
      exact ⟨d, hpop⟩
  · rintro b early late rfl hown hsource other hwaits
    rw [after_append] at hwaits
    exact waiting_after_of_not_mem hbefore (hown.trans hsame.symm) hsource hwaits

end Client

/-! A chain of four tasks loses two of them, one after the other. The root sends with the last
bundles while the task at hand has its first one. If the task has always been next to the root, the
message waits for it; if it only comes to be next to the root, the bundle in between drops it. -/

namespace Client.Early

def chain (tasks : List String) : Coordinator :=
  .after ⟨"g", 1, 0, [], .empty⟩
    (.operator "model" (.plain .broadcast "R") :: tasks.map fun task => .member (.add task))

def without (tasks : List String) (c : Coordinator) : Coordinator :=
  c.after (tasks.map fun task => .member (.remove task))

def bundle (c : Coordinator) : Bundle := (c.bundle "A").toOption.getD ⟨"g", "A", 0, .empty⟩

def manager : Manager Unit := .new (some (Session.localHome ["A"] "A")) 1024

def message (epoch : UInt64) : Message where
  group := "g"
  epoch
  operator := "model"
  source := "R"
  destination := "A"
  chunk := ⟨0, true⟩
  payload := [53]

def box : Mailbox := ⟨"model", "R"⟩

def root : Address := Session.localHome ["A", "R"] "R"

def before : List Event := [.hear root (message 0), .hear root (message 2)]

def later (c : Coordinator) : List Event :=
  [.reconfigure (bundle (without ["X"] c)), .reconfigure (bundle (without ["X", "Y"] c))]

def beside : Coordinator := chain ["R", "A", "X", "Y"]

def besideJoined : Client × Registry :=
  (join (bundle beside) manager none .empty).toOption.get (by decide +kernel)

def behind : Coordinator := chain ["R", "Y", "X", "A"]

def behindJoined : Client × Registry :=
  (join (bundle behind) manager none .empty).toOption.get (by decide +kernel)

/-- The message is behind one with an older stamp, which is skipped. -/
theorem early_message_kept_beside_root :
    join (bundle beside) manager none .empty = .ok besideJoined ∧
    (accepted (bundle beside) (before ++ later beside)).map (·.epoch) = [0, 1, 2] ∧
    (besideJoined.1.after before).mailboxes.waiting box = [message 0, message 2] ∧
    ∃ d, (besideJoined.1.after (before ++ later beside ++ [.take 0])).pop? 0 =
      some (d, some (message 2)) := by
  have hjoin : join (bundle beside) manager none .empty = .ok besideJoined := by decide +kernel
  have hwaiting : (besideJoined.1.after before).mailboxes.waiting box =
      [message 0] ++ message 2 :: [] := by decide +kernel
  refine ⟨hjoin, by decide +kernel, hwaiting, ?_⟩
  have hnames : ∀ b ∈ bundlesFor (bundle beside).task (later beside),
      box.source ∈ b.neighbors := by decide +kernel
  exact ((early_message_kept hjoin (by decide +kernel) (by decide +kernel) hwaiting
    (by decide +kernel)).1 hnames (by decide +kernel)).2

/-- A message that has not been received is not always there for the bundle it was sent under. -/
theorem early_message_dropped : ¬ ∀ {bundle : Bundle} {manager : Manager Unit}
    {limit : Option Nat} {names names' : Registry} {c : Client} {before later : List Event}
    {box : Mailbox} {m : Message},
    join bundle manager limit names = .ok (c, names') →
      (accepted bundle (before ++ later)).Pairwise (·.epoch ≤ ·.epoch) →
        m ∈ (c.after before).mailboxes.waiting box → (∀ queue, Event.take queue ∉ later) →
          (c.after (before ++ later)).bundle.epoch ≤ m.epoch →
            box.source ∈ (c.after (before ++ later)).bundle.neighbors →
              m ∈ (c.after (before ++ later)).mailboxes.waiting box := by
  intro hkept
  have hjoin : join (bundle behind) manager none .empty = .ok behindJoined := by decide +kernel
  have hnothing : (behindJoined.1.after (before ++ later behind)).mailboxes.waiting box = [] := by
    decide +kernel
  have hmem : message 2 ∈ (behindJoined.1.after (before ++ later behind)).mailboxes.waiting box :=
    hkept hjoin (by decide +kernel) (by decide +kernel) (by simp [later]) (by decide +kernel)
      (by decide +kernel)
  rw [hnothing] at hmem
  cases hmem

end Client.Early

end Collective
