import Collective.Proofs.Group.Connection
import Collective.Proofs.Group.Network

/-!
# Epochs of messages

Bundles may change at any time, also while calls go on. Whatever happens, a message that a call
takes bears an epoch to which its sender had come and which is not older than the receiver's. This
is about one hop: a message is stamped when it is sent, and not when the call began that sends it.
-/

namespace Collective

/-! ## Mailboxes -/

namespace Mailboxes

variable {ms rest : Mailboxes} {box : Mailbox} {number : Nat} {m other : Message}

/-- The message waits in one of the queues. -/
def Holds (ms : Mailboxes) (m : Message) : Prop := ∃ queue ∈ ms.queues, m ∈ queue

theorem not_holds_empty : ¬ empty.Holds m := by
  rintro ⟨queue, hqueue, -⟩
  cases hqueue

theorem holds_of_mem_queue (h : m ∈ ms.queue number) : ms.Holds m := by
  rw [queue] at h
  cases hqueue : ms.queues[number]? with
  | none =>
    rw [hqueue] at h
    cases h
  | some queue =>
    rw [hqueue] at h
    exact ⟨queue, List.mem_of_getElem? hqueue, h⟩

theorem holds_of_opened (h : (ms.opened box).1.Holds m) : ms.Holds m := by
  cases hnumber : ms.number? box with
  | some number => rwa [opened, hnumber] at h
  | none =>
    rw [opened, hnumber] at h
    obtain ⟨queue, hqueue, hm⟩ := h
    rcases List.mem_append.1 hqueue with hold | hnew
    · exact ⟨queue, hold, hm⟩
    · obtain rfl := List.mem_singleton.1 hnew
      cases hm

theorem holds_of_deliver (h : (ms.deliver other).Holds m) : ms.Holds m ∨ m = other := by
  obtain ⟨queue, hqueue, hm⟩ := h
  obtain ⟨i, hi⟩ := List.getElem?_of_mem hqueue
  rw [deliver, List.getElem?_modify] at hi
  obtain ⟨before, hbefore, rfl⟩ := Option.map_eq_some_iff.1 hi
  have hold : m ∈ before → ms.Holds m := by
    intro hm
    exact holds_of_opened ⟨before, List.mem_of_getElem? hbefore, hm⟩
  split at hm
  · rcases List.mem_append.1 hm with hm | hm
    · exact .inl (hold hm)
    · exact .inr (List.mem_singleton.1 hm)
  · exact .inl (hold hm)

theorem holds_of_pop? (h : ms.pop? number = some (m, rest)) : ms.Holds m := by
  rw [pop?] at h
  split at h
  · next first more hqueue =>
    obtain ⟨rfl, rfl⟩ := Prod.mk.inj (Option.some.inj h)
    apply holds_of_mem_queue
    rw [hqueue]
    exact List.mem_cons_self
  · cases h

theorem holds_of_holds_rest (h : ms.pop? number = some (other, rest)) (hm : rest.Holds m) :
    ms.Holds m := by
  rw [pop?] at h
  split at h
  · next first more hqueue =>
    obtain ⟨rfl, rfl⟩ := Prod.mk.inj (Option.some.inj h)
    obtain ⟨queue, hmem, hm⟩ := hm
    rcases List.mem_or_eq_of_mem_set hmem with hold | rfl
    · exact ⟨queue, hold, hm⟩
    · apply holds_of_mem_queue
      rw [hqueue]
      exact List.mem_cons_of_mem _ hm
  · cases h

end Mailboxes

/-! ## Clients -/

namespace Client

variable {c d : Client} {bundle : Bundle} {m other : Message}

/-- A client that has gone on keeps its epoch or has a later one, and has no other messages. -/
structure GoesOn (c d : Client) : Prop where
  epoch_le : c.epoch ≤ d.epoch
  holds : ∀ m, d.mailboxes.Holds m → c.mailboxes.Holds m

theorem GoesOn.refl (c : Client) : c.GoesOn c := ⟨UInt64.le_refl _, fun _ h => h⟩

theorem goesOn_openQueue (c : Client) (box : Mailbox) : c.GoesOn (c.openQueue box).1 :=
  ⟨UInt64.le_refl _, fun _ h => Mailboxes.holds_of_opened h⟩

theorem goesOn_pop? {number : Nat} {message : Option Message}
    (h : c.pop? number = some (d, message)) : c.GoesOn d := by
  obtain ⟨⟨first, rest⟩, hpop, h⟩ := Option.map_eq_some_iff.1 h
  obtain ⟨rfl, -⟩ := Prod.mk.inj h
  exact ⟨UInt64.le_refl _, fun m hm => Mailboxes.holds_of_holds_rest hpop hm⟩

theorem goesOn_install {installation next : Installation}
    (h : installation.step? bundle c = some (d, next)) : c.GoesOn d := by
  cases installation with
  | start =>
    rw [Installation.step?] at h
    split at h
    · obtain ⟨rfl, -⟩ := Prod.mk.inj (Option.some.inj h)
      exact ⟨UInt64.le_refl _, fun _ h => h⟩
    · obtain ⟨rfl, -⟩ := Prod.mk.inj (Option.some.inj h)
      exact .refl c
  | raise =>
    obtain ⟨rfl, -⟩ := Prod.mk.inj (Option.some.inj h)
    refine ⟨?_, fun _ h => h⟩
    show c.epoch ≤ if c.epoch ≤ bundle.epoch then bundle.epoch else c.epoch
    split
    · next hle => exact hle
    · exact UInt64.le_refl _
  | replace =>
    obtain ⟨rfl, -⟩ := Prod.mk.inj (Option.some.inj h)
    exact ⟨UInt64.le_refl _, fun _ h => h⟩
  | done => cases h

theorem goesOn_shutdown (c : Client) (names : Registry) : c.GoesOn (c.shutdown names).1 := by
  have hdeaf : c.deafen.epoch = c.epoch ∧ c.deafen.mailboxes = c.mailboxes := by
    rw [deafen]
    split <;> exact ⟨rfl, rfl⟩
  constructor
  · exact UInt64.le_of_eq hdeaf.1.symm
  · intro m hm
    have hsame : (c.shutdown names).1.mailboxes = c.mailboxes := hdeaf.2
    rwa [hsame] at hm

/-- What a client hears can only add the message. -/
theorem hear_eq (c : Client) (source : Address) (m : Message) :
    (c.hear source m).epoch = c.epoch ∧
      ∀ other, (c.hear source m).mailboxes.Holds other → c.mailboxes.Holds other ∨ other = m := by
  refine hear_induct (P := fun d => d.epoch = c.epoch ∧ ∀ other, d.mailboxes.Holds other →
    c.mailboxes.Holds other ∨ other = m) ⟨rfl, fun _ h => .inl h⟩ ?_
  rintro d ⟨hepoch, hholds⟩
  rw [route]
  split
  · refine ⟨hepoch, ?_⟩
    intro other hother
    exact (Mailboxes.holds_of_deliver hother).elim (hholds other) .inr
  · exact ⟨hepoch, hholds⟩

end Client

/-! ## Runs -/

namespace System

variable {β : Type} {s t : System β} {c d : Client} {i number : Nat}

/-- Every message bears an epoch to which its sender has come, and what waits has been sent. -/
structure Stamped (s : System β) : Prop where
  sent : ∀ l ∈ s.sent, ∃ c, s.client? l.sender = some c ∧ l.message.epoch ≤ c.epoch
  transit : ∀ l ∈ s.transit, l ∈ s.sent
  waiting : ∀ c ∈ s.session.clients, ∀ m, c.mailboxes.Holds m → ∃ l ∈ s.sent, l.message = m

namespace Stamped

theorem idle {start : Session} (hempty : ∀ c ∈ start.clients, c.mailboxes = .empty) :
    (System.idle start : System β).Stamped := by
  refine ⟨nofun, nofun, ?_⟩
  intro c hc m hm
  rw [hempty c hc] at hm
  exact absurd hm Mailboxes.not_holds_empty

/-- A client may come to a later epoch and to messages that have been sent. -/
theorem putClient (h : s.Stamped) (hc : s.client? i = some c) (hepoch : c.epoch ≤ d.epoch)
    (hholds : ∀ m, d.mailboxes.Holds m → c.mailboxes.Holds m ∨ ∃ l ∈ s.sent, l.message = m) :
    (s.putClient i d).Stamped := by
  refine ⟨?_, h.transit, ?_⟩
  · intro l hl
    obtain ⟨sender, hsender, hle⟩ := h.sent l hl
    rw [client?_putClient hc]
    by_cases hi : i = l.sender
    · rw [if_pos hi]
      rw [← hi, hc] at hsender
      obtain rfl := Option.some.inj hsender
      exact ⟨d, rfl, UInt64.le_trans hle hepoch⟩
    · rw [if_neg hi]
      exact ⟨sender, hsender, hle⟩
  · intro other hother m hm
    rcases List.mem_or_eq_of_mem_set hother with hother | rfl
    · exact h.waiting other hother m hm
    · rcases hholds m hm with hm | hm
      · exact h.waiting c (List.mem_of_getElem? hc) m hm
      · exact hm

theorem goesOn (h : s.Stamped) (hc : s.client? i = some c) (hd : c.GoesOn d) :
    (s.putClient i d).Stamped :=
  h.putClient hc hd.epoch_le fun m hm => .inl (hd.holds m hm)

/-- A call does not bear on what its client has sent or heard. -/
theorem putJob (h : s.Stamped) (number : Nat) (job : Job β) : (s.putJob number job).Stamped :=
  ⟨h.sent, h.transit, h.waiting⟩

theorem send (h : s.Stamped) (ht : s.send? number = some t) : t.Stamped := by
  obtain ⟨job, hjob, ht⟩ := Option.bind_eq_some_iff.1 ht
  obtain ⟨⟨parcel, rest⟩, hsent, ht⟩ := Option.bind_eq_some_iff.1 ht
  obtain ⟨c, hc, ht⟩ := Option.bind_eq_some_iff.1 ht
  split at ht
  · obtain rfl := Option.some.inj ht
    exact h.putJob _ _
  · split at ht
    · obtain rfl := Option.some.inj ht
      exact h.putJob _ _
    · next receiver hreceiver =>
      obtain rfl := Option.some.inj ht
      refine ⟨?_, ?_, ?_⟩
      · intro l hl
        rcases List.mem_append.1 hl with hold | hnew
        · exact h.sent l hold
        · obtain rfl := List.mem_singleton.1 hnew
          exact ⟨c, hc, UInt64.le_refl _⟩
      · intro l hl
        rcases List.mem_append.1 hl with hold | hnew
        · exact List.mem_append_left _ (h.transit l hold)
        · exact List.mem_append_right _ hnew
      · intro d hd m hm
        obtain ⟨l, hl, heq⟩ := h.waiting d hd m hm
        exact ⟨l, List.mem_append_left _ hl, heq⟩

theorem hold {source : String} (h : s.Stamped) (ht : s.hold? number source = some t) :
    t.Stamped := by
  obtain ⟨job, hjob, ht⟩ := Option.bind_eq_some_iff.1 ht
  obtain ⟨c, hc, ht⟩ := Option.bind_eq_some_iff.1 ht
  split at ht
  · obtain rfl := Option.some.inj ht
    exact (h.goesOn hc (c.goesOn_openQueue _)).putJob _ _
  · cases ht

theorem take {source : String} (h : s.Stamped) (ht : s.take? number source = some t) :
    t.Stamped := by
  obtain ⟨job, hjob, ht⟩ := Option.bind_eq_some_iff.1 ht
  obtain ⟨queue, hqueue, ht⟩ := Option.bind_eq_some_iff.1 ht
  obtain ⟨c, hc, ht⟩ := Option.bind_eq_some_iff.1 ht
  obtain ⟨⟨d, message⟩, hpop, ht⟩ := Option.bind_eq_some_iff.1 ht
  have hput := h.goesOn hc (Client.goesOn_pop? hpop)
  cases message with
  | none =>
    obtain rfl := Option.some.inj ht
    exact hput
  | some m =>
    obtain ⟨call, -, ht⟩ := Option.bind_eq_some_iff.1 ht
    obtain rfl := Option.some.inj ht
    exact hput.putJob _ _

theorem giveUp {source : String} (h : s.Stamped) (ht : s.giveUp? number source = some t) :
    t.Stamped := by
  obtain ⟨job, hjob, ht⟩ := Option.bind_eq_some_iff.1 ht
  obtain ⟨queue, hqueue, ht⟩ := Option.bind_eq_some_iff.1 ht
  obtain ⟨c, hc, ht⟩ := Option.bind_eq_some_iff.1 ht
  split at ht
  · obtain rfl := Option.some.inj ht
    exact h.putJob _ _
  · cases ht

theorem deliver (h : s.Stamped) (ht : s.deliver? number = some t) : t.Stamped := by
  obtain ⟨letter, hletter, ht⟩ := Option.bind_eq_some_iff.1 ht
  obtain ⟨c, hc, ht⟩ := Option.bind_eq_some_iff.1 ht
  obtain ⟨sender, hsender, ht⟩ := Option.bind_eq_some_iff.1 ht
  obtain ⟨home, hhome, ht⟩ := Option.bind_eq_some_iff.1 ht
  dsimp only at ht
  split at ht
  · cases ht
  · obtain rfl := Option.some.inj ht
    obtain ⟨hepoch, hholds⟩ := c.hear_eq home letter.message
    have hsent := h.transit letter (List.mem_of_getElem? hletter)
    have hfrom : ∀ m, (c.hear home letter.message).mailboxes.Holds m →
        c.mailboxes.Holds m ∨ ∃ l ∈ s.sent, l.message = m := by
      intro m hm
      rcases hholds m hm with hm | rfl
      · exact .inl hm
      · exact .inr ⟨letter, hsent, rfl⟩
    have hput := h.putClient hc (UInt64.le_of_eq hepoch.symm) hfrom
    refine ⟨hput.sent, ?_, hput.waiting⟩
    intro l hl
    exact h.transit l (List.mem_of_mem_eraseIdx hl)

theorem install (h : s.Stamped) (ht : s.install? number = some t) : t.Stamped := by
  obtain ⟨⟨client, bundle, installation⟩, hnumber, ht⟩ := Option.bind_eq_some_iff.1 ht
  obtain ⟨c, hc, ht⟩ := Option.bind_eq_some_iff.1 ht
  obtain ⟨⟨d, next⟩, hstep, ht⟩ := Option.bind_eq_some_iff.1 ht
  obtain rfl := Option.some.inj ht
  have hput := h.goesOn hc (Client.goesOn_install hstep)
  exact ⟨hput.sent, hput.transit, hput.waiting⟩

theorem shutdown (h : s.Stamped) (task : String) :
    ({ s with session := s.session.shutdown task } : System β).Stamped := by
  cases hclient : s.session.client? task with
  | none =>
    rw [Session.shutdown, hclient]
    exact h
  | some found =>
    have hput := h.goesOn (Session.getElem?_of_client? hclient)
      (Client.goesOn_shutdown _ s.session.names)
    rw [Session.shutdown, hclient]
    exact ⟨hput.sent, hput.transit, hput.waiting⟩

/-- Every step keeps the stamps right. -/
theorem step (h : s.Stamped) {event : Event β} (ht : s.step? event = some t) : t.Stamped := by
  cases event with
  | begin job =>
    obtain rfl := Option.some.inj ht
    exact ⟨h.sent, h.transit, h.waiting⟩
  | send number => exact h.send ht
  | hold number source => exact h.hold ht
  | take number source => exact h.take ht
  | giveUp number source => exact h.giveUp ht
  | deliver number => exact h.deliver ht
  | reconfigure client bundle =>
    obtain rfl := Option.some.inj ht
    exact ⟨h.sent, h.transit, h.waiting⟩
  | install number => exact h.install ht
  | shutdown task =>
    obtain rfl := Option.some.inj ht
    exact h.shutdown task

end Stamped

/-- Whatever happens in a run, also if bundles change while calls go on: a message that is taken
out of a queue and not skipped bears an epoch that is not older than the receiver's, and one to
which its sender has come. -/
theorem epoch_of_taken {allowed : System β → Event β → Prop} {start : Session}
    (hempty : ∀ c ∈ start.clients, c.mailboxes = .empty)
    (hrun : Reachable allowed (.idle start) s) (hc : s.client? i = some c) {m : Message}
    (hpop : c.pop? number = some (d, some m)) :
    c.epoch ≤ m.epoch ∧ ∃ l ∈ s.sent, l.message = m ∧
      ∃ sender, s.client? l.sender = some sender ∧ m.epoch ≤ sender.epoch := by
  have h : s.Stamped := hrun.induct (.idle hempty) fun _ _ _ h _ ht => h.step ht
  obtain ⟨⟨first, rest⟩, hfirst, hpair⟩ := Option.map_eq_some_iff.1 hpop
  obtain ⟨-, hmessage⟩ := Prod.mk.inj hpair
  split at hmessage
  · next hle =>
    obtain rfl := Option.some.inj hmessage
    obtain ⟨l, hl, rfl⟩ :=
      h.waiting c (List.mem_of_getElem? hc) first (Mailboxes.holds_of_pop? hfirst)
    exact ⟨hle, l, hl, rfl, h.sent l hl⟩
  · cases hmessage

end System

/-! A task leaves while a call of another one waits for the task in between. The call goes on with
the new epoch, and so the root adds a value of the round that was given up to one of the next. -/

namespace Session.Renewal

def coordinator : Coordinator :=
  .after ⟨"g", 1, 0, [], .empty⟩ [
    .operator "s" ⟨.reduce .sum, "R", .json, .whole⟩,
    .member (.add "R"), .member (.add "A"), .member (.add "C"), .member (.add "B")]

/-- The last task of the chain leaves. -/
def renewed : Coordinator := coordinator.after [.member (.remove "B")]

def home : String → Address := localHome ["R", "A", "C", "B"]

def start : Session :=
  (joinAll home 1024 none ["R", "A", "C", "B"] (.new coordinator)).toOption.get (by decide +kernel)

def bundle (c : Coordinator) (task : String) : Bundle :=
  (c.bundle task).toOption.getD ⟨"g", task, 0, .empty⟩

/-- The call by which a task with a bundle hands in a value. -/
def contribution (client : Nat) (b : Bundle) (value : Int32) : Option (Job (Option Int32)) :=
  (b.reduceSender .i32 "s").toOption.map fun (e, function) =>
    .new client (.numeric .i32) e ((e.sendReduce (function.apply .i32) value).map fun _ => none)

/-- The call of the root with a bundle. -/
def total (client : Nat) (b : Bundle) : Option (Job (Option Int32)) :=
  (b.reduceReceiver .i32 "s").toOption.map fun (e, function) =>
    .new client (.numeric .i32) e ((e.receiveReduce (function.apply .i32)).map some)

/-- The task `A` hands in 1 before the change. -/
def abandoned : Job (Option Int32) :=
  (contribution 1 (bundle coordinator "A") 1).get (by decide +kernel)

/-- The task `C` hands in 100 after it. -/
def fresh : Job (Option Int32) :=
  (contribution 2 (bundle renewed "C") 100).get (by decide +kernel)

def sum : Job (Option Int32) := (total 0 (bundle renewed "R")).get (by decide +kernel)

def change : List (System.Event (Option Int32)) :=
  [.begin abandoned, .reconfigure 0 (bundle renewed "R"), .install 0, .install 0, .install 0,
    .reconfigure 1 (bundle renewed "A"), .install 1, .install 1, .install 1,
    .reconfigure 2 (bundle renewed "C"), .install 2, .install 2, .install 2]

def round : List (System.Event (Option Int32)) :=
  [.begin fresh, .send 1, .hold 0 "C", .deliver 0, .take 0 "C", .send 0, .begin sum, .hold 2 "A",
    .deliver 0, .take 2 "A"]

def between : System (Option Int32) :=
  (change.foldlM System.step? (.idle start)).get (by decide +kernel)

def final : System (Option Int32) := (round.foldlM System.step? between).get (by decide +kernel)

/-- The calls that have begun since the change hand in 100, and the root comes to 101. -/
theorem abandoned_value_reduced :
    (start.clients.map fun c => (c.task, c.epoch)) = [("R", 0), ("A", 0), ("C", 0), ("B", 0)] ∧
      change.foldlM System.step? (.idle start) = some between ∧
      (between.session.clients.map fun c => (c.task, c.epoch)) =
        [("R", 1), ("A", 1), ("C", 1), ("B", 0)] ∧
      between.sent = [] ∧
      round.foldlM System.step? between = some final ∧
      final.jobs.map Job.result? = [some (.ok none), some (.ok none), some (.ok (some 101))] := by
  refine ⟨by decide +kernel, (Option.some_get _).symm, by decide +kernel, by decide +kernel,
    (Option.some_get _).symm, by decide +kernel⟩

end Session.Renewal

end Collective
