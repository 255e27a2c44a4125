import Collective.Proofs.Group.Delivery
import Collective.Proofs.Group.Epoch
import Collective.Proofs.Group.Progress
import Collective.Proofs.Manager.Finality

/-!
# Clients that have left

Once a client has left, it hears nothing, its sends fail, and a call that waits for a message can
give up: the connection to the task from which it would come is closed. But a call may instead take
a message that had already come, and if it is not out of date, return it. Nothing else is returned.
-/

namespace Collective

namespace Client

variable {c d e : Client}

theorem GoesOn.trans (h : c.GoesOn d) (hd : d.GoesOn e) : c.GoesOn e :=
  ⟨UInt64.le_trans h.epoch_le hd.epoch_le, fun m hm => h.holds m (hd.holds m hm)⟩

/-- What a step of a system makes of a client. -/
inductive Moves (c : Client) : Client → Prop
  | stay : Moves c c
  | ask (box : Mailbox) : Moves c (c.openQueue box).1
  | take {number : Nat} {d : Client} {answer : Option Message} :
    c.pop? number = some (d, answer) → Moves c d
  | hear (source : Address) (m : Message) : Moves c (c.hear source m)
  | install {bundle : Bundle} {installation next : Installation} {d : Client} :
    installation.step? bundle c = some (d, next) → Moves c d
  | leave (names : Registry) : Moves c (c.shutdown names).1

/-- A client has left: it hears nothing, and has no other messages than before. -/
structure Left (c d : Client) : Prop where
  cancelled : d.cancelled = true
  registration : d.registration = none
  disposed : d.manager.disposed = true
  hearing : ∀ source, d.manager.observers.hearing source = []
  goesOn : c.GoesOn d

/-- What a client hears to whom nobody brings messages. -/
theorem hear_of_deaf {source : Address} (h : c.manager.observers.hearing source = [])
    (m : Message) : c.hear source m = c := by
  rw [hear, h]
  rfl

/-- Installing a bundle bears neither on the manager nor on whether the client has left. -/
theorem same_of_install {bundle : Bundle} {installation next : Installation}
    (h : installation.step? bundle c = some (d, next)) :
    d.cancelled = c.cancelled ∧ d.registration = c.registration ∧ d.manager = c.manager := by
  cases installation with
  | start =>
    rw [Installation.step?] at h
    split at h <;> obtain ⟨rfl, -⟩ := Prod.mk.inj (Option.some.inj h) <;> exact ⟨rfl, rfl, rfl⟩
  | done => cases h
  | _ =>
    obtain ⟨rfl, -⟩ := Prod.mk.inj (Option.some.inj h)
    exact ⟨rfl, rfl, rfl⟩

namespace Left

/-- A client that has just left, and whose manager had been at work until then. -/
theorem shutdown (hopen : c.manager.disposed = false) (names : Registry) :
    c.Left (c.shutdown names).1 := by
  have hdeaf : c.deafen.registration = none ∧ c.deafen.manager.disposed = false := by
    rw [deafen]
    split
    · exact ⟨rfl, hopen⟩
    · next hnone => exact ⟨hnone, hopen⟩
  constructor
  · rfl
  · exact hdeaf.1
  · rw [Client.shutdown, Manager.dispose, hdeaf.2]
    rfl
  · intro source
    rw [Client.shutdown, Manager.dispose, hdeaf.2]
    rfl
  · exact c.goesOn_shutdown names

/-- Whatever becomes of a client that has left, it stays one. -/
theorem moves (h : c.Left d) (hd : d.Moves e) : c.Left e := by
  cases hd with
  | stay => exact h
  | ask box =>
    exact ⟨h.cancelled, h.registration, h.disposed, h.hearing,
      h.goesOn.trans (d.goesOn_openQueue box)⟩
  | take hpop =>
    have hgoesOn := h.goesOn.trans (goesOn_pop? hpop)
    obtain ⟨⟨m, rest⟩, -, hpair⟩ := Option.map_eq_some_iff.1 hpop
    obtain ⟨rfl, -⟩ := Prod.mk.inj hpair
    exact ⟨h.cancelled, h.registration, h.disposed, h.hearing, hgoesOn⟩
  | hear source m => rwa [hear_of_deaf (h.hearing source)]
  | install hstep =>
    obtain ⟨hcancelled, hregistration, hmanager⟩ := same_of_install hstep
    refine ⟨hcancelled.trans h.cancelled, hregistration.trans h.registration, ?_, ?_,
      h.goesOn.trans (goesOn_install hstep)⟩
    · rw [hmanager]
      exact h.disposed
    · rw [hmanager]
      exact h.hearing
  | leave names =>
    have hdeaf : d.deafen = d := by rw [deafen, h.registration]
    have hdisposed := Manager.dispose_of_disposed h.disposed
    refine ⟨rfl, ?_, ?_, ?_, h.goesOn.trans (d.goesOn_shutdown names)⟩
    · rw [Client.shutdown, hdeaf]
      exact h.registration
    · rw [Client.shutdown, hdeaf, hdisposed]
      exact h.disposed
    · rw [Client.shutdown, hdeaf, hdisposed]
      exact h.hearing

end Left

end Client

namespace System

variable {β : Type} {s t u : System β} {number i k : Nat} {c d e : Client} {job : Job β}
  {event : Event β} {later : List (Event β)}

/-! ## Steps -/

/-- One client moves, and no other. -/
theorem exists_moves_putClient (hc : s.client? number = some c) (hd : s.client? i = some d)
    (hmoves : d.Moves e) :
    ∃ f, (s.putClient i e).client? number = some f ∧ c.Moves f := by
  rw [client?_putClient hd]
  by_cases hi : i = number
  · subst hi
    obtain rfl := Option.some.inj (hc.symm.trans hd)
    exact ⟨e, if_pos rfl, hmoves⟩
  · exact ⟨c, (if_neg hi).trans hc, .stay⟩

/-- What a step makes of a client. -/
theorem exists_moves (ht : s.step? event = some t) (hc : s.client? number = some c) :
    ∃ d, t.client? number = some d ∧ c.Moves d := by
  cases event with
  | begin job =>
    obtain rfl := Option.some.inj ht
    exact ⟨c, hc, .stay⟩
  | send k =>
    obtain ⟨job, -, ht⟩ := Option.bind_eq_some_iff.1 ht
    obtain ⟨⟨parcel, rest⟩, -, ht⟩ := Option.bind_eq_some_iff.1 ht
    obtain ⟨d, -, ht⟩ := Option.bind_eq_some_iff.1 ht
    split at ht
    · obtain rfl := Option.some.inj ht
      exact ⟨c, hc, .stay⟩
    · split at ht <;> obtain rfl := Option.some.inj ht <;> exact ⟨c, hc, .stay⟩
  | hold k source =>
    obtain ⟨job, -, ht⟩ := Option.bind_eq_some_iff.1 ht
    obtain ⟨d, hd, ht⟩ := Option.bind_eq_some_iff.1 ht
    split at ht
    · obtain rfl := Option.some.inj ht
      exact exists_moves_putClient hc hd (.ask _)
    · cases ht
  | take k source =>
    obtain ⟨job, -, ht⟩ := Option.bind_eq_some_iff.1 ht
    obtain ⟨queue, -, ht⟩ := Option.bind_eq_some_iff.1 ht
    obtain ⟨d, hd, ht⟩ := Option.bind_eq_some_iff.1 ht
    obtain ⟨⟨e, answer⟩, hpop, ht⟩ := Option.bind_eq_some_iff.1 ht
    have hmoves := exists_moves_putClient hc hd (.take hpop)
    cases answer with
    | none =>
      obtain rfl := Option.some.inj ht
      exact hmoves
    | some m =>
      obtain ⟨call, -, ht⟩ := Option.bind_eq_some_iff.1 ht
      obtain rfl := Option.some.inj ht
      exact hmoves
  | giveUp k source =>
    obtain ⟨job, -, ht⟩ := Option.bind_eq_some_iff.1 ht
    obtain ⟨queue, -, ht⟩ := Option.bind_eq_some_iff.1 ht
    obtain ⟨d, -, ht⟩ := Option.bind_eq_some_iff.1 ht
    split at ht
    · obtain rfl := Option.some.inj ht
      exact ⟨c, hc, .stay⟩
    · cases ht
  | deliver k =>
    obtain ⟨letter, -, ht⟩ := Option.bind_eq_some_iff.1 ht
    obtain ⟨d, hd, ht⟩ := Option.bind_eq_some_iff.1 ht
    obtain ⟨sender, -, ht⟩ := Option.bind_eq_some_iff.1 ht
    obtain ⟨home, -, ht⟩ := Option.bind_eq_some_iff.1 ht
    dsimp only at ht
    split at ht
    · cases ht
    · obtain rfl := Option.some.inj ht
      exact exists_moves_putClient hc hd (.hear home letter.message)
  | reconfigure i bundle =>
    obtain rfl := Option.some.inj ht
    exact ⟨c, hc, .stay⟩
  | install k =>
    obtain ⟨⟨i, bundle, installation⟩, -, ht⟩ := Option.bind_eq_some_iff.1 ht
    obtain ⟨d, hd, ht⟩ := Option.bind_eq_some_iff.1 ht
    obtain ⟨⟨e, next⟩, hstep, ht⟩ := Option.bind_eq_some_iff.1 ht
    obtain rfl := Option.some.inj ht
    exact exists_moves_putClient hc hd (.install hstep)
  | shutdown task =>
    obtain rfl := Option.some.inj ht
    show ∃ d, (s.session.shutdown task).clients[number]? = some d ∧ c.Moves d
    rw [Session.shutdown]
    split
    · next i d hclient =>
      have hd : s.client? i = some d := Session.getElem?_of_client? hclient
      exact exists_moves_putClient hc hd (.leave s.session.names)
    · exact ⟨c, hc, .stay⟩

/-- What a call takes is the first message of a queue of its client. -/
theorem exists_pop?_of_taking {taking : Taking} (h : s.taking number event = some taking) :
    ∃ d queue rest, s.client? number = some d ∧
      d.mailboxes.pop? queue = some (taking.message, rest) ∧
      (taking.returned = true → d.epoch ≤ taking.message.epoch) := by
  cases event with
  | take k source =>
    obtain ⟨job, -, h⟩ := Option.bind_eq_some_iff.1 h
    obtain ⟨queue, -, h⟩ := Option.bind_eq_some_iff.1 h
    obtain ⟨d, hd, h⟩ := Option.bind_eq_some_iff.1 h
    obtain ⟨⟨m, rest⟩, hpop, h⟩ := Option.bind_eq_some_iff.1 h
    obtain ⟨⟨e, answer⟩, hanswer, h⟩ := Option.bind_eq_some_iff.1 h
    dsimp only at h
    split at h
    · next hclient =>
      obtain rfl := Option.some.inj h
      refine ⟨d, queue, rest, hclient ▸ hd, hpop, ?_⟩
      rw [Client.pop?, hpop] at hanswer
      obtain ⟨-, rfl⟩ := Prod.mk.inj (Option.some.inj hanswer)
      intro hreturned
      by_contra hstale
      simp [hstale] at hreturned
    · cases h
  | _ => cases h

/-- The run lemma. -/
theorem left_run (h : c.Left d) (hd : t.client? number = some d) (hrun : t.run? later = some u) :
    (∃ e, u.client? number = some e ∧ c.Left e) ∧
      ∀ taking ∈ takings number t later, c.mailboxes.Holds taking.message ∧
        (taking.returned = true → c.epoch ≤ taking.message.epoch) := by
  induction later generalizing t d with
  | nil =>
    obtain rfl := Option.some.inj hrun
    exact ⟨⟨d, hd, h⟩, nofun⟩
  | cons event later ih =>
    rw [run?, List.foldlM_cons] at hrun
    obtain ⟨v, hstep, hrest⟩ := Option.bind_eq_some_iff.1 hrun
    obtain ⟨e, he, hmoves⟩ := exists_moves hstep hd
    obtain ⟨hleft, htakings⟩ := ih (h.moves hmoves) he hrest
    refine ⟨hleft, ?_⟩
    intro taking htaking
    rw [takings, hstep, Option.map_some, Option.getD_some] at htaking
    cases List.mem_append.1 htaking with
    | inl hfirst =>
      obtain ⟨f, queue, rest, hf, hpop, hreturned⟩ :=
        exists_pop?_of_taking (Option.mem_toList.1 hfirst)
      obtain rfl := Option.some.inj (hf.symm.trans hd)
      refine ⟨h.goesOn.holds _ (Mailboxes.holds_of_pop? hpop), ?_⟩
      exact fun hr => UInt64.le_trans h.goesOn.epoch_le (hreturned hr)
    | inr hlater => exact htakings taking hlater

/-- A client leaves whose manager has been at work until then. Whatever goes on after that, each of
its sends ends with the connection to the destination closed, whenever the call began. A call that
waits for a message can ask for its queue, and can end with the connection to the source closed. It
may also take a message, but only one that had come before, and it returns none that was out of date
by then. -/
theorem calls_end_after_departure {task : String}
    (hpresent : s.session.present.get? task = some number) (hc : s.client? number = some c)
    (hopen : c.manager.disposed = false) (hleave : s.step? (.shutdown task) = some t)
    (hrun : t.run? later = some u) :
    (∃ d, u.client? number = some d ∧ ∀ source m, d.hear source m = d) ∧
    (∀ {k : Nat} {job : Job β} {parcel : Parcel} {rest : Call job.type.Carrier β},
      u.jobs[k]? = some job → job.client = number → job.call.sent? = some (parcel, rest) →
        u.step? (.send k) =
          some (u.putJob k (job.fail (.connectionClosed parcel.destination)))) ∧
    (∀ {k : Nat} {job : Job β} {source : String},
      u.jobs[k]? = some job → job.client = number → source ∈ job.call.awaits →
        (job.held.lookup source = none → (u.step? (.hold k source)).isSome) ∧
        (job.held.lookup source ≠ none →
          u.step? (.giveUp k source) =
            some (u.putJob k (job.fail (.connectionClosed source))))) ∧
    ∀ taking ∈ takings number t later, c.mailboxes.Holds taking.message ∧
      (taking.returned = true → c.epoch ≤ taking.message.epoch) := by
  obtain rfl := Option.some.inj hleave
  have hclient : s.session.client? task = some (number, c) := by
    rw [Session.client?, hpresent]
    exact congrArg (Option.map (number, ·)) hc
  have hafter : ({ s with session := s.session.shutdown task } : System β).client? number =
      some (c.shutdown s.session.names).1 := by
    show (s.session.shutdown task).clients[number]? = some (c.shutdown s.session.names).1
    rw [Session.shutdown, hclient]
    exact List.getElem?_set_self (List.getElem?_eq_some_iff.1 hc).1
  obtain ⟨⟨d, hd, hleft⟩, htakings⟩ :=
    left_run (Client.Left.shutdown hopen s.session.names) hafter hrun
  refine ⟨⟨d, hd, fun source m => Client.hear_of_deaf (hleft.hearing source) m⟩, ?_, ?_, htakings⟩
  · intro k job parcel rest hjob hown hsent
    have hown : u.client? job.client = some d := hown ▸ hd
    simp [step?, send?, hjob, hsent, hown, Client.resolve, hleft.cancelled]
  · intro k job source hjob hown hawaits
    have hown : u.client? job.client = some d := hown ▸ hd
    constructor
    · intro hnone
      obtain ⟨v, queue, hhold, -⟩ := exists_hold? hjob hown hawaits hnone
      rw [step?, hhold]
      rfl
    · intro hheld
      obtain ⟨queue, hqueue⟩ := Option.ne_none_iff_exists'.1 hheld
      simp [step?, giveUp?, hjob, hown, Job.queue?, hawaits, hqueue, Client.giveUp, hleft.cancelled]

end System

/-! A client leaves while a call waits and two messages are there. The call takes one of them, and a
call that begins after that takes the other. A third call has to give up. -/

namespace Session.Leaving

def coordinator : Coordinator :=
  .after ⟨"g", 2, 0, [], .empty⟩ [
    .operator "model" (.plain .broadcast "R"), .member (.add "R"), .member (.add "A")]

def session : Session :=
  (joinAll (localHome ["R", "A"]) 1024 none ["R", "A"] (.new coordinator)).toOption.get
    (by decide +kernel)

def bundle : Bundle := (coordinator.bundle "A").toOption.get (by decide +kernel)

def message (value : UInt8) : Message where
  group := "g"
  epoch := 0
  operator := "model"
  source := "R"
  destination := "A"
  chunk := ⟨0, true⟩
  payload := [value]

def reception : Job Int32 :=
  ((bundle.broadcastReceiver (.numeric .i32) "model").toOption.map fun e =>
    .new 1 (.numeric .i32) e e.receiveBroadcast).get (by decide +kernel)

def start : System Int32 :=
  { System.idle session with transit := [⟨0, 1, message 53⟩, ⟨0, 1, message 54⟩] }

def before : List (System.Event Int32) := [.begin reception, .hold 0 "R", .deliver 0, .deliver 0]

def waiting : System Int32 := (start.run? before).get (by decide +kernel)

def leaver : Client := (waiting.client? 1).get (by decide +kernel)

def left : System Int32 := (waiting.step? (.shutdown "A")).get (by decide +kernel)

def later : List (System.Event Int32) :=
  [.take 0 "R", .begin reception, .hold 1 "R", .take 1 "R", .begin reception, .hold 2 "R"]

def final : System Int32 := (left.run? later).get (by decide +kernel)

def third : Job Int32 := final.jobs[2]?.get (by decide +kernel)

theorem departure : waiting.session.present.get? "A" = some 1 ∧
    waiting.client? 1 = some leaver ∧ leaver.manager.disposed = false ∧
    waiting.step? (.shutdown "A") = some left ∧ left.run? later = some final := by
  refine ⟨by decide +kernel, ?_, by decide +kernel, ?_, ?_⟩ <;> exact (Option.some_get _).symm

/-- The third call ends with the connection to the root closed. -/
theorem calls_end_after_departure_third : final.jobs[2]? = some third ∧
    final.step? (.giveUp 2 "R") = some (final.putJob 2 (third.fail (.connectionClosed "R"))) := by
  obtain ⟨hpresent, hclient, hopen, hleave, hrun⟩ := departure
  obtain ⟨-, -, hends, -⟩ :=
    System.calls_end_after_departure hpresent hclient hopen hleave hrun
  have hthird : final.jobs[2]? = some third := (Option.some_get _).symm
  have hawaits : "R" ∈ third.call.awaits := by decide +kernel
  exact ⟨hthird, (hends hthird (by decide +kernel) hawaits).2 (by decide +kernel)⟩

/-- A client that has left may still return messages, also in a call that begins later. -/
theorem message_returned_after_departure : ¬ ∀ {s t u : System Int32} {task : String} {number : Nat}
    {c : Client} {later : List (System.Event Int32)},
    s.session.present.get? task = some number → s.client? number = some c →
      c.manager.disposed = false → s.step? (.shutdown task) = some t → t.run? later = some u →
        ∀ taking ∈ System.takings number t later, taking.returned = false := by
  intro hnone
  obtain ⟨hpresent, hclient, hopen, hleave, hrun⟩ := departure
  have htakings : System.takings 1 left later =
      [⟨⟨"model", "R"⟩, message 53, 0, true⟩, ⟨⟨"model", "R"⟩, message 54, 0, true⟩] := by
    decide +kernel
  have hreturned := hnone hpresent hclient hopen hleave hrun
  simp [htakings] at hreturned

end Session.Leaving

end Collective
